import ThothIpc.Lib.Run

/-!
# Waiting until a predicate is false

`waiter.rs`, `Waiter`, over the Linux condition of `linux.rs` (`cnd_timedwait`, `cnd_wake`). `wait_if` locks the mutex,
checks the quit flag and the predicate, reads the condition's sequence number, unlocks, and sleeps if that is still the
same. Whoever changes the state then locks and unlocks the mutex once, increments the sequence number, and has the
kernel move all sleepers to the mutex.

* `Pred` : a predicate with the loads it makes;
* `Pc`, `State.step` : the steps of any number of threads that wait, change the state and wake;
* `noWrap` : the sequence number does not come round between the read and the sleep;
* `Inv` : why a thread at each point of `wait_if` need not be woken, or who is about to wake it;
* `no_lost_wakeup` : whoever sleeps although its predicate is false is about to be woken.

The mutex is one that excludes; `waiter.h` checks the quit flag and the predicate before it locks as well (`peekQuit`).
-/

namespace ThothIpc.Futex.Waiter
open Function Steps

/-! ## The steps -/

/-- A predicate, given by its loads: each looks at the state at its own time. -/
inductive Pred (σ : Type) where
  | ret (b : Bool)
  | load (k : σ → Pred σ)

/-- The predicate's value if the state does not change meanwhile. -/
def Pred.eval {σ : Type} : Pred σ → σ → Bool
  | ret b, _ => b
  | load k, x => (k x).eval x

/-- The arguments of a `wait_if`: the waiter, whose handle has a quit flag, and the predicate. -/
structure Call (η σ : Type) where
  handle : η
  pred : Pred σ

/-- A `notify`, a `broadcast`, or a `broadcast` after a change of the state. -/
inductive Kind where
  | notify
  | broadcast
  | changed
  deriving DecidableEq, Repr

/-- Where a thread stands. `unlock`, `compare` and `asleep` have the sequence number that was read and the number of
increments then; `moved` waits for the mutex after a requeue; `relock` after a timeout (`late`) or another end. -/
inductive Pc (σ : Type) where
  | idle
  | peekQuit
  | peek (p : Pred σ)
  | lock
  | quit
  | pred (p : Pred σ)
  | read
  | unlock (v : BitVec 32) (n : Nat)
  | compare (v : BitVec 32) (n : Nat)
  | asleep (v : BitVec 32) (n : Nat)
  | moved
  | relock (late : Bool)
  | leave (result : Bool)
  | done (result : Bool)
  | changed
  | wlock (k : Kind)
  | wunlock (k : Kind)
  | bump (k : Kind)
  | requeue (k : Kind) (val : BitVec 32)
  | reload (k : Kind)

namespace Pc

variable {σ : Type}

def isAsleep : Pc σ → Bool
  | asleep _ _ => true
  | _ => false

/-- The thread holds the mutex. -/
def locks : Pc σ → Bool
  | quit => true
  | pred _ => true
  | read => true
  | unlock _ _ => true
  | leave _ => true
  | wunlock _ => true
  | _ => false

/-- The thread has changed the state, and has not yet locked the mutex. -/
def early : Pc σ → Bool
  | changed => true
  | wlock .changed => true
  | _ => false

/-- The thread has changed the state, and has not yet incremented the sequence number. -/
def mid : Pc σ → Bool
  | wunlock .changed => true
  | bump .changed => true
  | pc => pc.early

/-- The thread is between its change of the state and the end of its `broadcast`. -/
def pending : Pc σ → Bool
  | requeue .changed _ => true
  | reload .changed => true
  | pc => pc.mid

theorem mid_of_early {pc : Pc σ} (h : pc.early = true) : pc.mid = true := by
  unfold mid
  split <;> first | rfl | exact h

theorem pending_of_mid {pc : Pc σ} (h : pc.mid = true) : pc.pending = true := by
  unfold pending
  split <;> first | rfl | exact h

end Pc

/-- What the predicates read, the quit flags of the handles `η`, the mutex, the sequence number, how often it was
incremented, and the threads with their last calls of `wait_if`. -/
structure State (τ η σ : Type) where
  shared : σ
  quit : η → Bool
  lock : Option τ
  seq : BitVec 32
  bumps : Nat
  call : τ → Call η σ
  pcs : τ → Pc σ

/-- What a thread does next; `fast` calls `wait_if` with the check before the lock, and `notify`'s requeue moves `ws`.
-/
inductive Act (τ η σ : Type) where
  | wait (c : Call η σ) (fast : Bool)
  | change (x : σ)
  | quitWaiting (h : η)
  | broadcast
  | notify
  | go
  | interrupt
  | spurious
  | timeout
  | some (ws : List τ)
  | ret

variable {τ η σ : Type}

/-- What `wait_if` waits as long as it holds. -/
def State.cond (s : State τ η σ) (t : τ) : Bool := !s.quit (s.call t).handle && (s.call t).pred.eval s.shared

section Step

variable [DecidableEq τ] [DecidableEq η]

def State.set (s : State τ η σ) (t : τ) (pc : Pc σ) : State τ η σ := { s with pcs := update s.pcs t pc }

/-- The kernel moves the sleepers that `sel` selects to the mutex. -/
def State.move (s : State τ η σ) (sel : τ → Bool) : State τ η σ :=
  { s with pcs := fun i => if sel i && (s.pcs i).isAsleep then .moved else s.pcs i }

/-- `t` locks the mutex if it is free. -/
def State.take (s : State τ η σ) (t : τ) (pc : Pc σ) : Option (State τ η σ) :=
  if s.lock = none then some { s.set t pc with lock := some t } else none

def State.go (s : State τ η σ) (t : τ) : Option (State τ η σ) :=
  match s.pcs t with
  | .peekQuit => some (s.set t (if s.quit (s.call t).handle then .done true else .peek (s.call t).pred))
  | .peek (.load k) => some (s.set t (.peek (k s.shared)))
  | .peek (.ret b) => some (s.set t (if b then .lock else .done true))
  | .lock => s.take t .quit
  | .quit => some (s.set t (if s.quit (s.call t).handle then .leave true else .pred (s.call t).pred))
  | .pred (.load k) => some (s.set t (.pred (k s.shared)))
  | .pred (.ret b) => some (s.set t (if b then .read else .leave true))
  | .read => some (s.set t (.unlock s.seq s.bumps))
  | .unlock v n => some { s.set t (.compare v n) with lock := none }
  | .compare v n => some (s.set t (if s.seq = v then .asleep v n else .relock false)) -- or `EAGAIN`
  | .moved => s.take t .quit
  | .relock late => s.take t (if late then .leave false else .quit)
  | .leave r => some { s.set t (.done r) with lock := none }
  | .wlock k => s.take t (.wunlock k)
  | .wunlock k => some { s.set t (.bump k) with lock := none }
  | .bump k => some { s.set t (.requeue k (s.seq + 1)) with seq := s.seq + 1, bumps := s.bumps + 1 }
  | .requeue k val =>
    if s.seq = val then if k = .notify then none else some ((s.move fun _ => true).set t .idle)
    else some (s.set t (.reload k)) -- `EAGAIN`
  | .reload k => some (s.set t (.requeue k s.seq))
  | _ => none

def State.step (s : State τ η σ) (a : τ × Act τ η σ) : Option (State τ η σ) :=
  let t := a.1
  match a.2, s.pcs t with
  | .wait c fast, .idle => some ({ s with call := update s.call t c }.set t (if fast then .peekQuit else .lock))
  | .change x, .idle => some ({ s with shared := x }.set t .changed)
  | .change x, .changed => some ({ s with shared := x }.set t .changed)
  | .quitWaiting h, .idle => some ({ s with quit := update s.quit h true }.set t (.wlock .changed))
  | .quitWaiting h, .changed => some ({ s with quit := update s.quit h true }.set t (.wlock .changed))
  | .broadcast, .idle => some (s.set t (.wlock .broadcast))
  | .broadcast, .changed => some (s.set t (.wlock .changed))
  | .notify, .idle => some (s.set t (.wlock .notify))
  | .go, _ => s.go t
  | .interrupt, .asleep v n => some (s.set t (.compare v n)) -- `EINTR`, retried
  | .interrupt, .moved => some (s.set t (.relock false)) -- `EAGAIN` after a requeue
  | .spurious, .asleep _ _ => some (s.set t (.relock false))
  | .timeout, .asleep _ _ => some (s.set t (.relock true))
  | .timeout, .moved => some (s.set t (.relock true))
  | .some ws, .requeue .notify val =>
    if s.seq = val ∧ ws.length ≤ 2 then some ((s.move fun i => i ∈ ws).set t .idle) else none -- wakes 1 and moves 1
  | .ret, .done _ => some (s.set t .idle)
  | _, _ => none

end Step

/-- The sequence number does not come round between a waiter's read and its sleep. -/
def noWrap (s : State τ η σ) (a : τ × Act τ η σ) : Prop :=
  match a.2, s.pcs a.1 with
  | .go, .compare _ n => s.bumps < n + 2 ^ 32
  | _, _ => True

/-! ## The invariant -/

namespace State

/-- Some thread has changed the state and has not yet locked the mutex. -/
def Early (s : State τ η σ) : Prop := ∃ u, (s.pcs u).early = true

def Mid (s : State τ η σ) : Prop := ∃ u, (s.pcs u).mid = true

def Pending (s : State τ η σ) : Prop := ∃ u, (s.pcs u).pending = true

/-- Either what `t` has found out still holds, or somebody is about to wake it, who has still to lock the mutex that `t`
holds, to increment the sequence number or to end its `broadcast`. -/
def Waits (s : State τ η σ) (t : τ) : Pc σ → Prop
  | .pred p => s.quit (s.call t).handle = false ∧ p.eval s.shared = (s.call t).pred.eval s.shared ∨ s.Early
  | .read => s.cond t = true ∨ s.Early
  | .unlock v n => (s.cond t = true ∨ s.Early) ∧ v = BitVec.ofNat 32 n ∧ n ≤ s.bumps
  | .compare v n => (s.cond t = true ∨ s.Mid ∨ n < s.bumps) ∧ v = BitVec.ofNat 32 n ∧ n ≤ s.bumps
  | .asleep v n => (s.cond t = true ∨ s.Mid ∨ n < s.bumps ∧ s.Pending) ∧ v = BitVec.ofNat 32 n ∧ n ≤ s.bumps
  | _ => True

theorem Early.mid {s : State τ η σ} : s.Early → s.Mid := fun ⟨u, hu⟩ => ⟨u, Pc.mid_of_early hu⟩

theorem Mid.pending {s : State τ η σ} : s.Mid → s.Pending := fun ⟨u, hu⟩ => ⟨u, Pc.pending_of_mid hu⟩

variable {s s' : State τ η σ} {t : τ} {pc : Pc σ}

theorem cond_congr (hx : s'.shared = s.shared) (hq : s'.quit = s.quit) (hc : s'.call t = s.call t) :
    s'.cond t = s.cond t := by
  unfold cond
  rw [hx, hq, hc]

theorem Waits.mono (h : s.Waits t pc) (hx : s'.shared = s.shared) (hq : s'.quit = s.quit) (hc : s'.call t = s.call t)
    (hb : s.bumps ≤ s'.bumps) (hE : pc.locks = true → s.Early → s'.Early)
    (hM : s.Mid → s'.Mid ∨ s.bumps < s'.bumps ∧ s'.Pending) (hP : pc.isAsleep = true → s.Pending → s'.Pending) :
    s'.Waits t pc := by
  have hcond := cond_congr hx hq hc
  unfold Waits at h ⊢
  split
  case h_1 p =>
    rw [hx, hq, hc]
    exact h.imp id (hE rfl)
  case h_2 =>
    rw [hcond]
    exact h.imp id (hE rfl)
  case h_3 v n =>
    rw [hcond]
    exact ⟨h.1.imp id (hE rfl), h.2.1, h.2.2.trans hb⟩
  case h_4 v n =>
    obtain ⟨hwhy, hv, hn⟩ := h
    rw [hcond]
    refine ⟨?_, hv, hn.trans hb⟩
    rcases hwhy with hwhy | hwhy | hwhy
    · exact Or.inl hwhy
    · exact Or.inr ((hM hwhy).imp id fun hlt => hn.trans_lt hlt.1)
    · exact Or.inr (Or.inr (hwhy.trans_le hb))
  case h_5 v n =>
    obtain ⟨hwhy, hv, hn⟩ := h
    rw [hcond]
    refine ⟨?_, hv, hn.trans hb⟩
    rcases hwhy with hwhy | hwhy | hwhy
    · exact Or.inl hwhy
    · exact Or.inr ((hM hwhy).imp id fun hlt => ⟨hn.trans_lt hlt.1, hlt.2⟩)
    · exact Or.inr (Or.inr ⟨hwhy.1.trans_le hb, hP rfl hwhy.2⟩)
  case h_6 => trivial

/-- A step that changes the state: its thread is about to wake everybody. -/
theorem Waits.change (h : s.Waits t pc) (hE : s'.Early) (hb : s'.bumps = s.bumps) : s'.Waits t pc := by
  unfold Waits at h ⊢
  split
  case h_1 p => exact Or.inr hE
  case h_2 => exact Or.inr hE
  case h_3 v n => exact ⟨Or.inr hE, h.2.1, hb ▸ h.2.2⟩
  case h_4 v n => exact ⟨Or.inr (Or.inl hE.mid), h.2.1, hb ▸ h.2.2⟩
  case h_5 v n => exact ⟨Or.inr (Or.inl hE.mid), h.2.1, hb ▸ h.2.2⟩
  case h_6 => trivial

end State

/-- The sequence number counts the increments, the mutex has the thread that holds it, and nobody waits for nothing. -/
structure Inv (s : State τ η σ) : Prop where
  seq : s.seq = BitVec.ofNat 32 s.bumps
  mutex : ∀ t, (s.pcs t).locks = true → s.lock = some t
  wait : ∀ t, s.Waits t (s.pcs t)

namespace Inv

variable {s s' : State τ η σ} {t : τ} {pc : Pc σ}

theorem unlocked (h : Inv s) (hl : s.lock = none) (i : τ) : (s.pcs i).locks = false := by
  rw [Bool.eq_false_iff]
  intro hi
  exact absurd ((h.mutex i hi).symm.trans hl) nofun

theorem move_pcs (s : State τ η σ) (sel : τ → Bool) (i : τ) :
    (s.move sel).pcs i = s.pcs i ∨ (s.pcs i).isAsleep = true ∧ (s.move sel).pcs i = .moved := by
  unfold State.move
  by_cases hi : (sel i && (s.pcs i).isAsleep) = true
  · exact Or.inr ⟨(Bool.and_eq_true _ _ ▸ hi).2, if_pos hi⟩
  · exact Or.inl (if_neg hi)

theorem move_awake {i : τ} (hi : (s.pcs i).isAsleep = false) (sel : τ → Bool) : (s.move sel).pcs i = s.pcs i := by
  rcases move_pcs s sel i with he | ⟨hasleep, -⟩
  · exact he
  · exact absurd (hi.symm.trans hasleep) nofun

theorem move_keep {f : Pc σ → Bool} (hf : ∀ v n, f (.asleep v n) = false) (sel : τ → Bool) {u : τ}
    (hu : f (s.pcs u) = true) :
    f ((s.move sel).pcs u) = true := by
  rwa [move_awake]
  unfold Pc.isAsleep
  split
  case h_1 v n hpc =>
    rw [hpc, hf] at hu
    exact absurd hu nofun
  case h_2 => rfl

theorem move (h : Inv s) (sel : τ → Bool) : Inv (s.move sel) := by
  refine ⟨h.seq, fun i hi => ?_, fun i => ?_⟩
  · rcases move_pcs s sel i with he | ⟨-, he⟩ <;> rw [he] at hi
    · exact h.mutex i hi
    · exact absurd hi nofun
  · rcases move_pcs s sel i with he | ⟨-, he⟩ <;> rw [he]
    · refine (h.wait i).mono rfl rfl rfl le_rfl (fun _ => ?_) ?_ fun _ => ?_
      · rintro ⟨u, hu⟩
        exact ⟨u, move_keep (fun _ _ => rfl) sel hu⟩
      · rintro ⟨u, hu⟩
        exact Or.inl ⟨u, move_keep (fun _ _ => rfl) sel hu⟩
      · rintro ⟨u, hu⟩
        exact ⟨u, move_keep (fun _ _ => rfl) sel hu⟩
    · trivial

theorem move_all_asleep (i : τ) : ((s.move fun _ => true).pcs i).isAsleep = false := by
  rcases move_pcs s (fun _ => true) i with he | ⟨-, he⟩
  · rw [he]
    by_contra hi
    rw [Bool.not_eq_false] at hi
    have hmoved : (s.move fun _ => true).pcs i = .moved := if_pos (by rw [hi]; rfl)
    rw [he] at hmoved
    rw [hmoved] at hi
    exact absurd hi nofun
  · rw [he]
    rfl

variable [DecidableEq τ]

/-- How the mutex changes in a step of `t` to `pc`: not at all, it is taken, or `t` leaves it. -/
def Locks (s s' : State τ η σ) (t : τ) (pc : Pc σ) : Prop :=
  s'.lock = s.lock ∧ (pc.locks = true → (s.pcs t).locks = true) ∨ s.lock = none ∧ s'.lock = some t ∨
    (s.pcs t).locks = true ∧ pc.locks = false

theorem mutex_next (h : Inv s) (hs : s'.pcs = update s.pcs t pc) (hl : Locks s s' t pc) (i : τ)
    (hi : (s'.pcs i).locks = true) : s'.lock = some i := by
  rw [hs, update_apply] at hi
  rcases hl with ⟨hl, hpc⟩ | ⟨hfree, hl⟩ | ⟨hold, hpc⟩
  · rw [hl]
    split_ifs at hi with hit
    · exact h.mutex i (hit ▸ hpc hi)
    · exact h.mutex i hi
  · split_ifs at hi with hit
    · rw [hl, hit]
    · rw [h.unlocked hfree i] at hi
      exact absurd hi nofun
  · split_ifs at hi with hit
    · rw [hpc] at hi
      exact absurd hi nofun
    · exact absurd (Option.some.inj ((h.mutex i hi).symm.trans (h.mutex t hold))) hit

theorem next (h : Inv s) (hs : s'.pcs = update s.pcs t pc) (hx : s'.shared = s.shared) (hq : s'.quit = s.quit)
    (hc : ∀ i, i ≠ t → s'.call i = s.call i) (hseq : s'.seq = BitVec.ofNat 32 s'.bumps) (hb : s.bumps ≤ s'.bumps)
    (hl : Locks s s' t pc) (hE : (s.pcs t).early = true → pc.early = true ∨ s.lock = none)
    (hM : (s.pcs t).mid = true → pc.mid = true ∨ s.bumps < s'.bumps ∧ pc.pending = true)
    (hP : (s.pcs t).pending = true → pc.pending = true ∨ ∀ i, (s.pcs i).isAsleep = false) (ht : s'.Waits t pc) :
    Inv s' := by
  have hself : s'.pcs t = pc := by rw [hs, update_self]
  have hother : ∀ i, i ≠ t → s'.pcs i = s.pcs i := fun i hi => by rw [hs, update_of_ne hi]
  refine ⟨hseq, h.mutex_next hs hl, fun i => ?_⟩
  rcases eq_or_ne i t with rfl | hi
  · rwa [hself]
  rw [hother i hi]
  refine (h.wait i).mono hx hq (hc i hi) hb (fun hlocks => ?_) ?_ fun hasleep => ?_
  · rintro ⟨u, hu⟩
    rcases eq_or_ne u t with rfl | hut
    · rcases hE hu with hpc | hfree
      · exact ⟨u, by rwa [hself]⟩
      · exact absurd ((h.mutex i hlocks).symm.trans hfree) nofun
    · exact ⟨u, by rwa [hother u hut]⟩
  · rintro ⟨u, hu⟩
    rcases eq_or_ne u t with rfl | hut
    · exact (hM hu).imp (fun hpc => ⟨u, by rwa [hself]⟩) fun hpc => ⟨hpc.1, u, by rw [hself]; exact hpc.2⟩
    · exact Or.inl ⟨u, by rwa [hother u hut]⟩
  · rintro ⟨u, hu⟩
    rcases eq_or_ne u t with rfl | hut
    · rcases hP hu with hpc | hnone
      · exact ⟨u, by rwa [hself]⟩
      · rw [hnone i] at hasleep
        exact absurd hasleep nofun
    · exact ⟨u, by rwa [hother u hut]⟩

/-- A step of `t` to `pc` that changes nothing but the mutex, made by a thread that is not a waker after a change. -/
theorem own (h : Inv s) (hs : s'.pcs = update s.pcs t pc) (hx : s'.shared = s.shared) (hq : s'.quit = s.quit)
    (hc : ∀ i, i ≠ t → s'.call i = s.call i) (hseq : s'.seq = s.seq) (hb : s'.bumps = s.bumps) (hl : Locks s s' t pc)
    (hP : (s.pcs t).pending = false) (ht : s'.Waits t pc) : Inv s' := by
  have hnone : ∀ {P : Prop}, (s.pcs t).pending = true → P := fun hp => absurd (hP.symm.trans hp) nofun
  exact h.next hs hx hq hc (by rw [hseq, hb]; exact h.seq) hb.ge hl
    (fun he => hnone (Pc.pending_of_mid (Pc.mid_of_early he)))
    (fun hm => hnone (Pc.pending_of_mid hm)) hnone ht

theorem change (h : Inv s) (hs : s'.pcs = update s.pcs t pc) (hpc : pc = .changed ∨ pc = .wlock .changed)
    (hseq : s'.seq = s.seq) (hb : s'.bumps = s.bumps) (hl : s'.lock = s.lock) : Inv s' := by
  have hself : s'.pcs t = pc := by rw [hs, update_self]
  have hother : ∀ i, i ≠ t → s'.pcs i = s.pcs i := fun i hi => by rw [hs, update_of_ne hi]
  have hfacts : pc.early = true ∧ pc.locks = false ∧ s'.Waits t pc := by
    rcases hpc with rfl | rfl <;> exact ⟨rfl, rfl, trivial⟩
  refine ⟨by rw [hseq, hb]; exact h.seq, fun i hi => ?_, fun i => ?_⟩
  · rw [hl]
    rcases eq_or_ne i t with rfl | hit
    · rw [hself, hfacts.2.1] at hi
      exact absurd hi nofun
    · exact h.mutex i (by rwa [hother i hit] at hi)
  · rcases eq_or_ne i t with rfl | hit
    · rw [hself]
      exact hfacts.2.2
    · rw [hother i hit]
      exact (h.wait i).change ⟨t, by rw [hself]; exact hfacts.1⟩ hb

/-! ## The steps keep it -/

theorem take (h : Inv s) (hs : s.take t pc = some s') (hE : (s.pcs t).mid = true → pc.mid = true)
    (hP : (s.pcs t).pending = true → pc.pending = true) (ht : ∀ s₁ : State τ η σ, s₁.Waits t pc) : Inv s' := by
  unfold State.take at hs
  split_ifs at hs with hfree
  cases hs
  exact h.next rfl rfl rfl (fun _ _ => rfl) h.seq le_rfl (Or.inr (Or.inl ⟨hfree, rfl⟩)) (fun _ => Or.inr hfree)
    (fun hm => Or.inl (hE hm)) (fun hp => Or.inl (hP hp)) (ht _)

theorem stay (h : Inv s) (hP : (s.pcs t).pending = false) (hl : pc.locks = true → (s.pcs t).locks = true)
    (ht : (s.set t pc).Waits t pc) : Inv (s.set t pc) :=
  h.own rfl rfl rfl (fun _ _ => rfl) rfl rfl (Or.inl ⟨rfl, hl⟩) hP ht

theorem free (h : Inv s) (hP : (s.pcs t).pending = false) (hold : (s.pcs t).locks = true) (hl : pc.locks = false)
    (ht : { s.set t pc with lock := none }.Waits t pc) : Inv { s.set t pc with lock := none } :=
  h.own rfl rfl rfl (fun _ _ => rfl) rfl rfl (Or.inr (Or.inr ⟨hold, hl⟩)) hP ht

theorem exists_set {f : Pc σ → Bool} (hP : f (s.pcs t) = false) (h : ∃ u, f (s.pcs u) = true) :
    ∃ u, f ((s.set t pc).pcs u) = true := by
  obtain ⟨u, hu⟩ := h
  rcases eq_or_ne u t with rfl | hut
  · exact absurd (hP.symm.trans hu) nofun
  · refine ⟨u, ?_⟩
    show f (update s.pcs t pc u) = true
    rwa [update_of_ne hut]

theorem waking (h : Inv s) (hs : s.go t = some s') {k : Kind} {v : BitVec 32}
    (hpc : s.pcs t = .wlock k ∨ s.pcs t = .wunlock k ∨ s.pcs t = .bump k ∨ s.pcs t = .requeue k v ∨
    s.pcs t = .reload k) :
    Inv s' := by
  unfold State.go at hs
  rcases hpc with hpc | hpc | hpc | hpc | hpc
  · rw [hpc] at hs
    refine h.take hs ?_ ?_ fun _ => trivial <;> rw [hpc] <;> cases k <;> exact id
  · rw [hpc] at hs
    cases hs
    refine h.next rfl rfl rfl (fun _ _ => rfl) h.seq le_rfl (Or.inr (Or.inr ⟨by rw [hpc]; rfl, rfl⟩)) ?_ ?_ ?_ trivial
    · rw [hpc]
      nofun
    · rw [hpc]
      cases k <;> exact Or.inl
    · rw [hpc]
      cases k <;> exact Or.inl
  · rw [hpc] at hs
    cases hs
    refine h.next rfl rfl rfl (fun _ _ => rfl) ?_ (Nat.le_succ _) (Or.inl ⟨rfl, nofun⟩) ?_ ?_ ?_ trivial
    · show s.seq + 1 = BitVec.ofNat 32 (s.bumps + 1)
      rw [h.seq, BitVec.ofNat_add]
      rfl
    · rw [hpc]
      nofun
    · rw [hpc]
      cases k <;> exact fun hm => Or.inr ⟨Nat.lt_succ_self _, hm⟩
    · rw [hpc]
      cases k <;> exact Or.inl
  · rw [hpc] at hs
    simp only at hs
    split_ifs at hs with hseq hk
    · -- everybody who slept is at the mutex now
      cases hs
      have hmoved : (s.move fun _ => true).pcs t = .requeue k v := (move_awake (by rw [hpc]; rfl) _).trans hpc
      refine (h.move fun _ => true).next rfl rfl rfl (fun _ _ => rfl) h.seq le_rfl (Or.inl ⟨rfl, nofun⟩) ?_ ?_ ?_ trivial
      · rw [hmoved]
        nofun
      · rw [hmoved]
        nofun
      · exact fun _ => Or.inr move_all_asleep
    · cases hs
      refine h.next rfl rfl rfl (fun _ _ => rfl) h.seq le_rfl (Or.inl ⟨rfl, nofun⟩) ?_ ?_ ?_ trivial
      · rw [hpc]
        nofun
      · rw [hpc]
        nofun
      · rw [hpc]
        cases k <;> exact Or.inl
  · rw [hpc] at hs
    cases hs
    refine h.next rfl rfl rfl (fun _ _ => rfl) h.seq le_rfl (Or.inl ⟨rfl, nofun⟩) ?_ ?_ ?_ trivial
    · rw [hpc]
      nofun
    · rw [hpc]
      nofun
    · rw [hpc]
      cases k <;> exact Or.inl

theorem count_eq {m n : Nat} (h : BitVec.ofNat 32 m = BitVec.ofNat 32 n) (hle : n ≤ m) (hlt : m < n + 2 ^ 32) :
    m = n := by
  have hmod := congrArg BitVec.toNat h
  rw [BitVec.toNat_ofNat, BitVec.toNat_ofNat] at hmod
  omega

theorem waiting (h : Inv s) (hok : noWrap s (t, .go)) (hs : s.go t = some s') (hpend : (s.pcs t).pending = false) :
    Inv s' := by
  have hgo := hs
  have hwait := h.wait t
  have hmid : (s.pcs t).mid = false := Bool.eq_false_iff.mpr fun hm => by
    rw [Pc.pending_of_mid hm] at hpend
    exact absurd hpend nofun
  have hearly : (s.pcs t).early = false := Bool.eq_false_iff.mpr fun he => by
    rw [Pc.mid_of_early he] at hmid
    exact absurd hmid nofun
  unfold State.go at hs
  split at hs
  case h_1 hpc =>
    have hs := Option.some.inj hs
    subst hs
    split_ifs <;> exact h.stay hpend nofun trivial
  case h_2 k hpc =>
    cases hs
    exact h.stay hpend nofun trivial
  case h_3 b hpc =>
    have hs := Option.some.inj hs
    subst hs
    split_ifs <;> exact h.stay hpend nofun trivial
  case h_4 hpc => exact h.take hs (by rw [hpc]; nofun) (by rw [hpc]; nofun) fun _ => trivial
  case h_5 hpc =>
    have hs := Option.some.inj hs
    subst hs
    split_ifs with hquit
    · exact h.stay hpend (fun _ => by rw [hpc]; rfl) trivial
    · refine h.stay hpend (fun _ => by rw [hpc]; rfl) (Or.inl ⟨?_, rfl⟩)
      exact Bool.not_eq_true _ ▸ hquit
  case h_6 k hpc =>
    cases hs
    rw [hpc] at hwait
    exact h.stay hpend (fun _ => by rw [hpc]; rfl) (hwait.imp id (exists_set (f := Pc.early) hearly))
  case h_7 b hpc =>
    have hs := Option.some.inj hs
    subst hs
    rw [hpc] at hwait
    split_ifs with hb
    · refine h.stay hpend (fun _ => by rw [hpc]; rfl) ?_
      refine hwait.imp (fun hval => ?_) (exists_set (f := Pc.early) hearly)
      have hpred : (s.call t).pred.eval s.shared = true := hval.2.symm.trans hb
      show (!s.quit (s.call t).handle && (s.call t).pred.eval s.shared) = true
      rw [hval.1, hpred]
      rfl
    · exact h.stay hpend (fun _ => by rw [hpc]; rfl) trivial
  case h_8 hpc =>
    cases hs
    rw [hpc] at hwait
    exact h.stay hpend (fun _ => by rw [hpc]; rfl) ⟨hwait.imp id (exists_set (f := Pc.early) hearly), h.seq, le_rfl⟩
  case h_9 v n hpc =>
    cases hs
    rw [hpc] at hwait
    refine h.free hpend (by rw [hpc]; rfl) rfl ⟨?_, hwait.2⟩
    exact hwait.1.imp id fun hE => Or.inl (State.Early.mid (exists_set (f := Pc.early) hearly hE))
  case h_10 v n hpc =>
    have hs := Option.some.inj hs
    subst hs
    rw [hpc] at hwait
    obtain ⟨hwhy, hv, hn⟩ := hwait
    split_ifs with hseq
    · have hbumps : s.bumps = n := by
        unfold noWrap at hok
        rw [hpc] at hok
        exact count_eq (h.seq.symm.trans (hseq.trans hv)) hn hok
      refine h.stay hpend nofun ⟨?_, hv, hn⟩
      rcases hwhy with hwhy | hwhy | hwhy
      · exact Or.inl hwhy
      · exact Or.inr (Or.inl (exists_set (f := Pc.mid) hmid hwhy))
      · exact absurd hbumps hwhy.ne'
    · exact h.stay hpend nofun trivial
  case h_11 hpc => exact h.take hs (by rw [hpc]; nofun) (by rw [hpc]; nofun) fun _ => trivial
  case h_12 late hpc =>
    refine h.take hs (by rw [hpc]; nofun) (by rw [hpc]; nofun) fun _ => ?_
    split_ifs <;> trivial
  case h_13 r hpc =>
    cases hs
    exact h.free hpend (by rw [hpc]; rfl) rfl trivial
  case h_14 k hpc => exact h.waking (v := 0) hgo (Or.inl hpc)
  case h_15 k hpc => exact h.waking (v := 0) hgo (Or.inr (Or.inl hpc))
  case h_16 k hpc => exact h.waking (v := 0) hgo (Or.inr (Or.inr (Or.inl hpc)))
  case h_17 k v hpc => exact h.waking hgo (Or.inr (Or.inr (Or.inr (Or.inl hpc))))
  case h_18 k hpc => exact h.waking (v := 0) hgo (Or.inr (Or.inr (Or.inr (Or.inr hpc))))
  case h_19 => exact absurd hs nofun

theorem go (h : Inv s) (hok : noWrap s (t, .go)) (hs : s.go t = some s') : Inv s' := by
  cases hpc : s.pcs t with
  | wlock k => exact h.waking (v := 0) hs (Or.inl hpc)
  | wunlock k => exact h.waking (v := 0) hs (Or.inr (Or.inl hpc))
  | bump k => exact h.waking (v := 0) hs (Or.inr (Or.inr (Or.inl hpc)))
  | requeue k v => exact h.waking hs (Or.inr (Or.inr (Or.inr (Or.inl hpc))))
  | reload k => exact h.waking (v := 0) hs (Or.inr (Or.inr (Or.inr (Or.inr hpc))))
  | changed =>
    rw [State.go, hpc] at hs
    exact absurd hs nofun
  | _ => exact h.waiting hok hs (by rw [hpc]; rfl)

theorem step [DecidableEq η] (h : Inv s) {a : τ × Act τ η σ} (hok : noWrap s a) (hs : s.step a = some s') : Inv s' := by
  obtain ⟨t, a⟩ := a
  have hwait := h.wait t
  unfold State.step at hs
  simp only at hs
  split at hs
  case h_1 c fast hpc =>
    have hs := Option.some.inj hs
    subst hs
    refine h.own (t := t) rfl rfl rfl (fun i hi => update_of_ne hi _ _) rfl rfl ?_ (by rw [hpc]; rfl) ?_
    · split_ifs <;> exact Or.inl ⟨rfl, nofun⟩
    · split_ifs <;> trivial
  case h_2 x hpc =>
    cases hs
    exact h.change rfl (Or.inl rfl) rfl rfl rfl
  case h_3 x hpc =>
    cases hs
    exact h.change rfl (Or.inl rfl) rfl rfl rfl
  case h_4 hd hpc =>
    cases hs
    exact h.change rfl (Or.inr rfl) rfl rfl rfl
  case h_5 hd hpc =>
    cases hs
    exact h.change rfl (Or.inr rfl) rfl rfl rfl
  case h_6 hpc =>
    cases hs
    exact h.stay (by rw [hpc]; rfl) nofun trivial
  case h_7 hpc =>
    cases hs
    exact h.change rfl (Or.inr rfl) rfl rfl rfl
  case h_8 hpc =>
    cases hs
    exact h.stay (by rw [hpc]; rfl) nofun trivial
  case h_9 => exact h.go hok hs
  case h_10 v n hpc =>
    cases hs
    have hpend : (s.pcs t).pending = false := by rw [hpc]; rfl
    rw [hpc] at hwait
    refine h.stay hpend nofun ⟨?_, hwait.2⟩
    rcases hwait.1 with hwhy | hwhy | hwhy
    · exact Or.inl hwhy
    · exact Or.inr (Or.inl (exists_set (f := Pc.mid) (by rw [hpc]; rfl) hwhy))
    · exact Or.inr (Or.inr hwhy.1)
  case h_11 hpc => cases hs; exact h.stay (by rw [hpc]; rfl) nofun trivial
  case h_12 hpc => cases hs; exact h.stay (by rw [hpc]; rfl) nofun trivial
  case h_13 hpc => cases hs; exact h.stay (by rw [hpc]; rfl) nofun trivial
  case h_14 hpc => cases hs; exact h.stay (by rw [hpc]; rfl) nofun trivial
  case h_15 ws v hpc =>
    split_ifs at hs
    cases hs
    exact (h.move _).stay (by rw [move_awake (by rw [hpc]; rfl), hpc]; rfl) nofun trivial
  case h_16 r hpc => cases hs; exact h.stay (by rw [hpc]; rfl) nofun trivial
  case h_17 => exact absurd hs nofun

end Inv

/-! ## Every run -/

section Runs

variable {s₀ s : State τ η σ}

/-- Nobody waits or wakes; the state, the quit flags and the sequence number are any. -/
structure New (s : State τ η σ) : Prop where
  lock : s.lock = none
  seq : s.seq = BitVec.ofNat 32 s.bumps
  pcs : ∀ t, s.pcs t = .idle

theorem New.inv (h : New s) : Inv s := by
  refine ⟨h.seq, fun t ht => ?_, fun t => ?_⟩
  · rw [h.pcs t] at ht
    exact absurd ht nofun
  · rw [h.pcs t]
    trivial

variable [DecidableEq τ] [DecidableEq η]

/-- **A thread sleeps in `wait_if` although the quit flag is set or its predicate false only while some thread is
between its change and the end of its `broadcast`.** -/
theorem no_lost_wakeup (h₀ : New s₀) {acts : List (τ × Act τ η σ)} (hr : Run State.step noWrap s₀ acts s) {t : τ}
    (hsleep : (s.pcs t).isAsleep = true) (hfalse : s.cond t = false) : ∃ u, (s.pcs u).pending = true := by
  have hinv : Inv s := hr.inv Inv h₀.inv fun _ _ _ h hok hs => h.step hok hs
  have hwait := hinv.wait t
  unfold Pc.isAsleep at hsleep
  split at hsleep
  case h_1 v n hpc =>
    rw [hpc] at hwait
    rcases hwait.1 with hcond | hmid | hpend
    · exact absurd (hfalse.symm.trans hcond) nofun
    · exact hmid.pending
    · exact hpend.2
  case h_2 => exact absurd hsleep nofun

end Runs

/-- Two threads, one handle, and a number as the state. -/
def start : State (Fin 2) Unit Nat := ⟨0, fun _ => false, none, 7, 7, fun _ => ⟨(), .ret false⟩, fun _ => .idle⟩

def isZero : Pred Nat := .load fun x => .ret (x == 0)

/-- Thread 0 sleeps as long as the number is 0, and thread 1 changes it to 1. -/
def sleepActs : List (Fin 2 × Act (Fin 2) Unit Nat) :=
  [(0, .wait ⟨(), isZero⟩ false), (0, .go), (0, .go), (0, .go), (0, .go), (0, .go), (0, .go), (0, .go), (1, .change 1)]

instance (s : State (Fin 2) Unit Nat) (a : Fin 2 × Act (Fin 2) Unit Nat) : Decidable (noWrap s a) := by
  unfold noWrap
  split <;> infer_instance

theorem no_lost_wakeup_change : ∃ s, Run State.step noWrap start sleepActs s ∧ (s.pcs 0).isAsleep = true ∧
    s.cond 0 = false ∧ ∃ u, (s.pcs u).pending = true := by
  refine exists_run_imp (fun s => (s.pcs 0).isAsleep = true ∧ s.cond 0 = false) (by decide +kernel) fun s hrun hx => ?_
  exact ⟨hx.1, hx.2, no_lost_wakeup ⟨rfl, rfl, fun _ => rfl⟩ hrun hx.1 hx.2⟩

end ThothIpc.Futex.Waiter
