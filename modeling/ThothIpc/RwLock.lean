import ThothIpc.Lib.Run
import ThothIpc.Lib.Tally

/-!
# The read-write lock

`rw_lock.rs` and `rw_lock.h`: one word, whose high bit is the writers' and whose other bits count the readers. A writer
sets the high bit, also if it is set already; it has claimed the lock if it was not, and waits the readers out. A reader
increments the word by an exchange while the high bit is clear. `unlock` stores 0.

* `Pc`, `State.step` : the accesses of any number of threads, in Rust or in C++;
* `few` : fewer than 2^31 threads use the lock;
* `Inv` : who has claimed the lock, how many read, and what the word then is;
* `exclusion` : the writers exclude each other and the readers.
-/

namespace ThothIpc.RwLock
open Function Steps

inductive Lang where
  | rust
  | cpp
  deriving DecidableEq, Repr

def wMask : BitVec 32 := 0x7fffffff

def wFlag : BitVec 32 := wMask + 1

/-- Where a thread stands: in `lock` before `fetch_or`, waiting the readers out, or with the lock; in `lock_shared`
before or after the load, or with the lock. -/
inductive Pc where
  | idle
  | claim
  | drain
  | writer
  | load
  | test (old : BitVec 32)
  | reader
  deriving DecidableEq, Repr

/-- The thread has set the flag that was clear, and has not unlocked. -/
def Pc.claimed : Pc → Bool
  | drain => true
  | writer => true
  | _ => false

def Pc.reading : Pc → Bool
  | reader => true
  | _ => false

/-- The thread uses the lock. -/
def Pc.active : Pc → Bool
  | idle => false
  | _ => true

structure State (τ : Type) where
  lc : BitVec 32
  pcs : τ → Pc

/-- A call, the next access, or a weak exchange that fails for no reason. -/
inductive Act where
  | lock
  | unlock
  | lockShared
  | unlockShared
  | go
  | fail
  deriving DecidableEq, Repr

variable {τ : Type}

def State.start : State τ := ⟨0, fun _ => .idle⟩

section Step

variable [DecidableEq τ]

def State.set (s : State τ) (t : τ) (pc : Pc) : State τ := { s with pcs := update s.pcs t pc }

/-- After an exchange that has failed: Rust loads the word again, in C++ the exchange has loaded it. -/
def State.retry (lang : Lang) (s : State τ) : Pc :=
  match lang with
  | .rust => .load
  | .cpp => .test s.lc

def State.go (lang : Lang) (s : State τ) (t : τ) : Option (State τ) :=
  match s.pcs t with
  | .claim =>
    let pc := if s.lc = 0 then .writer else if s.lc &&& wFlag = 0 then .drain else .claim
    some { s.set t pc with lc := s.lc ||| wFlag }
  | .drain => some (s.set t (if s.lc &&& wMask = 0 then .writer else .drain))
  | .load => some (s.set t (.test s.lc))
  | .test old =>
    if old &&& wFlag = 0 then
      if s.lc = old then some { s.set t .reader with lc := old + 1 } else some (s.set t (s.retry lang))
    else some (s.set t (.test s.lc))
  | _ => none

def State.step (lang : Lang) (s : State τ) (a : τ × Act) : Option (State τ) :=
  let t := a.1
  match a.2, s.pcs t with
  | .lock, .idle => some (s.set t .claim)
  | .unlock, .writer => some { s.set t .idle with lc := 0 }
  | .lockShared, .idle => some (s.set t .load)
  | .unlockShared, .reader => some { s.set t .idle with lc := s.lc - 1 }
  | .go, _ => s.go lang t
  | .fail, .test old => if old &&& wFlag = 0 then some (s.set t (s.retry lang)) else none
  | _, _ => none

end Step

/-- Fewer than 2^31 threads use the lock. -/
def few (s : State τ) (_ : τ × Act) : Prop := ∃ n < 2 ^ 31, Tally (fun t => (s.pcs t).active) n

/-! ## The word -/

theorem and_wFlag (lc : BitVec 32) : lc &&& wFlag = 0 ↔ lc.toNat < 2 ^ 31 := by
  have hflag : wFlag = BitVec.twoPow 32 31 := by decide
  have hbit : lc.getLsbD 31 = decide (2 ^ 31 ≤ lc.toNat) := BitVec.msb_eq_decide lc
  rw [hflag, BitVec.and_twoPow, hbit]
  by_cases h : 2 ^ 31 ≤ lc.toNat
  · rw [decide_eq_true h, if_pos rfl]
    exact ⟨fun hc => absurd hc (by decide), fun hlt => absurd h (by omega)⟩
  · rw [decide_eq_false h, if_neg Bool.false_ne_true]
    exact ⟨fun _ => by omega, fun _ => rfl⟩

theorem and_wMask (lc : BitVec 32) : (lc &&& wMask).toNat = lc.toNat % 2 ^ 31 := by
  rw [BitVec.toNat_and]
  exact Nat.and_two_pow_sub_one_eq_mod lc.toNat 31

theorem or_wFlag (lc : BitVec 32) : (lc ||| wFlag).toNat = lc.toNat % 2 ^ 31 + 2 ^ 31 := by
  have hr : lc.toNat % 2 ^ 31 < 2 ^ 31 := Nat.mod_lt _ (by decide)
  have hor := Nat.two_pow_add_eq_or_of_lt hr 1
  have hflag : wFlag.toNat = 2 ^ 31 := by decide
  rw [Nat.mul_one] at hor
  rw [BitVec.toNat_or, hflag, Nat.or_comm]
  by_cases h : lc.toNat < 2 ^ 31
  · rw [Nat.mod_eq_of_lt h] at hor ⊢
    rw [← hor, Nat.add_comm]
  · have hlc : lc.toNat = 2 ^ 31 ||| lc.toNat % 2 ^ 31 := by
      rw [← hor]
      have := lc.isLt
      omega
    rw [hlc, ← Nat.or_assoc, Nat.or_self, ← hlc, Nat.add_comm, hor, ← hlc]

/-! ## The invariant -/

/-- `o` is the thread that has claimed the lock, and `r` threads read. -/
structure Inv (s : State τ) (o : Option τ) (r : Nat) : Prop where
  readers : Tally (fun t => (s.pcs t).reading) r
  bound : r < 2 ^ 31
  word : s.lc.toNat = r + if o.isSome then 2 ^ 31 else 0
  owner : ∀ t, (s.pcs t).claimed = true ↔ o = some t
  writer : ∀ t, s.pcs t = .writer → r = 0

namespace Inv

variable {s s' : State τ} {o : Option τ} {r : Nat} {t : τ} {lang : Lang}

theorem start : Inv (State.start : State τ) none 0 where
  readers := tally_none fun _ => rfl
  bound := by decide
  word := rfl
  owner t := ⟨fun h => (by cases h), fun h => (by cases h)⟩
  writer t h := by cases h

theorem flag_iff (h : Inv s o r) : s.lc &&& wFlag = 0 ↔ o = none := by
  have hw := h.word
  have hr := h.bound
  rw [and_wFlag]
  cases o with
  | none =>
    rw [hw]
    exact ⟨fun _ => rfl, fun _ => by simpa using hr⟩
  | some t =>
    simp only [Option.isSome_some, if_true] at hw
    exact ⟨fun hlt => by omega, fun hc => by cases hc⟩

theorem masked (h : Inv s o r) : (s.lc &&& wMask).toNat = r := by
  have hr := h.bound
  rw [and_wMask, h.word]
  split <;> omega

variable [DecidableEq τ]

theorem move (h : Inv s o r) {pc : Pc} (hc : pc.claimed = (s.pcs t).claimed) (hr : pc.reading = (s.pcs t).reading)
    (hw : pc = .writer → r = 0) : Inv (s.set t pc) o r where
  readers := h.readers.congr fun u => view_update (F := Pc.reading) hr u
  bound := h.bound
  word := h.word
  owner u := by
    rw [← h.owner u]
    exact Eq.congr_left (view_update (F := Pc.claimed) hc u)
  writer u hu := by
    obtain ⟨-, hu⟩ | ⟨-, hu⟩ := update_cases (P := (· = Pc.writer)) hu
    · exact hw hu
    · exact h.writer u hu

theorem claim (h : Inv s none r) {pc : Pc} (hpc : s.pcs t = .claim) (hc : pc.claimed = true)
    (hw : pc = .writer → r = 0) : Inv { s.set t pc with lc := s.lc ||| wFlag } (some t) r where
  readers := h.readers.congr fun u => view_update (F := Pc.reading)
    (by rw [hpc]; cases pc <;> first | rfl | cases hc) u
  bound := h.bound
  word := by
    have hm := h.masked
    rw [and_wMask] at hm
    change (s.lc ||| wFlag).toNat = _
    rw [or_wFlag, hm]
    rfl
  owner u := by
    change (update s.pcs t pc u).claimed = true ↔ _
    by_cases hu : u = t
    · subst hu
      simp only [update_self, hc]
    · rw [update_of_ne hu, h.owner u]
      exact ⟨fun hx => (by cases hx), fun hx => absurd (Option.some.inj hx).symm hu⟩
  writer u hu := by
    obtain ⟨-, hu⟩ | ⟨-, hu⟩ := update_cases (P := (· = Pc.writer)) hu
    · exact hw hu
    · exact h.writer u hu

theorem claimAgain {x : τ} (h : Inv s (some x) r) (hpc : s.pcs t = .claim) :
    Inv { s.set t .claim with lc := s.lc ||| wFlag } (some x) r := by
  have hm := h.masked
  rw [and_wMask] at hm
  have hmove : Inv (s.set t .claim) (some x) r := h.move (by rw [hpc]) (by rw [hpc]) (fun hx => by cases hx)
  refine ⟨hmove.readers, h.bound, ?_, hmove.owner, hmove.writer⟩
  change (s.lc ||| wFlag).toNat = _
  rw [or_wFlag, hm]
  rfl

theorem read (h : Inv s none r) {a : τ × Act} (hf : few s a) {old : BitVec 32} (hpc : s.pcs t = .test old) :
    Inv { s.set t .reader with lc := s.lc + 1 } none (r + 1) := by
  have hreads : Tally (fun u => (update s.pcs t Pc.reader u).reading) (r + 1) := by
    refine h.readers.enter (by rw [hpc]; rfl) (by rw [update_self]; rfl) fun u hu => ?_
    rw [update_of_ne hu]
  -- the new reader is one of the threads that use the lock
  have hbound : r + 1 < 2 ^ 31 := by
    obtain ⟨n, hn, hact⟩ := hf
    obtain ⟨m, hm, hsub⟩ := hact.sub (q := fun u => (update s.pcs t Pc.reader u).reading) fun u hu => by
      obtain ⟨rfl, -⟩ | ⟨-, hu⟩ := update_cases (P := (Pc.reading · = true)) hu
      · rw [hpc]
        rfl
      · generalize s.pcs u = pc at hu ⊢
        cases pc <;> first | rfl | cases hu
    rw [← hreads.ncard, hsub.ncard]
    omega
  have hw := h.word
  simp only [Option.isSome_none, Bool.false_eq_true, if_false, Nat.add_zero] at hw
  have hmove : ∀ pc : Pc, pc = .reader → pc.claimed = (s.pcs t).claimed := by
    rintro _ rfl
    rw [hpc]
    rfl
  refine ⟨hreads, hbound, ?_, fun u => ?_, fun u hu => ?_⟩
  · change (s.lc + 1).toNat = _
    rw [BitVec.toNat_add, hw]
    exact Nat.mod_eq_of_lt (lt_trans hbound (by decide))
  · rw [← h.owner u]
    exact Eq.congr_left (view_update (F := Pc.claimed) (hmove _ rfl) u)
  · obtain ⟨-, hu⟩ | ⟨-, hu⟩ := update_cases (P := (· = Pc.writer)) hu
    · cases hu
    · have howner := (h.owner u).mp (by rw [hu]; rfl)
      cases howner

theorem unread (h : Inv s o r) (hpc : s.pcs t = .reader) :
    ∃ r', Inv { s.set t .idle with lc := s.lc - 1 } o r' := by
  obtain ⟨m, rfl, hm⟩ := h.readers.leave (q := fun u => (update s.pcs t Pc.idle u).reading)
    (by rw [hpc]; rfl) (by rw [update_self]; rfl) fun u hu => by rw [update_of_ne hu]
  have hbound := h.bound
  refine ⟨m, hm, by omega, ?_, fun u => ?_, fun u hu => ?_⟩
  · have hw := h.word
    change (s.lc - 1).toNat = _
    have hone : (1 : BitVec 32).toNat = 1 := rfl
    rw [BitVec.toNat_sub_of_le (by rw [BitVec.le_def, hw, hone]; omega), hw, hone]
    omega
  · rw [← h.owner u]
    exact Eq.congr_left (view_update (F := Pc.claimed) (by rw [hpc]; rfl) u)
  · obtain ⟨-, hu⟩ | ⟨-, hu⟩ := update_cases (P := (· = Pc.writer)) hu
    · cases hu
    · cases h.writer u hu

omit [DecidableEq τ] in
/-- Whoever holds the lock for writing has claimed it, and nobody reads. -/
theorem at_unlock (h : Inv s o r) (hpc : s.pcs t = .writer) : o = some t ∧ r = 0 ∧ s.lc = wFlag := by
  have ho : o = some t := (h.owner t).mp (by rw [hpc]; rfl)
  have hr : r = 0 := h.writer t hpc
  subst ho hr
  have hflag : wFlag.toNat = 2 ^ 31 := by decide
  refine ⟨rfl, rfl, BitVec.eq_of_toNat_eq ?_⟩
  rw [h.word, hflag, Nat.zero_add, Option.isSome_some, if_pos rfl]

theorem unlock (h : Inv s o r) (hpc : s.pcs t = .writer) : Inv { s.set t .idle with lc := 0 } none 0 := by
  obtain ⟨rfl, rfl, -⟩ := h.at_unlock hpc
  refine ⟨h.readers.congr fun u => view_update (F := Pc.reading) (by rw [hpc]; rfl) u, by decide, rfl,
    fun u => ⟨fun hu => ?_, fun hx => by cases hx⟩, fun _ _ => rfl⟩
  obtain ⟨-, hu⟩ | ⟨hne, hu⟩ := update_cases (P := (Pc.claimed · = true)) hu
  · cases hu
  · exact absurd (Option.some.inj ((h.owner u).mp hu)).symm hne

theorem retry (h : Inv s o r) {old : BitVec 32} (hpc : s.pcs t = .test old) : Inv (s.set t (s.retry lang)) o r := by
  cases lang
  all_goals exact h.move (by rw [hpc]; rfl) (by rw [hpc]; rfl) (fun hx => by cases hx)

theorem go (h : Inv s o r) {a : τ × Act} (hf : few s a) (hs : s.go lang t = some s') : ∃ o' r', Inv s' o' r' := by
  unfold State.go at hs
  split at hs
  · rename_i hpc
    cases hs
    cases o with
    | none =>
      rw [if_pos (h.flag_iff.mpr rfl)]
      refine ⟨some t, r, h.claim hpc (by split <;> rfl) fun hx => ?_⟩
      split at hx
      · have hw := h.word
        rename_i h0
        rw [h0] at hw
        simpa using hw.symm
      · cases hx
    | some x =>
      have hset : ¬ s.lc &&& wFlag = 0 := fun hc => by cases h.flag_iff.mp hc
      have h0 : ¬ s.lc = 0 := fun hc => hset (by rw [hc]; rfl)
      rw [if_neg h0, if_neg hset]
      exact ⟨some x, r, h.claimAgain hpc⟩
  · rename_i hpc
    cases hs
    refine ⟨o, r, h.move ?_ ?_ fun hx => ?_⟩
    · rw [hpc]
      split <;> rfl
    · rw [hpc]
      split <;> rfl
    · split at hx
      · have hm := h.masked
        rename_i h0
        rw [h0] at hm
        exact hm.symm
      · cases hx
  · rename_i hpc
    cases hs
    exact ⟨o, r, h.move (by rw [hpc]; rfl) (by rw [hpc]; rfl) (fun hx => by cases hx)⟩
  · rename_i old hpc
    split at hs
    · rename_i hold
      split at hs
      · rename_i heq
        cases hs
        rw [← heq] at hold ⊢
        obtain rfl := h.flag_iff.mp hold
        exact ⟨none, r + 1, h.read hf hpc⟩
      · cases hs
        exact ⟨o, r, h.retry hpc⟩
    · cases hs
      exact ⟨o, r, h.move (by rw [hpc]; rfl) (by rw [hpc]; rfl) (fun hx => by cases hx)⟩
  · cases hs

theorem step (h : Inv s o r) {a : τ × Act} (hf : few s a) (hs : s.step lang a = some s') : ∃ o' r', Inv s' o' r' := by
  simp only [State.step] at hs
  split at hs
  · rename_i hpc
    cases hs
    exact ⟨o, r, h.move (by rw [hpc]; rfl) (by rw [hpc]; rfl) (fun hx => by cases hx)⟩
  · rename_i hpc
    cases hs
    exact ⟨none, 0, h.unlock hpc⟩
  · rename_i hpc
    cases hs
    exact ⟨o, r, h.move (by rw [hpc]; rfl) (by rw [hpc]; rfl) (fun hx => by cases hx)⟩
  · rename_i hpc
    cases hs
    obtain ⟨r', hr⟩ := h.unread hpc
    exact ⟨o, r', hr⟩
  · exact h.go hf hs
  · rename_i hpc
    split at hs
    · cases hs
      exact ⟨o, r, h.retry hpc⟩
    · cases hs
  · cases hs

end Inv

variable [DecidableEq τ] {lang : Lang} {s : State τ} {as : List (τ × Act)}

/-- **The read-write lock excludes.** Nobody else is inside while a thread writes; the low 31 bits count the readers;
the flag is set while a thread writes or waits readers out; when `unlock` stores 0, the word is the bare flag. -/
theorem exclusion (h : Run (State.step lang) few (State.start : State τ) as s) :
    (∀ t u, s.pcs t = .writer → u ≠ t → s.pcs u ≠ .writer ∧ s.pcs u ≠ .reader) ∧
    Tally (fun t => decide (s.pcs t = .reader)) (s.lc &&& wMask).toNat ∧
    (∀ t, s.pcs t = .writer ∨ s.pcs t = .drain → s.lc &&& wFlag ≠ 0) ∧
    ∀ t s', s.step lang (t, .unlock) = some s' →
      s.lc = wFlag ∧ ∀ u, u ≠ t → s.pcs u ≠ .writer ∧ s.pcs u ≠ .drain ∧ s.pcs u ≠ .reader := by
  obtain ⟨o, r, hinv⟩ := h.inv (fun s => ∃ o r, Inv s o r) ⟨none, 0, Inv.start⟩
    fun _ _ _ ⟨_, _, hi⟩ hf hs => hi.step hf hs
  have hclaim : ∀ t, s.pcs t = .writer ∨ s.pcs t = .drain → o = some t := by
    rintro t (ht | ht)
    all_goals exact (hinv.owner t).mp (by rw [ht]; rfl)
  have hreader : ∀ t u, s.pcs t = .writer → s.pcs u ≠ .reader := by
    intro t u ht hu
    have hread := (hinv.writer t ht ▸ hinv.readers).eq_false u
    simp only [hu] at hread
    cases hread
  have hother : ∀ t u, s.pcs t = .writer → u ≠ t → s.pcs u ≠ .writer ∧ s.pcs u ≠ .drain ∧ s.pcs u ≠ .reader := by
    intro t u ht hne
    have hne' : ¬ (s.pcs u = .writer ∨ s.pcs u = .drain) := fun hu =>
      hne (Option.some.inj ((hclaim u hu).symm.trans (hclaim t (Or.inl ht))))
    exact ⟨fun hu => hne' (Or.inl hu), fun hu => hne' (Or.inr hu), hreader t u ht⟩
  refine ⟨fun t u ht hne => ⟨(hother t u ht hne).1, hreader t u ht⟩, ?_, fun t ht hc => ?_, fun t s' hs => ?_⟩
  · rw [hinv.masked]
    refine hinv.readers.congr fun t => ?_
    generalize s.pcs t = pc
    cases pc <;> rfl
  · cases (hinv.flag_iff.mp hc).symm.trans (hclaim t ht)
  · have hpc : s.pcs t = .writer := by
      simp only [State.step] at hs
      generalize s.pcs t = pc at hs ⊢
      cases pc <;> first | rfl | cases hs
    exact ⟨(hinv.at_unlock hpc).2.2, fun u hu => hother t u hpc hu⟩

theorem exclusion_three : ∃ (as : List (Fin 3 × Act)) (s : State (Fin 3)),
    Run (State.step .cpp) few State.start as s ∧ (s.lc &&& wMask).toNat = 1 ∧ s.pcs 1 = .drain ∧
      s.lc &&& wFlag ≠ 0 := by
  have hfew : ∀ (s : State (Fin 3)) a, True → few s a := fun s a _ =>
    ⟨_, lt_of_le_of_lt (Finset.card_le_univ _) (by decide),
      Finset.univ.filter fun t => (s.pcs t).active = true, fun t => by simp, rfl⟩
  obtain ⟨s, hrun, hpc, hread⟩ : ∃ s, Run (State.step .cpp) (fun _ _ => True) (State.start : State (Fin 3))
      [(0, .lockShared), (0, .go), (0, .fail), (0, .go), (1, .lock), (1, .go), (1, .go), (2, .lock), (2, .go)] s ∧
      s.pcs 1 = .drain ∧ (s.lc &&& wMask).toNat = 1 := exists_run_of (by decide)
  exact ⟨_, s, hrun.mono hfew, hread, hpc, (exclusion (hrun.mono hfew)).2.2.1 1 (Or.inr hpc)⟩

end ThothIpc.RwLock
