import ThothIpc.Shm.Model

/-!
# Opening and dropping at the same time

Any number of threads acquire and drop handles of one name, with every system call and every counter update a step of
its own. Between the counter's decrement to 0 and `shm_unlink` the name is still bound, and between `shm_open` and the
counter's increment a handle is not counted.

* `Pc`, `State.step` : the steps of `acquire(CreateOrOpen)` and of a drop;
* `orderly` : nobody opens the object while a last drop has still to unlink it, and no drop is the last while an opened
  object has still to be counted;
* `never_split` : under `orderly` all live handles map the object that the name is bound to.
-/

namespace ThothIpc.Shm.Split
open Function Steps

/-- Where a thread stands: before the two `shm_open`s, with an opened object to size, wait for, map or count, with a
live handle, or in a drop. -/
inductive Pc where
  | idle
  | openExcl (total : Nat)
  | openOld (total : Nat)
  | truncate (o total : Nat)
  | wait (o total : Nat)
  | late (o total : Nat)
  | recover (o total : Nat)
  | map (o total : Nat)
  | count (o total : Nat)
  | live (o total : Nat)
  | unmap (prev : BitVec 32)
  | unlink
  deriving DecidableEq, Repr

namespace Pc

def obj : Pc → Option Nat
  | truncate o _ | wait o _ | late o _ | recover o _ | map o _ | count o _ | live o _ => some o
  | _ => none

/-- The size of the mapping that is, or is to be. -/
def total : Pc → Option Nat
  | openExcl n | openOld n => some n
  | truncate _ n | wait _ n | late _ n | recover _ n | map _ n | count _ n | live _ n => some n
  | _ => none

/-- The counter has said that this was the last handle, and the name is not yet unlinked. -/
def pending : Pc → Bool
  | unmap prev => prev.sle 1
  | unlink => true
  | _ => false

def isLive : Pc → Bool
  | live _ _ => true
  | _ => false

theorem isLive_iff {pc : Pc} : pc.isLive = true ↔ ∃ o n, pc = live o n := by
  cases pc <;> simp [isLive]

end Pc

structure State (τ : Type) where
  store : Store
  pcs : τ → Pc

inductive Act where
  | acquire (userSize : Nat)
  | drop
  | go
  | fail
  | timeout
  deriving DecidableEq, Repr

variable {τ : Type}

section Step

variable [DecidableEq τ]

def State.set (s : State τ) (t : τ) (pc : Pc) : State τ := { s with pcs := update s.pcs t pc }

/-- `ftruncate_to_size`, and what follows. -/
def State.size (P : Platform) (s : State τ) (t : τ) (o total : Nat) : State τ :=
  match s.store.ftruncateToSize P o total none with
  | .ok st => { s.set t (.map o total) with store := st }
  | .error _ => s.set t .idle

def State.go (P : Platform) (s : State τ) (t : τ) : Option (State τ) :=
  match s.pcs t with
  | .idle => none
  | .openExcl n =>
    match s.store.openExcl with
    | .ok (st, o) => some { s.set t (.truncate o n) with store := st }
    | .error .eexist => some (s.set t (.openOld n))
    | .error _ => some (s.set t .idle)
  | .openOld n =>
    match s.store.openOld with
    | .ok o => some (s.set t (.wait o n))
    | .error _ => some (s.set t .idle)
  | .truncate o n => some (s.size P t o n)
  | .wait o n => some (s.set t (if n ≤ (s.store.obj o).size then .map o n else .late o n))
  | .late o n => some (s.set t (.wait o n))
  | .recover o n => some (s.size P t o n)
  | .map o n => some (s.set t (if n = 0 then .idle else .count o n))
  | .count o n =>
    -- an access outside the object would end the process
    if s.store.outside P o n then none
    else some { s.set t (.live o n) with store := s.store.fetchAdd o (accOf n) 1 }
  | .live _ _ => none
  | .unmap prev => some (s.set t (if prev.sle 1 then .unlink else .idle))
  | .unlink => some { s.set t .idle with store := s.store.unlink }

def State.step (P : Platform) (s : State τ) (a : τ × Act) : Option (State τ) :=
  let t := a.1
  match a.2, s.pcs t with
  | .acquire userSize, .idle => if userSize = 0 then some s else some (s.set t (.openExcl (calcSize userSize)))
  | .drop, .live o n =>
    some { s.set t (.unmap (s.store.word o (accOf n))) with store := s.store.fetchAdd o (accOf n) (-1) }
  | .go, _ => s.go P t
  | .fail, .openExcl _ => some (s.set t .idle)
  | .fail, .openOld _ => some (s.set t .idle)
  | .fail, .truncate _ _ => some (s.set t .idle)
  | .fail, .recover _ _ => some (s.set t .idle)
  | .fail, .map _ _ => some (s.set t .idle)
  | .timeout, .late o n => some (s.set t (.recover o n))
  | _, _ => none

end Step

/-- All acquire with one size; nobody opens the object while a drop has still to unlink the name; no drop is the last
while an opened object is not counted; and the counter does not overflow. -/
def orderly (s : State τ) (a : τ × Act) : Prop :=
  match a.2, s.pcs a.1 with
  | .acquire userSize, .idle => userSize ≠ 0 → ∀ t n, (s.pcs t).total = some n → n = calcSize userSize
  | .go, .openOld _ => ∀ t, (s.pcs t).pending = false
  | .drop, .live o n => (s.store.word o (accOf n)).sle 1 → ∀ t, (s.pcs t).obj ≠ none → (s.pcs t).isLive
  | .go, .count o n => s.store.word o (accOf n) ≠ 0x7fffffff
  | _, _ => True

/-! ## The steps -/

/-- A thread goes on, or gives up: neither before nor after it has a live handle. -/
structure Pc.Passes (pc pc' : Pc) : Prop where
  obj : pc'.obj = none ∨ pc'.obj = pc.obj
  pending : pc'.pending = pc.pending
  before : pc.isLive = false
  after : pc'.isLive = false
  sized : ∀ o n, pc' = .count o n → 0 < n

theorem Pc.Passes.giveUp {pc : Pc} (hp : pc.pending = false) (hl : pc.isLive = false) : pc.Passes .idle :=
  ⟨Or.inl rfl, hp.symm, hl, rfl, nofun⟩

inductive Does [DecidableEq τ] (P : Platform) (s : State τ) (t : τ) : State τ → Prop
  | pass (pc : Pc) (hpc : (s.pcs t).Passes pc) (hn : pc.total = none ∨ pc.total = (s.pcs t).total) :
      Does P s t (s.set t pc)
  | start (n : Nat) (hpc : s.pcs t = .idle) (hn : ∀ i k, (s.pcs i).total = some k → k = n) :
      Does P s t (s.set t (.openExcl n))
  | none : Does P s t s
  | create (n o : Nat) (st : Store) (hpc : s.pcs t = .openExcl n) (hst : s.store.openExcl = .ok (st, o)) :
      Does P s t { s.set t (.truncate o n) with store := st }
  | «open» (n o : Nat) (hpc : s.pcs t = .openOld n) (hst : s.store.name = some o) (hp : ∀ i, (s.pcs i).pending = false) :
      Does P s t (s.set t (.wait o n))
  | size (n o : Nat) (st : Store) (hpc : s.pcs t = .truncate o n ∨ s.pcs t = .recover o n)
      (hst : s.store.ftruncateToSize P o n .none = .ok st) : Does P s t { s.set t (.map o n) with store := st }
  | count (n o : Nat) (hpc : s.pcs t = .count o n) (hmax : s.store.word o (accOf n) ≠ 0x7fffffff) :
      Does P s t { s.set t (.live o n) with store := s.store.fetchAdd o (accOf n) 1 }
  | drop (n o : Nat) (hpc : s.pcs t = .live o n)
      (hl : (s.store.word o (accOf n)).sle 1 → ∀ i, (s.pcs i).obj ≠ .none → (s.pcs i).isLive) :
      Does P s t { s.set t (.unmap (s.store.word o (accOf n))) with store := s.store.fetchAdd o (accOf n) (-1) }
  | unlink (hpc : s.pcs t = .unlink) : Does P s t { s.set t .idle with store := s.store.unlink }

section Steps

variable [DecidableEq τ] {P : Platform} {s s' : State τ} {t : τ}

theorem does_of_size {n o : Nat} (hpc : s.pcs t = .truncate o n ∨ s.pcs t = .recover o n) (h : s.size P t o n = s') :
    Does P s t s' := by
  unfold State.size at h
  split at h
  case h_1 st hst =>
    subst h
    exact .size n o st hpc hst
  case h_2 =>
    subst h
    rcases hpc with hpc | hpc
    · exact .pass .idle (by rw [hpc]; exact .giveUp rfl rfl) (Or.inl rfl)
    · exact .pass .idle (by rw [hpc]; exact .giveUp rfl rfl) (Or.inl rfl)

theorem does_of_go (h : s.go P t = some s') (hok : orderly s (t, .go)) : Does P s t s' := by
  unfold State.go at h
  unfold orderly at hok
  dsimp only at hok
  split at h
  case h_1 => exact absurd h nofun
  case h_2 n hpc =>
    split at h
    case h_1 st o hst =>
      obtain rfl := Option.some.inj h
      exact .create n o st hpc hst
    case h_2 =>
      obtain rfl := Option.some.inj h
      exact .pass (.openOld n) (by rw [hpc]; exact ⟨Or.inl rfl, rfl, rfl, rfl, nofun⟩) (Or.inr (by rw [hpc]; rfl))
    case h_3 =>
      obtain rfl := Option.some.inj h
      exact .pass .idle (by rw [hpc]; exact .giveUp rfl rfl) (Or.inl rfl)
  case h_3 n hpc =>
    rw [hpc] at hok
    split at h
    case h_1 o ho =>
      obtain rfl := Option.some.inj h
      exact .open n o hpc (openOld_spec ho) hok
    case h_2 =>
      obtain rfl := Option.some.inj h
      exact .pass .idle (by rw [hpc]; exact .giveUp rfl rfl) (Or.inl rfl)
  case h_4 o n hpc => exact does_of_size (Or.inl hpc) (Option.some.inj h)
  case h_5 o n hpc =>
    obtain rfl := Option.some.inj h
    split_ifs
    · exact .pass (.map o n) (by rw [hpc]; exact ⟨Or.inr rfl, rfl, rfl, rfl, nofun⟩) (Or.inr (by rw [hpc]; rfl))
    · exact .pass (.late o n) (by rw [hpc]; exact ⟨Or.inr rfl, rfl, rfl, rfl, nofun⟩) (Or.inr (by rw [hpc]; rfl))
  case h_6 o n hpc =>
    obtain rfl := Option.some.inj h
    exact .pass (.wait o n) (by rw [hpc]; exact ⟨Or.inr rfl, rfl, rfl, rfl, nofun⟩) (Or.inr (by rw [hpc]; rfl))
  case h_7 o n hpc => exact does_of_size (Or.inr hpc) (Option.some.inj h)
  case h_8 o n hpc =>
    obtain rfl := Option.some.inj h
    split_ifs with hn
    · exact .pass .idle (by rw [hpc]; exact .giveUp rfl rfl) (Or.inl rfl)
    · refine .pass (.count o n) ?_ (Or.inr (by rw [hpc]; rfl))
      rw [hpc]
      refine ⟨Or.inr rfl, rfl, rfl, rfl, fun o' n' he => ?_⟩
      obtain ⟨-, rfl⟩ := Pc.count.inj he
      exact Nat.pos_of_ne_zero hn
  case h_9 o n hpc =>
    rw [hpc] at hok
    split_ifs at h
    obtain rfl := Option.some.inj h
    exact .count n o hpc hok
  case h_10 => exact absurd h nofun
  case h_11 prev hpc =>
    obtain rfl := Option.some.inj h
    split_ifs with hprev
    · exact .pass .unlink (by rw [hpc]; exact ⟨Or.inl rfl, hprev.symm, rfl, rfl, nofun⟩) (Or.inl rfl)
    · exact .pass .idle (by rw [hpc]; exact .giveUp (Bool.eq_false_iff.mpr hprev) rfl) (Or.inl rfl)
  case h_12 hpc =>
    obtain rfl := Option.some.inj h
    exact .unlink hpc

theorem does_of_step {a : Act} (h : s.step P (t, a) = some s') (hok : orderly s (t, a)) : Does P s t s' := by
  unfold State.step at h
  dsimp only at h
  split at h
  case h_1 n hpc =>
    simp only [orderly, hpc] at hok
    split_ifs at h with hn
    · obtain rfl := Option.some.inj h
      exact .none
    · obtain rfl := Option.some.inj h
      exact .start (calcSize n) hpc (hok hn)
  case h_2 o n hpc =>
    simp only [orderly, hpc] at hok
    obtain rfl := Option.some.inj h
    exact .drop n o hpc hok
  case h_3 => exact does_of_go h hok
  case h_9 o n hpc =>
    obtain rfl := Option.some.inj h
    exact .pass (.recover o n) (by rw [hpc]; exact ⟨Or.inr rfl, rfl, rfl, rfl, nofun⟩) (Or.inr (by rw [hpc]; rfl))
  case h_10 => exact absurd h nofun
  -- a system call has failed
  all_goals
    rename_i hpc
    obtain rfl := Option.some.inj h
    exact .pass .idle (by rw [hpc]; exact .giveUp rfl rfl) (Or.inl rfl)

end Steps

/-! ## The invariant -/

/-- Whoever has an object has the one that the name is bound to, and all have one size; after a last drop's decrement
nobody has one, and the name is bound until it is unlinked; the counter is the number of live handles. -/
structure Inv (s : State τ) : Prop where
  bound : ∀ t o, (s.pcs t).obj = some o → s.store.name = some o
  level : ∀ t t' n n', (s.pcs t).total = some n → (s.pcs t').total = some n' → n = n'
  sized : ∀ t o n, s.pcs t = .live o n ∨ s.pcs t = .count o n → 0 < n
  pend : ∀ t, (s.pcs t).pending = true → s.store.name ≠ none ∧ ∀ t', (s.pcs t').obj = none
  pendOne : ∀ t t', (s.pcs t).pending = true → (s.pcs t').pending = true → t = t'
  count : ∃ L : Finset τ, (∀ t, t ∈ L ↔ (s.pcs t).isLive = true) ∧ L.card < 2 ^ 31 ∧
    ∀ t o n, s.pcs t = .live o n → s.store.word o (accOf n) = BitVec.ofNat 32 L.card
  blank : ∀ o, s.store.name = some o → ∀ j, (∀ t p n, s.pcs t = .live p n → j ≠ accOf n) → s.store.word o j = 0

namespace Inv

variable {s : State τ} {st : Store}

theorem counter (h : Inv s) {o n : Nat} (ho : s.store.name = some o) (hn : ∀ t p k, s.pcs t = .live p k → k = n) :
    ∃ L : Finset τ, (∀ t, t ∈ L ↔ (s.pcs t).isLive = true) ∧ L.card < 2 ^ 31 ∧
      s.store.word o (accOf n) = BitVec.ofNat 32 L.card := by
  obtain ⟨L, hL, hc, hw⟩ := h.count
  refine ⟨L, hL, hc, ?_⟩
  rcases L.eq_empty_or_nonempty with rfl | ⟨t, ht⟩
  · refine h.blank o ho _ fun t p k ht => ?_
    exact absurd ((hL t).mpr (by rw [ht]; rfl)) (Finset.notMem_empty t)
  · obtain ⟨p, k, hpc⟩ := Pc.isLive_iff.mp ((hL t).mp ht)
    have hp : p = o := Option.some.inj ((h.bound t p (by rw [hpc]; rfl)).symm.trans ho)
    rw [← hn t p k hpc, ← hp]
    exact hw t p k hpc

variable [DecidableEq τ]

theorem pcs_cases {p : Pc → Prop} {t i : τ} {pc : Pc} (h : p (update s.pcs t pc i)) :
    (i = t ∧ p pc) ∨ (i ≠ t ∧ p (s.pcs i)) := by
  rw [update_apply] at h
  split_ifs at h with hi
  · exact Or.inl ⟨hi, h⟩
  · exact Or.inr ⟨hi, h⟩

theorem level_set (h : Inv s) {t : τ} {pc : Pc} (hn : ∀ k, pc.total = some k → ∀ i n, (s.pcs i).total = some n → n = k)
    (i j : τ) (n n' : Nat) (hi : (update s.pcs t pc i).total = some n)
    (hj : (update s.pcs t pc j).total = some n') : n = n' := by
  rcases pcs_cases (p := fun pc => pc.total = some n) hi with ⟨-, hi⟩ | ⟨-, hi⟩
  · rcases pcs_cases (p := fun pc => pc.total = some n') hj with ⟨-, hj⟩ | ⟨-, hj⟩
    · exact Option.some.inj (hi.symm.trans hj)
    · exact (hn n hi j n' hj).symm
  · rcases pcs_cases (p := fun pc => pc.total = some n') hj with ⟨-, hj⟩ | ⟨-, hj⟩
    · exact hn n' hj i n hi
    · exact h.level i j n n' hi hj

theorem sized_set (h : Inv s) {t : τ} {pc : Pc} (hpc : ∀ o n, pc = .live o n ∨ pc = .count o n → 0 < n) (i : τ)
    (o n : Nat) (hi : update s.pcs t pc i = .live o n ∨ update s.pcs t pc i = .count o n) : 0 < n := by
  rcases pcs_cases (p := fun pc => pc = .live o n ∨ pc = .count o n) hi with ⟨-, hi⟩ | ⟨-, hi⟩
  · exact hpc o n hi
  · exact h.sized i o n hi

theorem pass (h : Inv s) {t : τ} {pc : Pc} (hs : s.store.Same st) (hpc : (s.pcs t).Passes pc)
    (hn : ∀ k, pc.total = some k → ∀ i n, (s.pcs i).total = some n → n = k) : Inv { s.set t pc with store := st } := by
  have hobj : ∀ i o, (update s.pcs t pc i).obj = some o → ∃ k, (s.pcs k).obj = some o := by
    intro i o hi
    rcases pcs_cases (p := fun pc => pc.obj = some o) hi with ⟨-, hi⟩ | ⟨-, hi⟩
    · rcases hpc.obj with he | he
      · exact absurd (he.symm.trans hi) nofun
      · exact ⟨t, he.symm.trans hi⟩
    · exact ⟨i, hi⟩
  have hpend : ∀ i, (update s.pcs t pc i).pending = (s.pcs i).pending :=
    (forall_update_iff _ fun i pc => Pc.pending pc = (s.pcs i).pending).mpr ⟨hpc.pending, fun _ _ => rfl⟩
  have hlive : ∀ i, (update s.pcs t pc i).isLive = (s.pcs i).isLive :=
    (forall_update_iff _ fun i pc => Pc.isLive pc = (s.pcs i).isLive).mpr
      ⟨hpc.after.trans hpc.before.symm, fun _ _ => rfl⟩
  have hlive' : ∀ i o n, update s.pcs t pc i = .live o n → s.pcs i = .live o n := by
    intro i o n hi
    rcases pcs_cases (p := fun pc => pc = .live o n) hi with ⟨-, rfl⟩ | ⟨-, hi⟩
    · exact absurd hpc.after nofun
    · exact hi
  refine ⟨?_, ?_, ?_, ?_, ?_, ?_, ?_⟩
  · intro i o hi
    obtain ⟨k, hk⟩ := hobj i o hi
    exact hs.name.trans (h.bound k o hk)
  · exact h.level_set hn
  · refine h.sized_set fun o n he => ?_
    rcases he with rfl | rfl
    · exact absurd hpc.after nofun
    · exact hpc.sized o n rfl
  · intro i hi
    obtain ⟨hname, hnone⟩ := h.pend i ((hpend i).symm.trans hi)
    refine ⟨fun he => hname (hs.name.symm.trans he), fun j => ?_⟩
    rw [Option.eq_none_iff_forall_ne_some]
    intro o ho
    obtain ⟨k, hk⟩ := hobj j o ho
    exact absurd ((hnone k).symm.trans hk) nofun
  · intro i j hi hj
    exact h.pendOne i j ((hpend i).symm.trans hi) ((hpend j).symm.trans hj)
  · obtain ⟨L, hL, hc, hw⟩ := h.count
    refine ⟨L, fun i => (hL i).trans (by rw [← hlive i]; rfl), hc, fun i o n hi => ?_⟩
    exact (hs.word _ _).trans (hw i o n (hlive' i o n hi))
  · intro o ho j hj
    refine (hs.word o j).trans (h.blank o (hs.name.symm.trans ho) j fun i p n hi => hj i p n ?_)
    have hit : i ≠ t := by
      rintro rfl
      rw [hi] at hpc
      exact absurd hpc.before nofun
    exact (update_of_ne hit _ _).trans hi

theorem opened (h : Inv s) {t : τ} {o n : Nat} (hpc : s.pcs t = .openOld n) (ho : s.store.name = some o)
    (hp : ∀ i, (s.pcs i).pending = false) : Inv (s.set t (.wait o n)) := by
  have hlive : ∀ i o' n', update s.pcs t (.wait o n) i = .live o' n' ↔ s.pcs i = .live o' n' := by
    intro i o' n'
    rcases eq_or_ne i t with rfl | hi
    · rw [update_self, hpc]
      constructor
      · nofun
      · nofun
    · rw [update_of_ne hi]
  have hpend : ∀ i, (update s.pcs t (.wait o n) i).pending = false :=
    (forall_update_iff _ fun i pc => Pc.pending pc = false).mpr ⟨rfl, fun i _ => hp i⟩
  refine ⟨?_, ?_, ?_, ?_, ?_, ?_, ?_⟩
  · intro i o' hi
    rcases pcs_cases (p := fun pc => pc.obj = some o') hi with ⟨-, hi⟩ | ⟨-, hi⟩
    · exact ho.trans hi
    · exact h.bound i o' hi
  · exact h.level_set fun k hk i m hi => h.level i t m k hi (by rw [hpc]; exact hk)
  · exact h.sized_set fun _ _ => nofun
  · intro i hi
    exact absurd ((hpend i).symm.trans hi) nofun
  · intro i j hi
    exact absurd ((hpend i).symm.trans hi) nofun
  · obtain ⟨L, hL, hc, hw⟩ := h.count
    refine ⟨L, fun i => ?_, hc, fun i o' k hi => hw i o' k ((hlive i o' k).mp hi)⟩
    rw [hL, Pc.isLive_iff, Pc.isLive_iff]
    exact exists_congr fun o' => exists_congr fun k => (hlive i o' k).symm
  · intro o' ho' j hj
    exact h.blank o' ho' j fun i p k hi => hj i p k ((hlive i p k).mpr hi)

theorem created (h : Inv s) {t : τ} {o n : Nat} (hpc : s.pcs t = .openExcl n) (hst : s.store.openExcl = .ok (st, o)) :
    Inv { s.set t (.truncate o n) with store := st } := by
  obtain ⟨hopen, hname, -⟩ := openExcl_spec .createOrOpen nofun hst
  have hnone : s.store.name = none := by
    cases hn : s.store.name with
    | none => rfl
    | some p =>
      unfold Store.openExcl at hst
      rw [hn] at hst
      exact absurd hst nofun
  have hword : ∀ j, st.word o j = 0 := by
    intro j
    cases hopen with
    | same hs => exact absurd (hnone.symm.trans (hs.name.symm.trans hname)) nofun
    | new hm hn hs hx hw =>
      obtain rfl := Option.some.inj (hs.symm.trans hname)
      rw [hw, if_pos rfl]
  have hobj : ∀ i, (s.pcs i).obj = none := by
    intro i
    rw [Option.eq_none_iff_forall_ne_some]
    intro p hp
    exact absurd (hnone.symm.trans (h.bound i p hp)) nofun
  have hlive : ∀ i o' k, update s.pcs t (.truncate o n) i ≠ .live o' k := by
    intro i o' k hi
    rcases pcs_cases (p := fun pc => pc = .live o' k) hi with ⟨-, hi⟩ | ⟨-, hi⟩
    · exact absurd hi nofun
    · have := hobj i
      rw [hi] at this
      exact absurd this nofun
  have hpend : ∀ i, (update s.pcs t (.truncate o n) i).pending = false := by
    refine (forall_update_iff _ fun i pc => Pc.pending pc = false).mpr ⟨rfl, fun i _ => ?_⟩
    rw [Bool.eq_false_iff]
    exact fun hi => (h.pend i hi).1 hnone
  refine ⟨?_, ?_, ?_, ?_, ?_, ⟨∅, ?_, by norm_num, ?_⟩, ?_⟩
  · intro i o' hi
    rcases pcs_cases (p := fun pc => pc.obj = some o') hi with ⟨-, hi⟩ | ⟨-, hi⟩
    · exact hname.trans hi
    · exact absurd ((hobj i).symm.trans hi) nofun
  · exact h.level_set fun k hk i m hi => h.level i t m k hi (by rw [hpc]; exact hk)
  · exact h.sized_set fun _ _ => nofun
  · intro i hi
    exact absurd ((hpend i).symm.trans hi) nofun
  · intro i j hi
    exact absurd ((hpend i).symm.trans hi) nofun
  · intro i
    rw [Pc.isLive_iff]
    simp only [Finset.notMem_empty, false_iff, not_exists]
    exact fun o' k => hlive i o' k
  · exact fun i o' k hi => absurd hi (hlive i o' k)
  · intro o' ho' j _
    obtain rfl := Option.some.inj (hname.symm.trans ho')
    exact hword j

omit [DecidableEq τ] in
/-- Nobody has still to unlink the name of an object that somebody has. -/
theorem not_pending (h : Inv s) {t : τ} {o : Nat} (ho : (s.pcs t).obj = some o) (i : τ) : (s.pcs i).pending = false := by
  rw [Bool.eq_false_iff]
  intro hi
  exact absurd (((h.pend i hi).2 t).symm.trans ho) nofun

theorem counted (h : Inv s) {t : τ} {o n : Nat} (hpc : s.pcs t = .count o n)
    (hmax : s.store.word o (accOf n) ≠ 0x7fffffff) :
    Inv { s.set t (.live o n) with store := s.store.fetchAdd o (accOf n) 1 } := by
  have hobj : (s.pcs t).obj = some o := by rw [hpc]; rfl
  have hname : s.store.name = some o := h.bound t o hobj
  have hn : ∀ i p k, s.pcs i = .live p k → p = o ∧ k = n := by
    intro i p k hi
    refine ⟨Option.some.inj ((h.bound i p (by rw [hi]; rfl)).symm.trans hname), ?_⟩
    exact h.level i t k n (by rw [hi]; rfl) (by rw [hpc]; rfl)
  obtain ⟨L, hL, hc, hw⟩ := h.counter hname fun i p k hi => (hn i p k hi).2
  have htL : t ∉ L := by
    rw [hL, hpc]
    exact nofun
  have hlive : ∀ i p k, update s.pcs t (.live o n) i = .live p k → p = o ∧ k = n := by
    intro i p k hi
    rcases pcs_cases (p := fun pc => pc = .live p k) hi with ⟨-, hi⟩ | ⟨-, hi⟩
    · obtain ⟨rfl, rfl⟩ := Pc.live.inj hi
      exact ⟨rfl, rfl⟩
    · exact hn i p k hi
  have hpend : ∀ i, (update s.pcs t (.live o n) i).pending = false :=
    (forall_update_iff _ fun i pc => Pc.pending pc = false).mpr ⟨rfl, fun i _ => h.not_pending hobj i⟩
  refine ⟨?_, ?_, ?_, ?_, ?_, ⟨insert t L, ?_, ?_, ?_⟩, ?_⟩
  · intro i p hi
    rcases pcs_cases (p := fun pc => pc.obj = some p) hi with ⟨-, hi⟩ | ⟨-, hi⟩
    · exact hname.trans hi
    · exact h.bound i p hi
  · exact h.level_set fun k hk i m hi => h.level i t m k hi (by rw [hpc]; exact hk)
  · refine h.sized_set fun p k he => ?_
    rcases he with he | he
    · obtain ⟨rfl, rfl⟩ := Pc.live.inj he
      exact h.sized t o n (Or.inr hpc)
    · exact absurd he nofun
  · intro i hi
    exact absurd ((hpend i).symm.trans hi) nofun
  · intro i j hi
    exact absurd ((hpend i).symm.trans hi) nofun
  · intro i
    show _ ↔ (update s.pcs t (.live o n) i).isLive = true
    rw [Finset.mem_insert, hL]
    rcases eq_or_ne i t with rfl | hi
    · simp [Pc.isLive]
    · rw [update_of_ne hi]
      simp [hi]
  · rw [Finset.card_insert_of_notMem htL]
    by_contra hlt
    have : L.card = 2 ^ 31 - 1 := by omega
    exact hmax (by rw [hw, this]; rfl)
  · intro i p k hi
    obtain ⟨rfl, rfl⟩ := hlive i p k hi
    show (s.store.fetchAdd p _ 1).word _ _ = _
    rw [Store.word_fetchAdd, if_pos ⟨rfl, rfl⟩, hw, Finset.card_insert_of_notMem htL, BitVec.ofNat_add]
    rfl
  · intro p hp j hj
    have hjn : j ≠ accOf n := hj t o n (update_self _ _ _)
    show (s.store.fetchAdd o _ 1).word _ _ = _
    rw [Store.word_fetchAdd, if_neg fun he => hjn he.2]
    refine h.blank p hp j fun i q k hi => ?_
    rw [(hn i q k hi).2]
    exact hjn

theorem dropped (h : Inv s) {t : τ} {o n : Nat} (hpc : s.pcs t = .live o n)
    (hl : (s.store.word o (accOf n)).sle 1 → ∀ i, (s.pcs i).obj ≠ none → (s.pcs i).isLive) :
    Inv { s.set t (.unmap (s.store.word o (accOf n))) with store := s.store.fetchAdd o (accOf n) (-1) } := by
  have hobj : (s.pcs t).obj = some o := by rw [hpc]; rfl
  have hname : s.store.name = some o := h.bound t o hobj
  obtain ⟨L, hL, hc, hw⟩ := h.count
  have htL : t ∈ L := by
    rw [hL, hpc]
    rfl
  have hcard : (L.erase t).card + 1 = L.card := Finset.card_erase_add_one htL
  have hword := hw t o n hpc
  have hlive : ∀ i p k, update s.pcs t (.unmap (s.store.word o (accOf n))) i = .live p k →
      i ≠ t ∧ s.pcs i = .live p k ∧ p = o ∧ k = n := by
    intro i p k hi
    rcases pcs_cases (p := fun pc => pc = .live p k) hi with ⟨-, hi⟩ | ⟨hit, hi⟩
    · exact absurd hi nofun
    · refine ⟨hit, hi, Option.some.inj ((h.bound i p (by rw [hi]; rfl)).symm.trans hname), ?_⟩
      exact h.level i t k n (by rw [hi]; rfl) (by rw [hpc]; rfl)
  -- the last one leaves nobody behind that has the object
  have hlast : (s.store.word o (accOf n)).sle 1 = true → ∀ i, i ≠ t → (s.pcs i).obj = none := by
    intro hsle i hi
    by_contra hne
    have hone : L.card ≤ 1 := (lastRef_iff (g := ⟨o, n, 0, 0⟩) hword hc).mp hsle
    exact hi (Finset.card_le_one_iff.mp hone ((hL i).mpr (hl hsle i hne)) htL)
  have hpend : ∀ i, (update s.pcs t (.unmap (s.store.word o (accOf n))) i).pending = true →
      i = t ∧ (s.store.word o (accOf n)).sle 1 = true := by
    intro i hi
    rcases pcs_cases (p := fun pc => pc.pending = true) hi with ⟨hit, hi⟩ | ⟨-, hi⟩
    · exact ⟨hit, hi⟩
    · exact absurd ((h.not_pending hobj i).symm.trans hi) nofun
  refine ⟨?_, ?_, ?_, ?_, ?_, ⟨L.erase t, ?_, by omega, ?_⟩, ?_⟩
  · intro i p hi
    rcases pcs_cases (p := fun pc => pc.obj = some p) hi with ⟨-, hi⟩ | ⟨-, hi⟩
    · exact absurd hi nofun
    · exact h.bound i p hi
  · exact h.level_set fun _ => nofun
  · exact h.sized_set fun _ _ => nofun
  · intro i hi
    obtain ⟨rfl, hsle⟩ := hpend i hi
    refine ⟨fun he => absurd (he.symm.trans hname) nofun, fun j => ?_⟩
    show (update s.pcs i _ j).obj = none
    rw [update_apply]
    split_ifs with hj
    · rfl
    · exact hlast hsle j hj
  · intro i j hi hj
    rw [(hpend i hi).1, (hpend j hj).1]
  · intro i
    show _ ↔ (update s.pcs t _ i).isLive = true
    rw [Finset.mem_erase, hL, update_apply]
    split_ifs with hi
    · simp [hi, Pc.isLive]
    · simp [hi]
  · intro i p k hi
    obtain ⟨-, -, rfl, rfl⟩ := hlive i p k hi
    show (s.store.fetchAdd p _ (-1)).word _ _ = _
    rw [Store.word_fetchAdd, if_pos ⟨rfl, rfl⟩, hword, ← hcard, BitVec.ofNat_add]
    exact add_neg_cancel_right _ _
  · intro p hp j hj
    obtain rfl : p = o := Option.some.inj (hp.symm.trans hname)
    show (s.store.fetchAdd p _ (-1)).word _ _ = _
    by_cases hjn : j = accOf n
    · -- the counter itself is 0, since no live handle is left
      have hempty : L.erase t = ∅ := by
        rw [Finset.eq_empty_iff_forall_notMem]
        intro i hi
        obtain ⟨hit, hiL⟩ := Finset.mem_erase.mp hi
        obtain ⟨q, k, hq⟩ := Pc.isLive_iff.mp ((hL i).mp hiL)
        have hk : k = n := h.level i t k n (by rw [hq]; rfl) (by rw [hpc]; rfl)
        exact hj i q k ((update_of_ne hit _ _).trans hq) (hk ▸ hjn)
      rw [Store.word_fetchAdd, if_pos ⟨rfl, hjn⟩, hword, ← hcard, hempty, Finset.card_empty]
      decide
    · rw [Store.word_fetchAdd, if_neg fun he => hjn he.2]
      refine h.blank p hname j fun i q k hi => ?_
      rw [h.level i t k n (by rw [hi]; rfl) (by rw [hpc]; rfl)]
      exact hjn

theorem unlinked (h : Inv s) {t : τ} (hpc : s.pcs t = .unlink) : Inv { s.set t .idle with store := s.store.unlink } := by
  have hpt : (s.pcs t).pending = true := by rw [hpc]; rfl
  obtain ⟨-, hobj⟩ := h.pend t hpt
  have hobj' : ∀ i, (update s.pcs t .idle i).obj = none :=
    (forall_update_iff _ fun i pc => Pc.obj pc = none).mpr ⟨rfl, fun i _ => hobj i⟩
  have hlive : ∀ i p k, update s.pcs t .idle i ≠ .live p k := by
    intro i p k hi
    have := hobj' i
    rw [hi] at this
    exact absurd this nofun
  have hpend : ∀ i, (update s.pcs t .idle i).pending = false := by
    refine (forall_update_iff _ fun i pc => Pc.pending pc = false).mpr ⟨rfl, fun i hi => ?_⟩
    rw [Bool.eq_false_iff]
    exact fun hp => hi (h.pendOne i t hp hpt)
  refine ⟨?_, ?_, ?_, ?_, ?_, ⟨∅, ?_, by norm_num, ?_⟩, ?_⟩
  · exact fun i o hi => absurd ((hobj' i).symm.trans hi) nofun
  · exact h.level_set fun _ => nofun
  · exact h.sized_set fun _ _ => nofun
  · exact fun i hi => absurd ((hpend i).symm.trans hi) nofun
  · exact fun i j hi => absurd ((hpend i).symm.trans hi) nofun
  · intro i
    rw [Pc.isLive_iff]
    simp only [Finset.notMem_empty, false_iff, not_exists]
    exact fun p k => hlive i p k
  · exact fun i p k hi => absurd hi (hlive i p k)
  · exact fun o ho => absurd ho nofun

theorem step {P : Platform} {s' : State τ} {a : τ × Act} (h : Inv s) (hok : orderly s a) (hs : s.step P a = some s') :
    Inv s' := by
  cases does_of_step hs hok with
  | pass pc hpc hn =>
    refine h.pass (.refl s.store) hpc fun k hk i n hi => ?_
    rcases hn with hn | hn
    · exact absurd (hn.symm.trans hk) nofun
    · exact h.level i a.1 n k hi (hn.symm.trans hk)
  | start n hpc hn =>
    refine h.pass (.refl s.store) ?_ fun k hk i m hi => ?_
    · rw [hpc]
      exact ⟨Or.inl rfl, rfl, rfl, rfl, nofun⟩
    · obtain rfl := Option.some.inj hk
      exact hn i m hi
  | none => exact h
  | create n o st hpc hst => exact h.created hpc hst
  | «open» n o hpc hst hp => exact h.opened hpc hst hp
  | size n o st hpc hst =>
    have htotal : (s.pcs a.1).total = some n := by
      rcases hpc with hpc | hpc
      · rw [hpc]; rfl
      · rw [hpc]; rfl
    have hobj : (s.pcs a.1).obj = some o := by
      rcases hpc with hpc | hpc
      · rw [hpc]; rfl
      · rw [hpc]; rfl
    -- what is cut off, if anything, lies behind the counter
    have hcut : s.store.Uncut o n := by
      refine Or.inr fun j hj => h.blank o (h.bound a.1 o hobj) j fun i p k hi => ?_
      have hk : k = n := h.level i a.1 k n (by rw [hi]; rfl) htotal
      have hpos : 0 < k := h.sized i p k (Or.inl hi)
      unfold accOf
      omega
    refine h.pass (Store.ftruncateToSize_same hst hcut) ?_ fun k hk i m hi => ?_
    · rcases hpc with hpc | hpc
      · rw [hpc]
        exact ⟨Or.inr rfl, rfl, rfl, rfl, nofun⟩
      · rw [hpc]
        exact ⟨Or.inr rfl, rfl, rfl, rfl, nofun⟩
    · obtain rfl := Option.some.inj hk
      exact h.level i a.1 m n hi htotal
  | count n o hpc hmax => exact h.counted hpc hmax
  | drop n o hpc hl => exact h.dropped hpc hl
  | unlink hpc => exact h.unlinked hpc

end Inv

/-! ## Runs -/

/-- The name is unbound, and no thread has called anything. -/
structure State.New (s : State τ) : Prop where
  name : s.store.name = none
  pcs : ∀ t, s.pcs t = .idle

theorem State.New.inv {s : State τ} (h : s.New) : Inv s := by
  refine ⟨?_, ?_, ?_, ?_, ?_, ⟨∅, ?_, by norm_num, ?_⟩, ?_⟩
  · intro t o ht
    rw [h.pcs] at ht
    exact absurd ht nofun
  · intro t t' n n' ht
    rw [h.pcs] at ht
    exact absurd ht nofun
  · intro t o n ht
    rw [h.pcs] at ht
    exact absurd ht nofun
  · intro t ht
    rw [h.pcs] at ht
    exact absurd ht nofun
  · intro t t' ht
    rw [h.pcs] at ht
    exact absurd ht nofun
  · intro t
    rw [h.pcs]
    simp [Pc.isLive]
  · intro t o n ht
    rw [h.pcs] at ht
    exact absurd ht nofun
  · intro o ho
    rw [h.name] at ho
    exact absurd ho nofun

variable [DecidableEq τ]

/-- **Named shared memory does not split.** The name is bound to the object of every live handle, and stays bound until
the last is dropped. -/
theorem never_split {P : Platform} {s₀ s : State τ} {acts : List (τ × Act)} (h₀ : s₀.New)
    (hr : Run (State.step P) orderly s₀ acts s) :
    (∀ t o n, s.pcs t = .live o n → s.store.name = some o) ∧
      ∀ t t' o o' n n', s.pcs t = .live o n → s.pcs t' = .live o' n' → o = o' := by
  have hinv : Inv s := hr.inv Inv h₀.inv fun _ _ _ h hok hs => h.step hok hs
  have hbound : ∀ t o n, s.pcs t = .live o n → s.store.name = some o :=
    fun t o n ht => hinv.bound t o (by rw [ht]; rfl)
  refine ⟨hbound, fun t t' o o' n n' ht ht' => ?_⟩
  exact Option.some.inj ((hbound t o n ht).symm.trans (hbound t' o' n' ht'))

instance [Fintype τ] (s : State τ) (a : τ × Act) : Decidable (orderly s a) := by
  unfold orderly
  split <;> infer_instance

/-- No object, and three threads. -/
def fresh : State (Fin 3) := ⟨⟨none, fun _ => ⟨0, fun _ => 0⟩, 0⟩, fun _ => .idle⟩

theorem fresh_new : fresh.New := ⟨rfl, fun _ => rfl⟩

/-- Thread `t` acquires a handle of an object that it creates. -/
def createActs (t : Fin 3) : List (Fin 3 × Act) := (t, .acquire 4) :: List.replicate 4 (t, .go)

theorem never_split_shared : ∃ s, Run (State.step linux) orderly fresh
    (createActs 0 ++ (1, .acquire 4) :: List.replicate 5 (1, .go) ++ [(0, .drop), (0, .go)]) s ∧
      s.pcs 0 = .idle ∧ s.pcs 1 = .live 0 8 ∧ s.store.name = some 0 := by
  refine exists_run_imp (fun s => s.pcs 0 = .idle ∧ s.pcs 1 = .live 0 8) (by decide +kernel) fun s hrun hx => ?_
  obtain ⟨h0, h1⟩ := hx
  exact ⟨h0, h1, (never_split fresh_new hrun).1 1 0 8 h1⟩

/-- **A last drop decrements and unlinks in two steps.** Thread 1 opens the object in between; the name is unlinked, and
thread 2 creates another object under it. -/
theorem split_by_last_drop : ∃ s, Run (State.step linux) (fun _ _ => True) fresh
    (createActs 0 ++ [(1, .acquire 4), (1, .go), (0, .drop)] ++ List.replicate 4 (1, .go) ++ [(0, .go), (0, .go)] ++
      createActs 2) s ∧ s.pcs 1 = .live 0 8 ∧ s.pcs 2 = .live 1 8 ∧ s.store.name = some 1 :=
  exists_run_of (by decide +kernel)

end ThothIpc.Shm.Split
