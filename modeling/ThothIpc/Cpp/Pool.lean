import ThothIpc.Message.Receive

/-!
# The chunk ids of one size

`id_pool` of `utility/id_pool.h`: the free ids form a list through `next_`, from `cursor_` on, which ends at
`max_count`.

* `IdPool` and its `prepare`, `acquire` and `release`;
* `Chain` : the list through `next_`;
* `IdPool.Holds` : the pool has exactly the ids with a given property, each once, and what `acquire` and `release` do to
  it.
-/

namespace ThothIpc.Cpp
open Message (maxCount)

structure IdPool where
  next : Nat → Nat
  cursor : Nat
  prepared : Bool

namespace IdPool

def zero : IdPool := ⟨fun _ => 0, 0, false⟩

def init (p : IdPool) : IdPool := { p with next := fun i => if i < maxCount then i + 1 else p.next i }

def invalid (p : IdPool) : Bool := (List.range maxCount).all (fun i => p.next i == 0) && p.cursor == 0 && !p.prepared

def prepare (p : IdPool) : IdPool :=
  if !p.prepared && p.invalid then { p.init with prepared := true } else { p with prepared := true }

def acquire (p : IdPool) : Option Nat × IdPool :=
  if p.cursor = maxCount then (none, p) else (some p.cursor, { p with cursor := p.next p.cursor })

def release (p : IdPool) (id : Nat) : IdPool := { p with next := Function.update p.next id p.cursor, cursor := id }

end IdPool

/-- From `c` on, the ids are `l`. -/
def Chain (next : Nat → Nat) : Nat → List Nat → Prop
  | c, [] => c = maxCount
  | c, id :: l => c = id ∧ id < maxCount ∧ Chain next (next id) l

theorem Chain.update {next : Nat → Nat} {l : List Nat} {id v : Nat} (hid : id ∉ l) : ∀ {c : Nat}, Chain next c l →
    Chain (Function.update next id v) c l := by
  induction l with
  | nil => exact fun h => h
  | cons x l ih =>
    intro c h
    obtain ⟨rfl, hlt, hl⟩ := h
    rw [List.mem_cons, not_or] at hid
    refine ⟨rfl, hlt, ?_⟩
    rw [Function.update_of_ne (Ne.symm hid.1)]
    exact ih hid.2 hl

theorem chain_range (next : Nat → Nat) (h : ∀ i < maxCount, next i = i + 1) :
    ∀ n ≤ maxCount, Chain next (maxCount - n) (List.range' (maxCount - n) n) := by
  intro n
  induction n with
  | zero => exact fun _ => rfl
  | succ n ih =>
    intro hn
    have hlt : maxCount - (n + 1) < maxCount := by omega
    rw [List.range'_succ]
    refine ⟨rfl, hlt, ?_⟩
    rw [h _ hlt, show maxCount - (n + 1) + 1 = maxCount - n by omega]
    exact ih (by omega)

namespace IdPool

variable {p : IdPool} {free : Nat → Prop} {id : Nat}

/-- The pool has exactly the ids that are `free`, each once; before the first `prepare` these are all of them. -/
structure Holds (p : IdPool) (free : Nat → Prop) : Prop where
  chain : ∃ l : List Nat, l.Nodup ∧ Chain p.prepare.next p.prepare.cursor l ∧ ∀ id, id ∈ l ↔ id < maxCount ∧ free id
  fresh : p.prepared = false → ∀ id < maxCount, free id

theorem prepared_prepare (p : IdPool) : p.prepare.prepared = true := by
  unfold prepare
  split <;> rfl

theorem prepare_of_prepared (h : p.prepared = true) : p.prepare = p := by
  rw [prepare, if_neg (by simp [h])]
  exact congrArg (fun b => (⟨p.next, p.cursor, b⟩ : IdPool)) h.symm

theorem holds_zero : zero.Holds fun _ => True := by
  refine ⟨⟨List.range' 0 maxCount, List.nodup_range', ?_, fun id => ?_⟩, fun _ _ _ => trivial⟩
  · have := chain_range zero.prepare.next (fun i hi => if_pos hi) maxCount le_rfl
    rw [Nat.sub_self] at this
    exact this
  · rw [List.mem_range'_1]
    simp

theorem Holds.congr {free' : Nat → Prop} (h : p.Holds free) (hiff : ∀ id < maxCount, free' id ↔ free id) :
    p.Holds free' := by
  obtain ⟨l, hnd, hch, hmem⟩ := h.chain
  refine ⟨⟨l, hnd, hch, fun id => ?_⟩, fun hp id hid => (hiff id hid).2 (h.fresh hp id hid)⟩
  rw [hmem]
  exact and_congr_right fun hid => (hiff id hid).symm

theorem Holds.prepare (h : p.Holds free) : p.prepare.Holds free := by
  obtain ⟨l, hnd, hch, hmem⟩ := h.chain
  refine ⟨⟨l, hnd, ?_, hmem⟩, fun hf => ?_⟩
  · rw [prepare_of_prepared (prepared_prepare p)]
    exact hch
  · rw [prepared_prepare] at hf
    cases hf

theorem Holds.acquire (h : p.Holds free) (ha : p.prepare.acquire.1 = some id) :
    id < maxCount ∧ free id ∧ p.prepare.acquire.2.prepared = true ∧ p.prepare.acquire.2.Holds fun j => free j ∧
    j ≠ id := by
  obtain ⟨l, hnd, hch, hmem⟩ := h.chain
  have hp := prepared_prepare p
  unfold IdPool.acquire at ha ⊢
  split at ha
  · cases ha
  rename_i hne
  cases l with
  | nil => exact absurd hch hne
  | cons x l =>
    obtain ⟨hx, hlt, hl⟩ := hch
    cases ha
    rw [if_neg hne]
    obtain ⟨hnot, hnd⟩ := List.nodup_cons.mp hnd
    have hfree := (hmem x).1 List.mem_cons_self
    refine ⟨hx ▸ hlt, hx ▸ hfree.2, hp, ⟨l, hnd, ?_, fun j => ?_⟩, fun hf => ?_⟩
    · rw [prepare_of_prepared (p := { p.prepare with cursor := p.prepare.next p.prepare.cursor }) hp]
      exact hx ▸ hl
    · have hj := hmem j
      rw [List.mem_cons] at hj
      constructor
      · intro hjl
        have := hj.1 (Or.inr hjl)
        exact ⟨this.1, this.2, fun he => hnot (by rw [← hx, ← he]; exact hjl)⟩
      · rintro ⟨hjlt, hjf, hjne⟩
        exact (hj.2 ⟨hjlt, hjf⟩).resolve_left fun he => hjne (by rw [hx, he])
    · rw [show p.prepare.prepared = false from hf] at hp
      cases hp

theorem Holds.release (h : p.Holds free) (hid : id < maxCount) (hnf : ¬free id) :
    (p.release id).prepared = true ∧ (p.release id).Holds fun j => free j ∨ j = id := by
  have hp : p.prepared = true := by
    by_contra hp
    exact hnf (h.fresh (by simpa using hp) id hid)
  obtain ⟨l, hnd, hch, hmem⟩ := h.chain
  rw [prepare_of_prepared hp] at hch
  have hnot : id ∉ l := fun hm => hnf ((hmem id).1 hm).2
  refine ⟨hp, ⟨id :: l, List.nodup_cons.mpr ⟨hnot, hnd⟩, ?_, fun j => ?_⟩, fun hf => ?_⟩
  · rw [prepare_of_prepared (p := p.release id) hp]
    refine ⟨rfl, hid, ?_⟩
    show Chain (Function.update p.next id p.cursor) (Function.update p.next id p.cursor id) l
    rw [Function.update_self]
    exact hch.update hnot
  · rw [List.mem_cons, hmem]
    constructor
    · rintro (rfl | ⟨hj, hf⟩)
      · exact ⟨hid, Or.inr rfl⟩
      · exact ⟨hj, Or.inl hf⟩
    · rintro ⟨hj, hf | rfl⟩
      · exact Or.inr ⟨hj, hf⟩
      · exact Or.inl rfl
  · rw [show p.prepared = false from hf] at hp
    cases hp

end IdPool
end ThothIpc.Cpp
