import Mathlib

/-!
# Tables of keyed slots

A table is a list of slots, and `key` gives the key of a slot that is in use.

* `visitFirst` : the loop that stops at the first slot a test accepts, and changes that slot;
* `Distinct` : no key is in two slots, `lookup` : the slot of a key; what both are when one slot is replaced
  (`Distinct.replace`, `lookup_replace`) and when some are freed (`Frees`);
* `ncard_keys` : the keys whose slots pass a test are as many as these slots.
-/

namespace Keyed

section visit

variable {α β : Type*} {p : α → Bool} {f : α → β × α} {l l' : List α} {b : β}

/-- The first element that `p` accepts is replaced, with a result. -/
def visitFirst (p : α → Bool) (f : α → β × α) : List α → Option (β × List α)
  | [] => none
  | x :: l => if p x then some ((f x).1, (f x).2 :: l) else (visitFirst p f l).map fun r => (r.1, x :: r.2)

theorem visitFirst_eq_none : visitFirst p f l = none ↔ ∀ x ∈ l, p x = false := by
  induction l with
  | nil => simp [visitFirst]
  | cons x l ih =>
    unfold visitFirst
    cases hp : p x with
    | true => simp [hp]
    | false => simp [hp, ih]

theorem visitFirst_eq_some (h : visitFirst p f l = some (b, l')) :
    ∃ pre x post, l = pre ++ x :: post ∧ (∀ y ∈ pre, p y = false) ∧ p x = true ∧ b = (f x).1 ∧
      l' = pre ++ (f x).2 :: post := by
  induction l generalizing l' with
  | nil => cases h
  | cons x l ih =>
    unfold visitFirst at h
    split at h
    · rename_i hp
      cases h
      exact ⟨[], x, l, rfl, by simp, hp, rfl, rfl⟩
    · rename_i hp
      obtain ⟨r, hr, he⟩ := Option.map_eq_some_iff.mp h
      cases he
      obtain ⟨pre, y, post, rfl, hpre, hy, hb, hl⟩ := ih hr
      refine ⟨x :: pre, y, post, rfl, ?_, hy, hb, by rw [hl]; rfl⟩
      intro z hz
      rcases List.mem_cons.mp hz with rfl | hz
      · exact Bool.eq_false_iff.mpr hp
      · exact hpre z hz

theorem length_visitFirst (h : visitFirst p f l = some (b, l')) : l'.length = l.length := by
  obtain ⟨pre, x, post, rfl, -, -, -, rfl⟩ := visitFirst_eq_some h
  simp

end visit

variable {α κ : Type*} {key : α → Option κ} {l l' pre post : List α} {x y : α} {k : κ}

/-! ## No key in two slots -/

/-- No key is in two slots. -/
def Distinct (key : α → Option κ) (l : List α) : Prop := l.Pairwise fun x y => ∀ k, key x = some k → key y ≠ some k

theorem Distinct.eq (h : Distinct key l) (hx : x ∈ l) (hy : y ∈ l) (hkx : key x = some k) (hky : key y = some k) :
    x = y := by
  induction l with
  | nil => cases hx
  | cons z l ih =>
    obtain ⟨hz, hl⟩ := List.pairwise_cons.mp h
    rcases List.mem_cons.mp hx with hxz | hxl <;> rcases List.mem_cons.mp hy with hyz | hyl
    · rw [hxz, hyz]
    · exact absurd hky (hz y hyl k (hxz ▸ hkx))
    · exact absurd hkx (hz x hxl k (hyz ▸ hky))
    · exact ih hl hxl hyl

theorem distinct_middle : Distinct key (pre ++ x :: post) ↔
    Distinct key (pre ++ post) ∧ ∀ z ∈ pre ++ post, ∀ k, key x = some k → key z ≠ some k := by
  unfold Distinct
  rw [List.pairwise_middle fun h k hy hx => h k hx hy, List.pairwise_cons, and_comm]

theorem Distinct.replace (h : Distinct key (pre ++ x :: post))
    (hy : ∀ z ∈ pre ++ post, ∀ k, key y = some k → key z ≠ some k) : Distinct key (pre ++ y :: post) :=
  distinct_middle.mpr ⟨(distinct_middle.mp h).1, hy⟩

theorem mem_middle {z : α} : z ∈ pre ++ x :: post ↔ z = x ∨ z ∈ pre ++ post := by
  simp only [List.mem_append, List.mem_cons]
  tauto

/-- Some slots that `dead` accepts are freed, the others are as they were. -/
def Frees (key : α → Option κ) (dead : α → Prop) (l l' : List α) : Prop :=
  List.Forall₂ (fun x y => y = x ∨ (dead x ∧ key y = none)) l l'

variable {dead : α → Prop}

theorem Frees.mem (h : Frees key dead l l') (hy : y ∈ l') (hk : key y = some k) : y ∈ l := by
  induction h with
  | nil => cases hy
  | cons hab _ ih =>
    rcases List.mem_cons.mp hy with rfl | hy
    · rcases hab with rfl | ⟨-, hn⟩
      · exact List.mem_cons_self
      · rw [hn] at hk
        cases hk
    · exact List.mem_cons_of_mem _ (ih hy)

theorem Frees.kept (h : Frees key dead l l') (hx : x ∈ l) : x ∈ l' ∨ dead x := by
  induction h with
  | nil => cases hx
  | cons hab _ ih =>
    rcases List.mem_cons.mp hx with rfl | hx
    · rcases hab with rfl | ⟨hd, -⟩
      · exact .inl List.mem_cons_self
      · exact .inr hd
    · exact (ih hx).imp_left (List.mem_cons_of_mem _)

theorem Frees.distinct (h : Frees key dead l l') (hl : Distinct key l) : Distinct key l' := by
  induction h with
  | nil => exact List.Pairwise.nil
  | @cons a b l l' hab hrest ih =>
    obtain ⟨ha, hl⟩ := List.pairwise_cons.mp hl
    refine List.pairwise_cons.mpr ⟨fun y hy k hk hky => ?_, ih hl⟩
    rcases hab with rfl | ⟨-, hn⟩
    · exact ha y (Frees.mem hrest hy hky) k hk hky
    · rw [hn] at hk
      cases hk

/-! ## The slot of a key -/

variable [DecidableEq κ]

/-- The slot of a key. -/
def lookup (key : α → Option κ) (k : κ) (l : List α) : Option α := l.find? fun x => key x = some k

theorem lookup_eq_some_iff (h : Distinct key l) : lookup key k l = some x ↔ x ∈ l ∧ key x = some k := by
  constructor
  · intro hx
    exact ⟨List.mem_of_find?_eq_some hx, by simpa using List.find?_some hx⟩
  · rintro ⟨hx, hk⟩
    cases hf : lookup key k l with
    | none => exact absurd hk (by simpa using List.find?_eq_none.mp hf x hx)
    | some y =>
      have hy : key y = some k := by simpa using List.find?_some hf
      rw [h.eq (List.mem_of_find?_eq_some hf) hx hy hk]

theorem lookup_eq_none_iff : lookup key k l = none ↔ ∀ x ∈ l, key x ≠ some k := by
  simp [lookup, List.find?_eq_none]

/-- When a slot is replaced, of the other keys at most the one that was in the slot is lost. -/
theorem lookup_replace (h : Distinct key (pre ++ x :: post)) (h' : Distinct key (pre ++ y :: post))
    (hk : key y ≠ some k) :
    lookup key k (pre ++ y :: post) = if key x = some k then none else lookup key k (pre ++ x :: post) := by
  split
  · rename_i hx
    rw [lookup_eq_none_iff]
    intro z hz
    rcases mem_middle.mp hz with rfl | hz
    · exact hk
    · exact (distinct_middle.mp h).2 z hz k hx
  · rename_i hx
    refine Option.ext fun z => ?_
    rw [lookup_eq_some_iff h', lookup_eq_some_iff h, mem_middle, mem_middle]
    constructor
    · rintro ⟨rfl | hz, hkz⟩
      · exact absurd hkz hk
      · exact ⟨.inr hz, hkz⟩
    · rintro ⟨rfl | hz, hkz⟩
      · exact absurd hkz hx
      · exact ⟨.inr hz, hkz⟩

/-- When slots are freed, a key is where it was or its slot was freed. -/
theorem Frees.lookup (h : Frees key dead l l') (hl : Distinct key l) (k : κ) :
    lookup key k l' = lookup key k l ∨ (lookup key k l' = none ∧ ∃ x, lookup key k l = some x ∧ dead x) := by
  cases hk : Keyed.lookup key k l' with
  | some y =>
    obtain ⟨hy, hky⟩ := (lookup_eq_some_iff (h.distinct hl)).mp hk
    exact .inl ((lookup_eq_some_iff hl).mpr ⟨h.mem hy hky, hky⟩).symm
  | none =>
    cases hx : Keyed.lookup key k l with
    | none => exact .inl rfl
    | some x =>
      obtain ⟨hxl, hkx⟩ := (lookup_eq_some_iff hl).mp hx
      rcases h.kept hxl with hx' | hd
      · exact absurd hkx (lookup_eq_none_iff.mp hk x hx')
      · exact .inr ⟨rfl, x, rfl, hd⟩

theorem ncard_keys (h : Distinct key l) (q : α → Bool) :
    {k | ∃ x, lookup key k l = some x ∧ q x = true}.ncard = l.countP fun x => (key x).isSome && q x := by
  have hset : {k | ∃ x, lookup key k l = some x ∧ q x = true} = {k | k ∈ (l.filter q).filterMap key} := by
    ext k
    simp only [Set.mem_ofPred_eq, lookup_eq_some_iff h, List.mem_filterMap, List.mem_filter]
    constructor
    · rintro ⟨x, ⟨hx, hk⟩, hq⟩
      exact ⟨x, ⟨hx, hq⟩, hk⟩
    · rintro ⟨x, ⟨hx, hq⟩, hk⟩
      exact ⟨x, ⟨hx, hk⟩, hq⟩
  have hnodup : ((l.filter q).filterMap key).Nodup := by
    rw [List.nodup_iff_pairwise_ne, List.pairwise_filterMap]
    refine (h.filter q).imp fun hxy k hk k' hk' he => ?_
    subst he
    exact hxy k hk hk'
  rw [hset, ← List.coe_toFinset, Set.ncard_coe_finset, List.toFinset_card_of_nodup hnodup,
    List.length_filterMap_eq_countP, List.countP_filter]

end Keyed
