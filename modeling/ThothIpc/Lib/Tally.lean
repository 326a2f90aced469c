import Mathlib

/-!
# How many threads pass a test

`Tally p n` : exactly `n` elements pass `p`, also if there are infinitely many elements. A system in which one thread
moves at a time changes it by at most one.

* `Tally.congr`, `Tally.enter`, `Tally.leave` : the test of one element stays, becomes true, becomes false;
* `Tally.sub` : a stronger test; `Tally.eq_false` : one that nobody passes;
* `Tally.ncard` : the number is that of the set.
-/

namespace Steps

variable {τ : Type*} {p q : τ → Bool} {n : Nat} {t : τ}

/-- Exactly `n` elements pass `p`. -/
def Tally (p : τ → Bool) (n : Nat) : Prop := ∃ W : Finset τ, (∀ t, t ∈ W ↔ p t = true) ∧ W.card = n

theorem tally_none (h : ∀ t, p t = false) : Tally p 0 :=
  ⟨∅, fun t => by simp [h t], rfl⟩

namespace Tally

theorem congr (h : Tally p n) (hq : ∀ t, q t = p t) : Tally q n := by
  obtain ⟨W, hW, hn⟩ := h
  exact ⟨W, fun t => by rw [hW, hq], hn⟩

theorem enter (h : Tally p n) (ht : p t = false) (hq : q t = true) (hu : ∀ u, u ≠ t → q u = p u) :
    Tally q (n + 1) := by
  obtain ⟨W, hW, hn⟩ := h
  have hnot : t ∉ W := fun hm => by
    rw [(hW t).mp hm] at ht
    cases ht
  refine ⟨W.cons t hnot, fun u => ?_, by rw [Finset.card_cons, hn]⟩
  rw [Finset.mem_cons]
  by_cases he : u = t
  · subst he
    simp [hq]
  · rw [hu u he, hW]
    simp [he]

theorem leave (h : Tally p n) (ht : p t = true) (hq : q t = false) (hu : ∀ u, u ≠ t → q u = p u) :
    ∃ m, n = m + 1 ∧ Tally q m := by
  classical
  obtain ⟨W, hW, hn⟩ := h
  have hm : t ∈ W := (hW t).mpr ht
  refine ⟨(W.erase t).card, by rw [Finset.card_erase_add_one hm, hn], W.erase t, fun u => ?_, rfl⟩
  rw [Finset.mem_erase, hW]
  by_cases he : u = t
  · subst he
    simp [hq]
  · simp [he, hu u he]

theorem sub (h : Tally p n) (hq : ∀ t, q t = true → p t = true) : ∃ m ≤ n, Tally q m := by
  obtain ⟨W, hW, hn⟩ := h
  refine ⟨(W.filter fun t => q t = true).card, hn ▸ Finset.card_filter_le _ _, _, fun t => ?_, rfl⟩
  rw [Finset.mem_filter, hW]
  exact ⟨And.right, fun h => ⟨hq t h, h⟩⟩

theorem eq_false (h : Tally p 0) (t : τ) : p t = false := by
  obtain ⟨W, hW, hn⟩ := h
  rw [Finset.card_eq_zero] at hn
  subst hn
  exact Bool.eq_false_iff.mpr fun ht => Finset.notMem_empty t ((hW t).mpr ht)

theorem ncard (h : Tally p n) : {t | p t = true}.ncard = n := by
  obtain ⟨W, hW, hn⟩ := h
  have hset : {t | p t = true} = (W : Set τ) := Set.ext fun t => (hW t).symm
  rw [hset, Set.ncard_coe_finset, hn]

end Tally
end Steps
