import Mathlib

/-!
# Words split at a marker

A word `p ++ m ++ r` with a fixed marker `m` in it says what `p` and `r` are if no other copy of the marker starts later
in it.

* `infix_append_cons_iff` : a word without the letter `c` lies on one side of `c`;
* `Apart m r` : no copy of `m` starts inside `m ++ r`, after its start;
* `split_unique` : a word has at most one split with `Apart m r`.
-/

namespace Marker

variable {α : Type*} {m p₁ p₂ r r₁ r₂ u v : List α} {c : α}

theorem infix_append_cons_iff (hc : c ∉ m) : m <:+: u ++ c :: v ↔ m <:+: u ∨ m <:+: v := by
  constructor
  · intro h
    obtain h | h | ⟨l₁, l₂, rfl, h₁, h₂⟩ := List.infix_append_iff.mp h
    · exact .inl h
    · obtain h | h := List.infix_cons_iff.mp h
      · cases m with
        | nil => exact .inl (List.nil_infix)
        | cons a m =>
          obtain ⟨rfl, -⟩ := List.cons_prefix_cons.mp h
          exact absurd List.mem_cons_self hc
      · exact .inr h
    · -- the part behind the cut would start with `c`
      cases l₂ with
      | nil =>
        rw [List.append_nil]
        exact .inl h₁.isInfix
      | cons a l₂ =>
        obtain ⟨rfl, -⟩ := List.cons_prefix_cons.mp h₂
        exact absurd (List.mem_append_right l₁ List.mem_cons_self) hc
  · rintro (h | h)
    · exact h.trans (List.prefix_append u (c :: v)).isInfix
    · exact (h.trans (List.suffix_cons c v).isInfix).trans (List.suffix_append u (c :: v)).isInfix

/-- No copy of `m` starts later in `m ++ r`: not in `r`, and none that begins with an end of `m`. -/
structure Apart (m r : List α) : Prop where
  inside : ¬m <:+: r
  across : ∀ k, 0 < k → k < m.length → m.drop k <+: m → ¬m.drop (m.length - k) <+: r

theorem Apart.length_le (h : Apart m r₁) (he : p₁ ++ (m ++ r₁) = p₂ ++ (m ++ r₂)) : p₂.length ≤ p₁.length := by
  obtain ⟨x, rfl, hx⟩ | ⟨x, rfl, -⟩ := List.append_eq_append_iff.mp he
  · rcases List.eq_nil_or_concat x with rfl | ⟨y, c, rfl⟩
    · simp
    obtain ⟨z, -, hz⟩ | ⟨z, hm, hz⟩ := List.append_eq_append_iff.mp hx
    · exact absurd ⟨z, r₂, by rw [hz, List.append_assoc]⟩ h.inside
    · -- the copies overlap in `z`
      obtain ⟨w, hw, hr⟩ | ⟨w, hw, hr⟩ := List.append_eq_append_iff.mp hz
      · have hlen := congrArg List.length hm
        have hlen' := congrArg List.length hw
        simp only [List.length_append, List.length_singleton, List.concat_eq_append] at hlen hlen'
        omega
      · have hk : (y.concat c).length = m.length - z.length := by
          rw [hm, List.length_append, Nat.add_sub_cancel_right]
        by_cases hnil : z = []
        · rw [hnil, List.nil_append] at hw
          exact absurd ⟨[], r₂, by rw [hr, hw, List.nil_append]⟩ h.inside
        · have hpos := List.length_pos_of_ne_nil hnil
          have hle : z.length ≤ m.length := by
            rw [hw, List.length_append]
            exact Nat.le_add_right _ _
          have hdrop : m.drop (m.length - z.length) = z := by
            rw [← hk]
            nth_rewrite 1 [hm]
            exact List.drop_left
          refine absurd ?_ (h.across (m.length - z.length) ?_ (by omega) ?_)
          · rw [Nat.sub_sub_self hle]
            nth_rewrite 1 [hw]
            rw [List.drop_left, hr]
            exact List.prefix_append w r₂
          · rw [← hk]
            simp
          · rw [hdrop]
            exact ⟨w, hw.symm⟩
  · simp

/-- **A word has at most one such split.** -/
theorem split_unique (h₁ : Apart m r₁) (h₂ : Apart m r₂) (he : p₁ ++ (m ++ r₁) = p₂ ++ (m ++ r₂)) :
    p₁ = p₂ ∧ r₁ = r₂ := by
  obtain ⟨hp, hr⟩ := List.append_inj he (le_antisymm (h₂.length_le he.symm) (h₁.length_le he))
  exact ⟨hp, List.append_cancel_left hr⟩

end Marker
