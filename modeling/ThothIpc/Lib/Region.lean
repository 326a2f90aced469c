import Mathlib

/-!
# Regions of memory

* `roundUp` : a size rounded up to a power of two by masking, in 64 bits; `roundUp_eq`, `le_roundUp`, `dvd_roundUp`;
* `Region` : consecutive bytes, with `Within` and `Apart`;
* `Carved` : regions cut one after the other out of blocks, and what is left of the last one; `Carved.take`,
  `Carved.grow` keep it.
-/

namespace Regions

/-! ## Alignment -/

def roundUp (value alignment : Nat) : Nat :=
  ((BitVec.ofNat 64 value + BitVec.ofNat 64 alignment - 1#64) &&& ~~~(BitVec.ofNat 64 alignment - 1#64)).toNat

theorem toNat_and_not_mask {w k : Nat} (x : BitVec w) :
    (x &&& ~~~(BitVec.ofNat w (2 ^ k - 1))).toNat = x.toNat / 2 ^ k * 2 ^ k := by
  have hshift : x &&& ~~~(BitVec.ofNat w (2 ^ k - 1)) = x >>> k <<< k := by
    refine BitVec.eq_of_getLsbD_eq fun i hi => ?_
    rw [BitVec.getLsbD_and, BitVec.getLsbD_not, BitVec.getLsbD_ofNat, Nat.testBit_two_pow_sub_one,
      BitVec.getLsbD_shiftLeft, BitVec.getLsbD_ushiftRight]
    by_cases hk : i < k
    · simp [hi, hk]
    · simp [hi, hk, Nat.add_sub_of_le (Nat.not_lt.mp hk)]
  have hle : x.toNat / 2 ^ k * 2 ^ k < 2 ^ w := (Nat.div_mul_le_self _ _).trans_lt x.isLt
  rw [hshift, BitVec.toNat_shiftLeft, BitVec.toNat_ushiftRight, Nat.shiftRight_eq_div_pow, Nat.shiftLeft_eq,
    Nat.mod_eq_of_lt hle]

theorem roundUp_eq {value k : Nat} (h : value + 2 ^ k ≤ 2 ^ 64) :
    roundUp value (2 ^ k) = (value + 2 ^ k - 1) / 2 ^ k * 2 ^ k := by
  have hpos : 0 < 2 ^ k := Nat.two_pow_pos k
  have hmask : BitVec.ofNat 64 (2 ^ k) - 1#64 = BitVec.ofNat 64 (2 ^ k - 1) := by
    refine BitVec.eq_of_toNat_eq ?_
    simp only [BitVec.toNat_sub, BitVec.toNat_ofNat]
    omega
  have hsum : (BitVec.ofNat 64 value + BitVec.ofNat 64 (2 ^ k) - 1#64).toNat = value + 2 ^ k - 1 := by
    simp only [BitVec.toNat_sub, BitVec.toNat_add, BitVec.toNat_ofNat]
    omega
  rw [roundUp, hmask, toNat_and_not_mask, hsum]

theorem le_roundUp {value k : Nat} (h : value + 2 ^ k ≤ 2 ^ 64) : value ≤ roundUp value (2 ^ k) := by
  have hpos : 0 < 2 ^ k := Nat.two_pow_pos k
  have hlt := Nat.lt_div_mul_add (a := value + 2 ^ k - 1) hpos
  rw [roundUp_eq h]
  omega

theorem dvd_roundUp {value k : Nat} (h : value + 2 ^ k ≤ 2 ^ 64) : 2 ^ k ∣ roundUp value (2 ^ k) := by
  rw [roundUp_eq h]
  exact Nat.dvd_mul_left _ _

/-! ## Regions -/

/-- The `size` bytes from `start` on. -/
structure Region where
  start : Nat
  size : Nat
  deriving DecidableEq, Repr

namespace Region

def Within (r b : Region) : Prop := b.start ≤ r.start ∧ r.start + r.size ≤ b.start + b.size

/-- No byte is in both. -/
def Apart (r s : Region) : Prop := r.start + r.size ≤ s.start ∨ s.start + s.size ≤ r.start

theorem Within.trans {r b c : Region} (h : r.Within b) (h' : b.Within c) : r.Within c :=
  ⟨h'.1.trans h.1, h.2.trans h'.2⟩

theorem Apart.symm {r s : Region} (h : r.Apart s) : s.Apart r := Or.symm h

theorem Apart.within {r b r' b' : Region} (h : b.Apart b') (hr : r.Within b) (hr' : r'.Within b') : r.Apart r' := by
  obtain ⟨h1, h2⟩ := hr
  obtain ⟨h3, h4⟩ := hr'
  rcases h with h | h
  · exact Or.inl (h2.trans (h.trans h3))
  · exact Or.inr (h4.trans (h.trans h1))

end Region

/-- The regions `cut` are in the blocks and apart from each other and from `rest`, which is empty or in a block. -/
structure Carved (blocks cut : List Region) (rest : Region) : Prop where
  apart : blocks.Pairwise Region.Apart
  inside : ∀ r ∈ cut, ∃ b ∈ blocks, r.Within b
  disjoint : cut.Pairwise Region.Apart
  free : rest.size = 0 ∨ ∃ b ∈ blocks, rest.Within b
  unused : ∀ r ∈ cut, r.Apart rest

namespace Carved

variable {blocks cut : List Region} {rest rest' r b : Region}

theorem take (h : Carved blocks cut rest) (hpos : 0 < r.size) (hr : r.Within rest) (hrest : rest'.Within rest)
    (hapart : r.Apart rest') : Carved blocks (r :: cut) rest' := by
  obtain ⟨c, hc, hin⟩ : ∃ c ∈ blocks, rest.Within c := by
    refine h.free.resolve_left fun h0 => ?_
    obtain ⟨h1, h2⟩ := hr
    omega
  have hwithin : ∀ {x : Region}, x.Within x := ⟨le_rfl, le_rfl⟩
  refine ⟨h.apart, ?_, ?_, Or.inr ⟨c, hc, hrest.trans hin⟩, ?_⟩
  · rintro x (_ | ⟨_, hx⟩)
    · exact ⟨c, hc, hr.trans hin⟩
    · exact h.inside x hx
  · exact List.pairwise_cons.mpr ⟨fun x hx => ((h.unused x hx).within hwithin hr).symm, h.disjoint⟩
  · rintro x (_ | ⟨_, hx⟩)
    · exact hapart
    · exact (h.unused x hx).within hwithin hrest

theorem grow (h : Carved blocks cut rest) (hb : ∀ c ∈ blocks, b.Apart c) (hrest : rest'.Within b) :
    Carved (b :: blocks) cut rest' := by
  refine ⟨List.pairwise_cons.mpr ⟨hb, h.apart⟩, fun x hx => ?_, h.disjoint, Or.inr ⟨b, .head _, hrest⟩, fun x hx => ?_⟩
  · obtain ⟨c, hc, hin⟩ := h.inside x hx
    exact ⟨c, .tail _ hc, hin⟩
  · obtain ⟨c, hc, hin⟩ := h.inside x hx
    exact (hb c hc).symm.within hin hrest

end Carved

end Regions
