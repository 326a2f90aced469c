import Mathlib

/-!
# Bit masks and wrapping cursors

* `getLsbD_and_neg`, `getLsbD_and_sub_one` : `m &&& -m` is the lowest set bit of `m`, `m &&& (m - 1)` the others;
  `exists_lowest` names that bit;
* `and_twoPow_eq_zero`, `twoPow_inj` : masks of one bit;
* `exists_lowest_clear` : `m ||| (m + 1)` sets the lowest clear bit of `m`; `eq_allOnes_of_or` : unless there is none;
* `ofNat_inj_near` : two cursors less than `2 ^ w` apart are equal only if the positions are;
* `ofNat_sub_ofNat`, `toInt_ofNat_nonneg_iff` : the signed wrapping comparison of two cursors.
-/

namespace Bits

/-! ## One bit -/

theorem and_twoPow_eq_zero {w : Nat} {x : BitVec w} {b : Nat} (hb : b < w) :
    x &&& BitVec.twoPow w b = 0 ↔ x.getLsbD b = false := by
  constructor
  · intro h
    have hbit := congrArg (fun y => y.getLsbD b) h
    simp only [BitVec.getLsbD_and, BitVec.getLsbD_twoPow, hb, decide_true, Bool.and_true, BitVec.ofNat_eq_ofNat,
      BitVec.getLsbD_zero] at hbit
    exact hbit
  · intro h
    refine BitVec.eq_of_getLsbD_eq fun i _ => ?_
    rw [BitVec.getLsbD_and, BitVec.getLsbD_twoPow]
    by_cases hi : b = i
    · subst hi; simp [h]
    · simp [hi]

theorem twoPow_inj {w k l : Nat} (hk : k < w) (h : BitVec.twoPow w k = BitVec.twoPow w l) : k = l := by
  have hb := congrArg (fun x => BitVec.getLsbD x k) h
  simpa [hk] using hb.symm

/-! ## The lowest set bit -/

theorem getLsbD_and_neg {w : Nat} (m : BitVec w) (i : Nat) :
    (m &&& -m).getLsbD i = (m.getLsbD i && !decide (∃ j < i, m.getLsbD j = true)) := by
  rw [BitVec.getLsbD_and, BitVec.getLsbD_neg]
  by_cases hi : i < w
  · cases m.getLsbD i <;> simp [hi]
  · simp [BitVec.getLsbD_of_ge m i (by omega)]

theorem getLsbD_and_sub_one {w : Nat} (m : BitVec w) (i : Nat) :
    (m &&& (m - 1)).getLsbD i = (m.getLsbD i && decide (∃ j < i, m.getLsbD j = true)) := by
  have hsub : m - 1 = ~~~(-m) := (BitVec.not_neg m).symm
  rw [hsub, BitVec.getLsbD_and, BitVec.getLsbD_not, BitVec.getLsbD_neg]
  by_cases hi : i < w
  · cases m.getLsbD i <;> simp [hi]
  · simp [BitVec.getLsbD_of_ge m i (by omega)]

theorem exists_lowest {w : Nat} (m : BitVec w) (hm : m ≠ 0) :
    ∃ l < w, m.getLsbD l = true ∧ (∀ j < l, m.getLsbD j = false) ∧ m &&& -m = BitVec.twoPow w l ∧
      ∀ i, (m &&& (m - 1)).getLsbD i = (m.getLsbD i && decide (i ≠ l)) := by
  have hex : ∃ l, m.getLsbD l = true := by
    by_contra hno
    push Not at hno
    exact hm (BitVec.eq_of_getLsbD_eq fun i _ => by simpa using hno i)
  have hl := Nat.find_spec hex
  have hmin : ∀ j < Nat.find hex, m.getLsbD j = false := fun j hj => by simpa using Nat.find_min hex hj
  have hlow : ∀ i, (∃ j < i, m.getLsbD j = true) ↔ Nat.find hex < i := fun i =>
    ⟨fun ⟨j, hj, hb⟩ => (Nat.find_min' hex hb).trans_lt hj, fun h => ⟨_, h, hl⟩⟩
  refine ⟨Nat.find hex, BitVec.lt_of_getLsbD hl, hl, hmin, BitVec.eq_of_getLsbD_eq fun i hi => ?_, fun i => ?_⟩
  · rw [getLsbD_and_neg, BitVec.getLsbD_twoPow]
    simp only [hlow]
    rcases lt_trichotomy i (Nat.find hex) with h | h | h
    · simp [hmin i h, h.ne']
    · simp [h, hl, h ▸ hi]
    · simp [h, h.ne]
  · rw [getLsbD_and_sub_one]
    simp only [hlow]
    rcases lt_trichotomy i (Nat.find hex) with h | h | h
    · simp [hmin i h]
    · simp [h]
    · simp [h, h.ne']

/-! ## The lowest clear bit -/

theorem eq_allOnes_of_or {w : Nat} {m : BitVec w} (h : m ||| (m + 1) = m) : m = BitVec.allOnes w := by
  have hle : (m + 1).toNat ≤ m.toNat := by
    rw [← h, BitVec.toNat_or, h]
    exact Nat.right_le_or
  have hlt := m.isLt
  refine BitVec.eq_of_toNat_eq ?_
  rw [BitVec.toNat_allOnes]
  by_contra hne
  have hw : 0 < w := by
    by_contra hw
    have : w = 0 := by omega
    subst this
    omega
  rw [BitVec.toNat_add, show (1 : BitVec w).toNat = 1 from BitVec.toNat_one hw, Nat.mod_eq_of_lt (by omega)] at hle
  omega

/-- Setting the lowest clear bit: if `m ||| (m + 1)` is not `m` itself, they differ in one bit, clear in `m`. -/
theorem exists_lowest_clear {w : Nat} (m : BitVec w) (hm : m ||| (m + 1) ≠ m) :
    ∃ l < w, m.getLsbD l = false ∧ (∀ j < l, m.getLsbD j = true) ∧
      (m ||| (m + 1)) ^^^ m = BitVec.twoPow w l ∧
      ∀ i, (m ||| (m + 1)).getLsbD i = (m.getLsbD i || decide (i = l)) := by
  have hor : m ||| (m + 1) = ~~~(~~~m &&& (~~~m - 1)) := by
    have hsub : ~~~m - 1 = ~~~(-(~~~m)) := (BitVec.not_neg _).symm
    rw [hsub, BitVec.neg_eq_not_add, BitVec.not_and, BitVec.not_not, BitVec.not_not]
    rfl
  have hne : ~~~m ≠ 0 := by
    intro h0
    refine hm ?_
    rw [hor, h0, show (0 : BitVec w) &&& (0 - 1) = 0 from BitVec.zero_and, ← h0, BitVec.not_not]
  obtain ⟨l, hlt, hl, hmin, -, hrest⟩ := exists_lowest (~~~m) hne
  have hbit : ∀ i < w, (~~~m).getLsbD i = !m.getLsbD i := fun i hi => by simp [hi]
  rw [hbit l hlt, Bool.not_eq_true'] at hl
  have hset : ∀ i, (m ||| (m + 1)).getLsbD i = (m.getLsbD i || decide (i = l)) := by
    intro i
    rw [hor, BitVec.getLsbD_not, hrest]
    by_cases hi : i < w
    · simp [hi]
    · simp [BitVec.getLsbD_of_ge m i (by omega), show i ≠ l by omega, hi]
  refine ⟨l, hlt, hl, fun j hj => ?_, BitVec.eq_of_getLsbD_eq fun i _ => ?_, hset⟩
  · have := hmin j hj
    rwa [hbit j (hj.trans hlt), Bool.not_eq_false'] at this
  · rw [BitVec.getLsbD_xor, hset, BitVec.getLsbD_twoPow]
    by_cases h : i = l
    · subst h
      simp only [hl, hlt, decide_true, Bool.or_true, Bool.xor_false, Bool.and_self]
    · simp [h, show l ≠ i from fun e => h e.symm]

/-! ## Wrapping cursors -/

/-- Two cursors less than one wrap apart are equal only if their positions are. -/
theorem ofNat_inj_near {w p q : Nat} (hpq : p ≤ q) (hd : q - p < 2 ^ w) :
    BitVec.ofNat w p = BitVec.ofNat w q ↔ p = q := by
  constructor
  · intro h
    have hm : p % 2 ^ w = q % 2 ^ w := by simpa using congrArg BitVec.toNat h
    have hzero := Nat.eq_zero_of_dvd_of_lt ((Nat.modEq_iff_dvd' hpq).mp hm) hd
    omega
  · rintro rfl; rfl

theorem ofNat_inj_close {w p q : Nat} (h1 : p < q + 2 ^ w) (h2 : q < p + 2 ^ w) :
    BitVec.ofNat w p = BitVec.ofNat w q ↔ p = q := by
  rcases Nat.le_total p q with h | h
  · exact ofNat_inj_near h (by omega)
  · rw [eq_comm, ofNat_inj_near h (by omega), eq_comm]

theorem ofNat_add_one {w p : Nat} : BitVec.ofNat w p + 1 = BitVec.ofNat w (p + 1) := by
  rw [BitVec.ofNat_add]; rfl

theorem ofNat_sub_ofNat {w p q : Nat} (h : q ≤ p) :
    BitVec.ofNat w p - BitVec.ofNat w q = BitVec.ofNat w (p - q) := by
  have : BitVec.ofNat w p = BitVec.ofNat w (p - q) + BitVec.ofNat w q := by
    rw [← BitVec.ofNat_add, Nat.sub_add_cancel h]
  rw [this, BitVec.add_sub_cancel]

/-- The signed reading of a cursor difference is non-negative in the lower half of the wrap. -/
theorem toInt_ofNat_nonneg_iff {d : Nat} : 0 ≤ (BitVec.ofNat 32 d).toInt ↔ d % 2 ^ 32 < 2 ^ 31 := by
  rw [BitVec.toInt_eq_toNat_cond, BitVec.toNat_ofNat]
  split <;> omega

theorem low_clear_iff {w : Nat} (x : BitVec w) (k : Nat) : (∀ i < k, x.getLsbD i = false) ↔ x.toNat % 2 ^ k = 0 := by
  constructor
  · intro h
    refine Nat.eq_of_testBit_eq fun i => ?_
    rw [Nat.testBit_mod_two_pow, Nat.zero_testBit]
    by_cases hi : i < k
    · simp only [hi, decide_true, Bool.true_and]
      exact h i hi
    · simp only [hi, decide_false, Bool.false_and]
  · intro h i hi
    have hbit := Nat.testBit_mod_two_pow x.toNat k i
    rw [h, Nat.zero_testBit] at hbit
    simp only [hi, decide_true, Bool.true_and] at hbit
    exact hbit.symm

theorem getLsbD_zeroExtend (x : BitVec 32) (i : Nat) : (x.setWidth 64).getLsbD i = x.getLsbD i := by
  rw [BitVec.getLsbD_setWidth]
  by_cases hi : i < 64
  · simp [hi]
  · simp [BitVec.getLsbD_of_ge x i (by omega)]

end Bits
