import Mathlib

/-!
# Byte strings: checked accesses and little-endian words

* `index`, `slice` : reading a list at an index or between two, with a fault outside it; `index_eq`, `slice_eq` inside;
* `checkedAdd` : addition of machine words that refuses to overflow;
* `byteAt`, `le16`, `le32` : the bytes of a word and the words of two and four bytes; each is the other's inverse.
-/

namespace Bytes

/-- An index or a slice outside a list. -/
inductive Fault where
  | bounds
  deriving DecidableEq, Repr

section Access

variable {α : Type}

def index (data : List α) (i : Nat) : Except Fault α :=
  match data[i]? with
  | some b => .ok b
  | none => .error .bounds

def slice (data : List α) (i j : Nat) : Except Fault (List α) :=
  if i ≤ j ∧ j ≤ data.length then .ok ((data.drop i).take (j - i)) else .error .bounds

theorem index_eq {data : List α} {i : Nat} (h : i < data.length) : index data i = .ok data[i] := by
  unfold index
  rw [List.getElem?_eq_getElem h]

theorem slice_eq {data : List α} {i j : Nat} (hi : i ≤ j) (hj : j ≤ data.length) :
    slice data i j = .ok ((data.drop i).take (j - i)) := by
  unfold slice
  rw [if_pos ⟨hi, hj⟩]

end Access

/-- `a + b` in words of `w` bits, or nothing if it does not fit. -/
def checkedAdd (w a b : Nat) : Option Nat := if a + b < 2 ^ w then some (a + b) else none

theorem checkedAdd_eq {w a b : Nat} (h : a + b < 2 ^ w) : checkedAdd w a b = some (a + b) := if_pos h

abbrev Byte := BitVec 8

/-! ## Little-endian words -/

/-- The byte of a word that starts at bit `k`. -/
def byteAt {w : Nat} (v : BitVec w) (k : Nat) : Byte := ((v >>> k) &&& 0xFF#w).setWidth 8

def le16 (a b : Byte) : BitVec 16 := a.setWidth 16 ||| (b.setWidth 16 <<< 8)

def le32 (a b c d : Byte) : BitVec 32 :=
  a.setWidth 32 ||| (b.setWidth 32 <<< 8) ||| (c.setWidth 32 <<< 16) ||| (d.setWidth 32 <<< 24)

theorem toNat_byteAt {w : Nat} (hw : 8 ≤ w) (v : BitVec w) (k : Nat) : (byteAt v k).toNat = v.toNat / 2 ^ k % 256 := by
  have hmask : (0xFF#w).toNat = 2 ^ 8 - 1 := by
    rw [BitVec.toNat_ofNat]
    exact Nat.mod_eq_of_lt (lt_of_lt_of_le (by norm_num) (Nat.pow_le_pow_right (by norm_num) hw))
  rw [byteAt, BitVec.toNat_setWidth, BitVec.toNat_and, hmask, Nat.and_two_pow_sub_one_eq_mod, BitVec.toNat_ushiftRight,
    Nat.shiftRight_eq_div_pow]
  omega

theorem toNat_or_shift {w k : Nat} (v : BitVec w) (b : Byte) (hv : v.toNat < 2 ^ k) (hk : k + 8 ≤ w) :
    (v ||| (b.setWidth w <<< k)).toNat = v.toNat + 2 ^ k * b.toNat := by
  have hb : b.toNat * 2 ^ k < 2 ^ w := by
    calc b.toNat * 2 ^ k < 2 ^ 8 * 2 ^ k := Nat.mul_lt_mul_of_pos_right b.isLt (Nat.two_pow_pos k)
      _ = 2 ^ (k + 8) := by rw [← Nat.pow_add, Nat.add_comm]
      _ ≤ 2 ^ w := Nat.pow_le_pow_right (by norm_num) hk
  have hlt : b.toNat < 2 ^ w := lt_of_lt_of_le b.isLt (Nat.pow_le_pow_right (by norm_num) (by omega))
  rw [BitVec.toNat_or, BitVec.toNat_shiftLeft, BitVec.toNat_setWidth, Nat.mod_eq_of_lt hlt, Nat.shiftLeft_eq,
    Nat.mod_eq_of_lt hb, Nat.or_comm, Nat.mul_comm, ← Nat.two_pow_add_eq_or_of_lt hv, Nat.add_comm]

theorem toNat_le16 (a b : Byte) : (le16 a b).toNat = a.toNat + 2 ^ 8 * b.toNat := by
  have ha : (a.setWidth 16).toNat = a.toNat := by
    rw [BitVec.toNat_setWidth]
    omega
  rw [le16, toNat_or_shift _ _ (by rw [ha]; exact a.isLt) (by norm_num), ha]

theorem toNat_le32 (a b c d : Byte) :
    (le32 a b c d).toNat = a.toNat + 2 ^ 8 * b.toNat + 2 ^ 16 * c.toNat + 2 ^ 24 * d.toNat := by
  have h0 : (a.setWidth 32).toNat = a.toNat := by
    rw [BitVec.toNat_setWidth]
    omega
  have h1 := toNat_or_shift (k := 8) (a.setWidth 32) b (by rw [h0]; exact a.isLt) (by norm_num)
  have h2 := toNat_or_shift (k := 16) _ c (by rw [h1]; omega) (by norm_num)
  rw [le32, toNat_or_shift (k := 24) _ d (by rw [h2]; omega) (by norm_num), h2, h1, h0]

theorem le16_byteAt (v : BitVec 16) : le16 (byteAt v 0) (byteAt v 8) = v := by
  apply BitVec.eq_of_toNat_eq
  rw [toNat_le16, toNat_byteAt (by norm_num), toNat_byteAt (by norm_num)]
  omega

theorem le32_byteAt (v : BitVec 32) : le32 (byteAt v 0) (byteAt v 8) (byteAt v 16) (byteAt v 24) = v := by
  apply BitVec.eq_of_toNat_eq
  rw [toNat_le32]
  simp only [toNat_byteAt (show 8 ≤ 32 by norm_num)]
  omega

theorem byteAt_le16 (a b : Byte) : byteAt (le16 a b) 0 = a ∧ byteAt (le16 a b) 8 = b := by
  constructor <;> apply BitVec.eq_of_toNat_eq <;> rw [toNat_byteAt (by norm_num), toNat_le16] <;> omega

theorem byteAt_le32 (a b c d : Byte) : byteAt (le32 a b c d) 0 = a ∧ byteAt (le32 a b c d) 8 = b ∧
    byteAt (le32 a b c d) 16 = c ∧ byteAt (le32 a b c d) 24 = d := by
  refine ⟨?_, ?_, ?_, ?_⟩ <;> apply BitVec.eq_of_toNat_eq <;> rw [toNat_byteAt (by norm_num), toNat_le32] <;> omega

end Bytes
