import Mathlib

/-!
# The ring slot's message record

A slot's `data_` holds one `msg_t<64,8>`. `write_msg` fills it with five copies, one after the other; `read_header` and
`read_payload` take the same five fields out again, in the same order. Neither is atomic, so both are sequences of
steps here: `MsgT.copy` is the `k`-th of the copies, in either direction, and `Agree k` says that the first `k` fields
of two records are equal.

The payload bytes past the length that `remain` announces are left out: no reader copies them.
-/

namespace ThothIpc

/-- `msg_t<64,8>`: the header fields and the payload bytes of one fragment. -/
structure MsgT where
  ccId : BitVec 32
  id : BitVec 32
  remain : Int
  storage : Bool
  payload : List UInt8
  deriving DecidableEq, Repr

namespace MsgT

/-- The number of copies in `write_msg`, and in a read. -/
def fields : Nat := 5

/-- The `k`-th copy from `src` into `dst`. -/
def copy (src : MsgT) (k : Nat) (dst : MsgT) : MsgT :=
  match k with
  | 0 => { dst with ccId := src.ccId }
  | 1 => { dst with id := src.id }
  | 2 => { dst with remain := src.remain }
  | 3 => { dst with storage := src.storage }
  | _ => { dst with payload := src.payload }

/-- The first `k` fields are equal. -/
def Agree (k : Nat) (a b : MsgT) : Prop :=
  (0 < k → a.ccId = b.ccId) ∧ (1 < k → a.id = b.id) ∧ (2 < k → a.remain = b.remain) ∧
    (3 < k → a.storage = b.storage) ∧ (4 < k → a.payload = b.payload)

theorem agree_zero (a b : MsgT) : Agree 0 a b := by
  simp [Agree]

theorem Agree.copy {k : Nat} {a b : MsgT} (h : Agree k a b) (hk : k < fields) : Agree (k + 1) a (a.copy k b) := by
  obtain ⟨h0, h1, h2, h3, -⟩ := h
  have hcases : k = 0 ∨ k = 1 ∨ k = 2 ∨ k = 3 ∨ k = 4 := by
    simp only [fields] at hk
    omega
  rcases hcases with rfl | rfl | rfl | rfl | rfl <;> simp_all [Agree, MsgT.copy]

theorem Agree.eq {k : Nat} {a b : MsgT} (h : Agree k a b) (hk : fields ≤ k) : a = b := by
  obtain ⟨h0, h1, h2, h3, h4⟩ := h
  simp only [fields] at hk
  obtain ⟨c, i, r, s, p⟩ := a
  simp only at h0 h1 h2 h3 h4
  rw [h0 (by omega), h1 (by omega), h2 (by omega), h3 (by omega), h4 (by omega)]

end MsgT

/-- What a receiving call's local copy of the record starts from. -/
def blank : MsgT := ⟨0, 0, 0, false, []⟩

end ThothIpc
