import ThothIpc.Lib.Bits

/-!
# The owner table: `since` and live marks

One `SlotOwner` per connection bit. A receiver records in `since` the write cursor it read before it claimed its bit;
`live_marks` keeps, of the marks found on the element that held position `pos`, those whose receiver started at or
before `pos`. It walks the set bits from the lowest up and loads one `since` per bit: `liveStep` is one turn of that
loop, `liveMarks` the whole of it over a fixed table.

* `getLsbD_liveMarks` : bit by bit, `liveMarks` is the mark and the wrapping comparison;
* `isLive_iff` : the comparison answers "at or after" exactly below half a wrap.
-/

namespace ThothIpc

/-- The largest number of connection bits. -/
def maxSlots : Nat := 32

/-- One owner record per connection bit. -/
structure SlotOwner where
  pid : Int
  since : BitVec 32
  startTok : Nat
  deriving DecidableEq, Repr

/-- Bit position of a single-bit connection id (`trailing_zeros`). -/
def slotIndex (bit : BitVec 32) : Nat :=
  (List.range maxSlots).findIdx fun j => bit.getLsbD j

theorem slotIndex_twoPow {b : Nat} (hb : b < 32) : slotIndex (BitVec.twoPow 32 b) = b := by
  have : ∀ b : Fin 32, slotIndex (BitVec.twoPow 32 b) = b := by decide
  exact this ⟨b, hb⟩

/-- `pos` is at or after `since`, wrapping. -/
def isLive (since pos : BitVec 32) : Bool := decide (0 ≤ (pos - since).toInt)

/-- One turn of the loop of `live_marks`: the lowest bit of `m` is taken out, and kept in `live` if it counts. -/
def liveStep (owners : Nat → SlotOwner) (pos m live : BitVec 32) : BitVec 32 × BitVec 32 :=
  let bit := m &&& -m
  let since := (owners (slotIndex bit)).since
  (m &&& (m - 1), if isLive since pos then live ||| bit else live)

/-- The loop of `live_marks`, at most `fuel` turns. -/
def liveLoop (owners : Nat → SlotOwner) (pos : BitVec 32) : Nat → BitVec 32 → BitVec 32 → BitVec 32
  | 0, _, live => live
  | fuel + 1, m, live =>
    if m = 0 then live
    else liveLoop owners pos fuel (liveStep owners pos m live).1 (liveStep owners pos m live).2

/-- Of the marks `bits` found on the element that held `pos`, those whose receiver started at or before `pos`. -/
def liveMarks (owners : Nat → SlotOwner) (bits pos : BitVec 32) : BitVec 32 :=
  liveLoop owners pos maxSlots bits 0

/-- What one turn does: some set bit `l` leaves `m`, and enters `live` if its receiver had started. -/
theorem liveStep_spec (owners : Nat → SlotOwner) (pos m live : BitVec 32) (hm : m ≠ 0) :
    ∃ l < 32, m.getLsbD l = true ∧ (∀ j < l, m.getLsbD j = false) ∧
      (∀ j, (liveStep owners pos m live).1.getLsbD j = (m.getLsbD j && decide (j ≠ l))) ∧
      ∀ j, (liveStep owners pos m live).2.getLsbD j =
        (live.getLsbD j || (decide (j = l) && isLive (owners l).since pos)) := by
  obtain ⟨l, hl, hml, hmin, hbit, hrest⟩ := Bits.exists_lowest m hm
  refine ⟨l, hl, hml, hmin, fun j => hrest j, fun j => ?_⟩
  simp only [liveStep, hbit, slotIndex_twoPow hl]
  split
  · rename_i h
    rw [BitVec.getLsbD_or, BitVec.getLsbD_twoPow]
    simp [h, hl, eq_comm]
  · rename_i h
    simp [h]

theorem getLsbD_liveLoop (owners : Nat → SlotOwner) (pos : BitVec 32) (j : Nat) :
    ∀ (fuel : Nat) (m live : BitVec 32), (∀ i < 32 - fuel, m.getLsbD i = false) →
      (liveLoop owners pos fuel m live).getLsbD j =
        (live.getLsbD j || (m.getLsbD j && isLive (owners j).since pos))
  | 0, m, live, h => by
    have hm : m.getLsbD j = false := by
      by_cases hj : j < 32
      · exact h j (by omega)
      · exact BitVec.getLsbD_of_ge m j (by omega)
    simp [liveLoop, hm]
  | fuel + 1, m, live, h => by
    unfold liveLoop
    split
    · rename_i hm
      simp [hm]
    · rename_i hm
      obtain ⟨l, hl, hml, hmin, h1, h2⟩ := liveStep_spec owners pos m live hm
      -- the bit taken out is the lowest one, so one more bit is known to be clear
      rw [getLsbD_liveLoop owners pos j fuel _ _ (fun i hi => ?_), h1, h2]
      · by_cases hj : j = l
        · subst hj; simp [hml]
        · simp [hj]
      · rw [h1]
        by_cases hil : i = l
        · simp [hil]
        · have : m.getLsbD i = false := by
            by_cases hlt : i < 32 - (fuel + 1)
            · exact h i hlt
            · refine hmin i ?_
              have : ¬ l < 32 - (fuel + 1) := fun hc => by rw [h l hc] at hml; cases hml
              omega
          simp [this]

theorem getLsbD_liveMarks (owners : Nat → SlotOwner) (bits pos : BitVec 32) (j : Nat) :
    (liveMarks owners bits pos).getLsbD j = (bits.getLsbD j && isLive (owners j).since pos) := by
  rw [liveMarks, getLsbD_liveLoop owners pos j maxSlots bits 0 (fun i hi => by simp [maxSlots] at hi)]
  simp

/-- A position at or after `since` counts as such exactly in the first half of each wrap. -/
theorem isLive_iff {σ p : Nat} (h : σ ≤ p) :
    isLive (BitVec.ofNat 32 σ) (BitVec.ofNat 32 p) = true ↔ (p - σ) % 2 ^ 32 < 2 ^ 31 := by
  rw [isLive, decide_eq_true_iff, Bits.ofNat_sub_ofNat h, Bits.toInt_ofNat_nonneg_iff]

end ThothIpc
