import ThothIpc.Lib.Run

/-!
# Deadlines and the microseconds asked of the kernel

`__ulock_wait` takes a 32-bit timeout in microseconds, where 0 means none. The timed waits of `apple.rs`, `condition.rs`
and `semaphore.rs` and those of `apple/*.h` compute it from a deadline and a clock reading, both in nanoseconds.

* `Lang.micros` : the conversion, as either language has it.
-/

namespace ThothIpc.Ulock

inductive Lang where
  | rust
  | cpp
  deriving DecidableEq, Repr

/-- `u32::MAX`, `UINT32_MAX`. -/
def u32Max : Nat := 2 ^ 32 - 1

/-- The timeout for `rem` nanoseconds. -/
def Lang.micros : Lang → Nat → Nat
  | .rust, rem => if u32Max < rem / 1000 then u32Max else rem / 1000
  | .cpp, rem => if 0 < rem / 1000 ∧ rem / 1000 < u32Max then rem / 1000 else u32Max

theorem u32Max_pos : 0 < u32Max := by decide

/-- In C++ never, and in Rust not from a microsecond on, is the kernel asked to wait for ever. -/
theorem Lang.micros_ne_zero {l : Lang} {rem : Nat} (h : l = .rust → 1000 ≤ rem) : l.micros rem ≠ 0 := by
  have hmax := u32Max_pos
  cases l with
  | rust =>
    have := h rfl
    simp only [Lang.micros]
    split <;> omega
  | cpp =>
    simp only [Lang.micros]
    split <;> omega

end ThothIpc.Ulock
