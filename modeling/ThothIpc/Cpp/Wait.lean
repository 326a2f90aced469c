import ThothIpc.Lib.Run

/-!
# `wait_for`

`wait_for` of `ipc.cpp` evaluates a predicate until it is false: 65 times between pauses, then inside `wait_if` of
`waiter.h`, around the waits on its condition. The predicate is where a send pushes and a receive pops.

* `WaitPc`, `WaitPc.asks` : where a thread stands, and what its next step asks: the predicate, the waiter's quit flag,
  or the condition;
* `WaitPc.next` : where the answer leads;
* `WaitPc.next_true` : `wait_for` returns true after a predicate that was false, or after the quit flag was set.
-/

namespace ThothIpc.Cpp

/-- Where a thread stands in `wait_for`: its only try if there is no time to wait, a try of the spin phase, or a place
in `wait_if` before or under its lock. -/
inductive WaitPc where
  | once
  | spin (k : Nat)
  | quit
  | pred
  | quitLocked
  | predLocked
  | cond
  deriving DecidableEq, Repr

inductive Ask where
  | predicate
  | quitFlag
  | condition
  deriving DecidableEq, Repr

namespace WaitPc

def start (tm : Nat) : WaitPc := if tm = 0 then .once else .spin 0

def asks : WaitPc → Ask
  | .once => .predicate
  | .spin _ => .predicate
  | .quit => .quitFlag
  | .pred => .predicate
  | .quitLocked => .quitFlag
  | .predLocked => .predicate
  | .cond => .condition

/-- Where the answer leads: the value of the predicate or of the flag, or whether the condition was notified in time. -/
def next : WaitPc → Bool → WaitPc ⊕ Bool
  | .once, b => .inr !b
  | .spin k, b => if b then .inl (if k < 64 then .spin (k + 1) else .quit) else .inr true
  | .quit, b => if b then .inr true else .inl .pred
  | .pred, b => if b then .inl .quitLocked else .inr true
  | .quitLocked, b => if b then .inr true else .inl .predLocked
  | .predLocked, b => if b then .inl .cond else .inr true
  | .cond, b => if b then .inl .quitLocked else .inr false

/-- **`wait_for` returns true** after a predicate that was false, or after the quit flag was set. -/
theorem next_true {w : WaitPc} {b : Bool} (h : w.next b = .inr true) :
    w.asks = .predicate ∧ b = false ∨ w.asks = .quitFlag ∧ b = true := by
  cases w <;> cases b <;> simp_all [next, asks]

theorem next_predicate {w : WaitPc} (h : w.asks = .predicate) : w.next false = .inr true := by
  cases w <;> simp_all [next, asks]

end WaitPc
end ThothIpc.Cpp
