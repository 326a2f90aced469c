import ThothIpc.Futex.Calls

/-!
# How `wait_if` leaves the mutex

`Waiter::wait_if` on Linux: it locks the waiter's mutex, waits on the condition while the predicate is true, and
unlocks. Each of the three can fail, and an error is returned at once.

* `lockFor`, `condWait`, `waitIf` : `PlatformMutex::lock_for`, `PlatformCondition::wait` and `Waiter::wait_if`;
* `InRange`, `Event.timely` : a timeout whose deadline can be computed and is accepted;
* `wait_if_leaves` : then the thread does not own the mutex when `wait_if` returns.

`u32::MAX` stands for no timeout. What the quit flag is and what the predicate gives is up to the environment.
-/

namespace ThothIpc.Futex.Calls
open Prog

/-! ## Deadlines -/

def infiniteMs : BitVec 64 := 0xffffffff

def nsPerSec : Int := 1000000000

/-- An `i64`, after an overflow. -/
def wrap (x : Int) : Int := x.bmod (2 ^ 64)

def clockAdd (ts : Timespec) (addNsec : Int) : Timespec :=
  let sec := wrap (ts.sec + addNsec.tdiv nsPerSec)
  let nsec := ts.nsec + addNsec.tmod nsPerSec
  if nsPerSec ≤ nsec then ⟨wrap (sec + 1), nsec - nsPerSec⟩
  else if nsec < 0 then ⟨wrap (sec - 1), nsec + nsPerSec⟩
  else ⟨sec, nsec⟩

def deadlineValid (ts : Timespec) : Bool :=
  !(ts.sec < 0 || ts.nsec < 0 || (ts.sec == 0 && ts.nsec == 0) || nsPerSec ≤ ts.nsec)

/-- The timeout in nanoseconds, as an `i64`. -/
def addNs (tm : BitVec 64) : Int := (tm * 1000000).toInt

section Definitions

variable {μ : Type} [DecidableEq μ] (tid : Tid)

def clockNow : Prog (Mem μ) (Event μ) (Except Errno Timespec) := do
  match ← ask with
  | .now r => return r
  | _ => impossible

def makeDeadline (tm : BitVec 64) : Prog (Mem μ) (Event μ) (Except Errno Timespec) := do
  if addNs tm < 0 then return .error .einval
  else
    match ← clockNow with
    | .error e => return .error e
    | .ok now => return .ok (clockAdd now (addNs tm))

/-! ## The mutex, the condition and the waiter -/

/-- What `lock_for` makes of a result; a dead owner's mutex is made consistent, released and locked again. -/
def lockResult (m : μ) : A0Result → Prog (Mem μ) (Event μ) (Option (Except Errno Bool))
  | .ok () => return some (.ok true)
  | .error .etimedout => return some (.ok false)
  | .error .eownerdead => do
      match ← mtxConsistent tid m with
      | .error e => return some (.error e)
      | .ok () =>
        match ← mtxUnlock tid m with
        | .error e => return some (.error e)
        | .ok () => return none
  | .error e => return some (.error e)

def lockForTurn (n : Nat) (m : μ) (tm : BitVec 64) : Prog (Mem μ) (Event μ) (Option (Except Errno Bool)) := do
  if tm = infiniteMs then lockResult tid m (← mtxTimedlock tid n m none)
  else
    match ← makeDeadline tm with
    | .error e => return some (.error e)
    | .ok deadline => lockResult tid m (← mtxTimedlock tid n m (some deadline))

def lockFor (n : Nat) (m : μ) (tm : BitVec 64) : Prog (Mem μ) (Event μ) (Except Errno Bool) :=
  untilSome (lockForTurn tid n m tm) n

def lock (n : Nat) (m : μ) : Prog (Mem μ) (Event μ) A0Result := do
  match ← lockFor tid n m infiniteMs with
  | .error e => return .error e
  | .ok true => return .ok ()
  | .ok false => return .error .etimedout

/-- What `PlatformCondition::wait` makes of a result. -/
def waitResult (m : μ) : A0Result → Prog (Mem μ) (Event μ) (Except Errno Bool)
  | .ok () => return .ok true
  | .error .etimedout => return .ok false
  | .error .eownerdead => do
      match ← mtxConsistent tid m with
      | .error e => return .error e
      | .ok () => return .ok true
  | .error e => return .error e

def condWait (n : Nat) (m : μ) (timeout : Option (BitVec 64)) : Prog (Mem μ) (Event μ) (Except Errno Bool) := do
  if timeout.getD infiniteMs = infiniteMs then waitResult tid m (← cndTimedwait tid n m none)
  else
    match ← makeDeadline (timeout.getD infiniteMs) with
    | .error e => return .error e
    | .ok deadline =>
      if ¬ deadlineValid deadline then return .error .einval
      else waitResult tid m (← cndTimedwait tid n m (some deadline))

/-- The value of the quit flag or of the predicate. -/
def check : Prog (Mem μ) (Event μ) Bool := do
  match ← ask with
  | .check b => return b
  | _ => impossible

/-- The loop's condition: not told to quit, and the predicate is true. -/
def goesOn : Prog (Mem μ) (Event μ) Bool := do
  if ← check then return false else check

/-- `lock.unlock()?`, and then the result. -/
def unlockAnd (m : μ) (b : Bool) : Prog (Mem μ) (Event μ) (Except Errno Bool) := do
  match ← mtxUnlock tid m with
  | .error e => return .error e
  | .ok () => return .ok b

/-- One turn of the loop of `wait_if`. -/
def waitIfTurn (n : Nat) (m : μ) (timeout : Option (BitVec 64)) :
    Prog (Mem μ) (Event μ) (Option (Except Errno Bool)) := do
  if ← goesOn then
    match ← condWait tid n m timeout with
    | .error e => return some (.error e)
    | .ok false => return some (← unlockAnd tid m false)
    | .ok true => return none
  else return some (← unlockAnd tid m true)

def waitIf (n : Nat) (m : μ) (timeout : Option (BitVec 64)) : Prog (Mem μ) (Event μ) (Except Errno Bool) := do
  match ← lock tid n m with
  | .error e => return .error e
  | .ok () => untilSome (waitIfTurn tid n m timeout) n

end Definitions

/-! ## Which timeouts work -/

/-- No timeout, or one that is not negative as a number of nanoseconds in an `i64`. -/
def InRange (timeout : Option (BitVec 64)) : Prop :=
  timeout.getD infiniteMs = infiniteMs ∨ 0 ≤ addNs (timeout.getD infiniteMs)

/-- When a deadline is computed, the clock can be read, and the deadline is one that the condition accepts. -/
def Event.timely {μ : Type} (timeout : Option (BitVec 64)) : Event μ → Bool
  | now (.ok ts) => deadlineValid (clockAdd ts (addNs (timeout.getD infiniteMs)))
  | now (.error _) => false
  | _ => true

section Specs

variable {μ : Type} {tid : Tid} {F : Event μ → Prop} {s t : Mem μ} {m : μ} {n : Nat}

/-- What the words say of the thread, whatever its list is. -/
def Mem.bare (tid : Tid) (s : Mem μ) : View μ := { list := none, hold := fun m => tid.hold (s.word m), init := s.init }

theorem Mem.shows_bare : s.Shows tid (s.bare tid) :=
  ⟨fun _ => rfl, rfl, fun _ hl => (nomatch hl), fun _ hl => (nomatch hl)⟩

theorem Mem.bare_complete : (s.bare tid).Complete := fun _ hl => (nomatch hl)

theorem makeDeadline_spec {tm : BitVec 64} : After F (makeDeadline tm : Prog (Mem μ) (Event μ) _) s fun _ t =>
    t = s := by
  unfold makeDeadline
  split
  next => exact .pure rfl
  next =>
    refine .bind (.bind (.ask fun e _ => ?_))
    split
    next r _ =>
      refine .pure ?_
      cases r with
      | error e => exact .pure rfl
      | ok ts => exact .pure rfl
    next => exact .impossible

variable {timeout : Option (BitVec 64)}

theorem makeDeadline_valid (hr : 0 ≤ addNs (timeout.getD infiniteMs)) (hF : ∀ e, F e → e.timely timeout = true) :
    After F (makeDeadline (timeout.getD infiniteMs) : Prog (Mem μ) (Event μ) _) s fun r t =>
      t = s ∧ ∃ d, r = .ok d ∧ deadlineValid d = true := by
  unfold makeDeadline
  rw [if_neg (not_lt.mpr hr)]
  refine .bind (.bind (.ask fun e he => ?_))
  have ht := hF e he
  split
  next r =>
    refine .pure ?_
    cases r with
    | error e => cases ht
    | ok ts => exact .pure ⟨rfl, _, rfl, ht⟩
  next => exact .impossible

theorem goesOn_spec : After F (goesOn : Prog (Mem μ) (Event μ) Bool) s fun _ t => t = s := by
  have hc : After F (check : Prog (Mem μ) (Event μ) Bool) s fun _ t => t = s := by
    refine .bind (.ask fun e _ => ?_)
    split
    next => exact .pure rfl
    next => exact .impossible
  refine .bind (hc.mono ?_)
  rintro b t rfl
  split
  next => exact .pure rfl
  next => exact hc

variable [DecidableEq μ]

theorem timedlock_hold {deadline : Option Timespec} (h : tid.hold (s.word m) = none) :
    After F (mtxTimedlock tid n m deadline) s fun r t =>
      tid.hold (t.word m) = if acquired r then some (died r) else none := by
  refine (mtxTimedlock_spec Mem.shows_bare).mono fun r t ht => ?_
  rw [ht.shows.hold m]
  split
  next => exact View.put_hold_self ..
  next => exact h

theorem consistent_hold (h : tid.hold (s.word m) = some true) :
    After F (mtxConsistent tid m) s fun r t => r = .ok () ∧ tid.hold (t.word m) = some false := by
  refine (mtxConsistent_spec Mem.shows_bare h).mono fun r t ht => ⟨ht.1, ?_⟩
  rw [ht.2.hold m, View.put_hold_self]

theorem unlock_hold (hF : Unlocks F) {d : Bool} (h : tid.hold (s.word m) = some d) :
    After F (mtxUnlock tid m) s fun r t => r = .ok () ∧ tid.hold (t.word m) = none := by
  refine (mtxUnlock_spec hF Mem.shows_bare Mem.bare_complete).mono ?_
  rintro r t (⟨hn, -, -⟩ | ⟨-, rfl, ht⟩)
  · cases hn.symm.trans h
  · exact ⟨rfl, (ht.hold m).trans (View.unlock_hold_self ..)⟩

theorem condwait_hold (hF : Unlocks F) {deadline : Option Timespec} {d : Bool} (h : tid.hold (s.word m) = some d) :
    After F (cndTimedwait tid n m deadline) s fun r t =>
      tid.hold (t.word m) = if back r then some (died r) else none := by
  refine (cndTimedwait_spec hF Mem.shows_bare Mem.bare_complete).mono ?_
  rintro r t (⟨hn, -, -⟩ | ⟨-, ht⟩)
  · cases hn.symm.trans h
  · rw [Mem.Shows.hold ht m]
    split
    next => exact View.put_hold_self ..
    next => exact View.unlock_hold_self ..

theorem lockResult_hold (hF : Unlocks F) {r : A0Result}
    (h : tid.hold (s.word m) = if acquired r then some (died r) else none) :
    After F (lockResult tid m r) s fun r' t => r'.elim (tid.hold (t.word m) = none) fun x =>
      tid.hold (t.word m) = if x = .ok true then some false else none := by
  unfold lockResult
  split
  next => exact .pure h
  next => exact .pure h
  next =>
    refine .bind ((consistent_hold h).mono ?_)
    rintro r t ⟨rfl, ht⟩
    refine .bind ((unlock_hold hF ht).mono ?_)
    rintro r u ⟨rfl, hu⟩
    exact .pure hu
  next e _ he =>
    rw [acquired_error he] at h
    exact .pure h

theorem lockFor_hold (hF : Unlocks F) {tm : BitVec 64} (h : tid.hold (s.word m) = none) :
    After F (lockFor tid n m tm) s fun x t =>
      tid.hold (t.word m) = if x = .ok true then some false else none := by
  refine .untilSome (fun t => tid.hold (t.word m) = none) h fun t ht => ?_
  unfold lockForTurn
  split
  next => exact .bind ((timedlock_hold ht).mono fun r u hu => lockResult_hold hF hu)
  next =>
    refine .bind (makeDeadline_spec.mono ?_)
    rintro (e | d) u rfl
    · exact .pure ht
    · exact .bind ((timedlock_hold ht).mono fun r u hu => lockResult_hold hF hu)

theorem lock_hold (hF : Unlocks F) (h : tid.hold (s.word m) = none) :
    After F (lock tid n m) s fun r t => tid.hold (t.word m) = if r = .ok () then some false else none := by
  refine .bind ((lockFor_hold hF h).mono ?_)
  rintro (e | _ | _) t ht
  · exact .pure ht
  · exact .pure ht
  · exact .pure ht

theorem waitResult_hold {r : A0Result} (h : tid.hold (s.word m) = if back r then some (died r) else none) :
    After F (waitResult tid m r) s fun x t => tid.hold (t.word m) = if x.isOk then some false else none := by
  unfold waitResult
  split
  next => exact .pure h
  next => exact .pure h
  next =>
    refine .bind ((consistent_hold h).mono ?_)
    rintro r t ⟨rfl, ht⟩
    exact .pure ht
  next e hl he =>
    rw [back_error he hl] at h
    exact .pure h

theorem condWait_hold (hU : Unlocks F) (hr : InRange timeout) (hF : ∀ e, F e → e.timely timeout = true)
    (h : tid.hold (s.word m) = some false) :
    After F (condWait tid n m timeout) s fun x t => tid.hold (t.word m) = if x.isOk then some false else none := by
  unfold condWait
  split
  next => exact .bind ((condwait_hold hU h).mono fun r t ht => waitResult_hold ht)
  next hne =>
    refine .bind ((makeDeadline_valid (hr.resolve_left hne) hF).mono ?_)
    rintro r t ⟨rfl, d, rfl, hd⟩
    dsimp only
    rw [if_neg (not_not.mpr hd)]
    exact .bind ((condwait_hold hU h).mono fun r t ht => waitResult_hold ht)

theorem unlockAnd_hold (hU : Unlocks F) {b : Bool} (h : tid.hold (s.word m) = some false) :
    After F (unlockAnd tid m b) s fun _ t => tid.hold (t.word m) = none := by
  refine .bind ((unlock_hold hU h).mono ?_)
  rintro r t ⟨rfl, ht⟩
  exact .pure ht

/-- One turn of the loop: the thread holds the mutex before the next, and does not after the last. -/
theorem waitIfTurn_hold (hU : Unlocks F) (hr : InRange timeout) (hF : ∀ e, F e → e.timely timeout = true)
    (h : tid.hold (s.word m) = some false) :
    After F (waitIfTurn tid n m timeout) s fun r t =>
      r.elim (tid.hold (t.word m) = some false) fun _ => tid.hold (t.word m) = none := by
  refine .bind (goesOn_spec.mono ?_)
  rintro b t rfl
  split
  next =>
    refine .bind ((condWait_hold hU hr hF h).mono ?_)
    rintro (e | _ | _) u hu
    · exact .pure hu
    · exact .bind ((unlockAnd_hold hU hu).mono fun _ _ hx => .pure hx)
    · exact .pure hu
  next => exact .bind ((unlockAnd_hold hU h).mono fun _ _ hx => .pure hx)

theorem waitIf_hold (hU : Unlocks F) (hr : InRange timeout) (hF : ∀ e, F e → e.timely timeout = true)
    (h : tid.hold (s.word m) = none) :
    After F (waitIf tid n m timeout) s fun _ t => tid.hold (t.word m) = none := by
  refine .bind ((lock_hold hU h).mono ?_)
  rintro (e | ⟨⟩) t ht
  · exact .pure ht
  · exact .untilSome (fun t => tid.hold (t.word m) = some false) ht fun u hu => waitIfTurn_hold hU hr hF hu

end Specs

end ThothIpc.Futex.Calls
