import ThothIpc.Ulock.Clock

/-!
# Timed waits and their deadlines

The timed mutex lock, condition wait and semaphore wait of both languages are one loop: look at the word, read the
clock, turn what is left into microseconds, sleep, and decide by what the kernel answers. They differ in a few points,
which `Waiter` lists.

* `Pass` : what one pass of the loop meets;
* `Waiter.run` : the sleeps it asks for and how it ends;
* `Honours` : no sleep is unbounded or ends more than a microsecond late, and no timeout is reported with a microsecond
  left;
* `deadline_honoured` : all six waits do, as long as the remaining times are measured.
-/

namespace ThothIpc.Ulock

/-- What a pass finds at its word: what it waits for, a change that sends it round again (the mutex only), or
nothing. -/
inductive Poll where
  | done
  | again
  | wait
  deriving DecidableEq, Repr

/-- How `__ulock_wait` comes back: without an error, interrupted, or with `ETIMEDOUT` at time `t`. -/
inductive Outcome where
  | woken
  | eintr
  | timedOut (t : Nat)
  deriving DecidableEq, Repr

/-- One pass: what is found, the clock reading, the kernel's answer, and whether the last look before giving up
succeeds. -/
structure Pass where
  poll : Poll
  now : Nat
  outcome : Outcome
  found : Bool
  deriving DecidableEq, Repr

/-- How a wait ends: with what it waited for, or by a timeout reported at time `t`. -/
inductive Result where
  | done
  | timeout (t : Nat)
  deriving DecidableEq, Repr

/-- The sleeps a wait asks for, each with the clock reading before it, and its end. -/
structure Trace where
  sleeps : List (Nat × Nat)
  result : Option Result
  deriving DecidableEq, Repr

/-- Where the timed waits differ. -/
structure Waiter where
  lang : Lang
  /-- It looks at its word before each clock reading. -/
  polls : Bool
  /-- It gives up when no whole microsecond is left. -/
  whole : Bool
  /-- A return from the kernel without an error is a notification. -/
  once : Bool
  /-- It recovers from a dead holder before it gives up, once. -/
  recovers : Bool
  /-- It looks at its word again after `ETIMEDOUT`. -/
  rechecks : Bool
  deriving DecidableEq, Repr

/-- `PlatformMutex::lock_timeout`. -/
def lockTimeout : Waiter := ⟨.rust, true, false, false, true, false⟩

/-- `AppleCondition::wait_with_timeout`. -/
def waitWithTimeout : Waiter := ⟨.rust, true, false, false, false, true⟩

/-- `AppleSemaphore::wait`. -/
def semaphoreWait : Waiter := ⟨.rust, true, true, false, false, false⟩

/-- `mutex::lock` of `apple/mutex.h`. -/
def cppMutexLock : Waiter := ⟨.cpp, true, false, false, true, false⟩

/-- `condition::wait` of `apple/condition.h`. -/
def cppConditionWait : Waiter := ⟨.cpp, false, false, true, false, false⟩

/-- `semaphore::wait` of `apple/semaphore_impl.h`. -/
def cppSemaphoreWait : Waiter := ⟨.cpp, true, false, false, false, false⟩

inductive Primitive where
  | mutex
  | condition
  | semaphore
  deriving DecidableEq, Repr

def waiter : Lang → Primitive → Waiter
  | .rust, .mutex => lockTimeout
  | .rust, .condition => waitWithTimeout
  | .rust, .semaphore => semaphoreWait
  | .cpp, .mutex => cppMutexLock
  | .cpp, .condition => cppConditionWait
  | .cpp, .semaphore => cppSemaphoreWait

namespace Waiter

/-- What the wait makes of its word. -/
def poll (w : Waiter) (p : Pass) : Poll := if w.polls then p.poll else .wait

/-- The wait over the passes `ps`; `tried` is the mutex's `tried_recovery`. -/
def run (w : Waiter) (deadline : Nat) : Bool → List Pass → Trace
  | _, [] => ⟨[], none⟩
  | tried, p :: ps =>
    let giveUp t := if w.recovers && !tried && p.found then w.run deadline true ps else ⟨[], some (.timeout t)⟩
    match w.poll p with
    | .done => ⟨[], some .done⟩
    | .again => w.run deadline tried ps
    | .wait =>
      if deadline ≤ p.now then giveUp p.now
      else if w.whole && (deadline - p.now) / 1000 == 0 then ⟨[], some (.timeout p.now)⟩
      else
        let rest : Trace :=
          match p.outcome with
          | .woken => if w.once then ⟨[], some .done⟩ else w.run deadline tried ps
          | .eintr => w.run deadline tried ps
          | .timedOut t => if w.rechecks && p.found then ⟨[], some .done⟩ else giveUp t
        { rest with sleeps := (p.now, w.lang.micros (deadline - p.now)) :: rest.sleeps }

end Waiter

/-- The kernel's part: a wait times out once the given microseconds have passed, and never if it was given none. -/
def Pass.Kernel (w : Waiter) (deadline : Nat) (p : Pass) : Prop :=
  w.poll p = .wait → p.now < deadline → ∀ t, p.outcome = .timedOut t →
    w.lang.micros (deadline - p.now) ≠ 0 ∧ p.now + w.lang.micros (deadline - p.now) * 1000 ≤ t

/-- What is left at a clock reading is a whole microsecond or more (or is checked to be), and fits the kernel's 32 bits
if the sleep runs out. -/
def Pass.Measured (w : Waiter) (deadline : Nat) (p : Pass) : Prop :=
  w.poll p = .wait → p.now < deadline → (w.whole = true ∨ 1000 ≤ deadline - p.now) ∧
    ∀ t, p.outcome = .timedOut t → (deadline - p.now) / 1000 ≤ u32Max

/-- Every sleep is bounded and ends at most a microsecond after the deadline, and a timeout is reported only when less
than a microsecond is left. -/
structure Honours (deadline : Nat) (r : Trace) : Prop where
  sleeps : ∀ now us, (now, us) ∈ r.sleeps → us ≠ 0 ∧ now + us * 1000 ≤ deadline + 1000
  timeout : ∀ t, r.result = some (.timeout t) → deadline < t + 1000

/-! ## The sleeps -/

theorem Lang.micros_le {l : Lang} {rem : Nat} (h : 1000 ≤ rem) : l.micros rem * 1000 ≤ rem := by
  have hle : l.micros rem ≤ rem / 1000 := by
    cases l with
    | rust =>
      rw [Lang.micros]
      split
      · exact Nat.le_of_lt ‹_›
      · exact Nat.le_refl _
    | cpp =>
      rw [Lang.micros]
      split
      · exact Nat.le_refl _
      · rename_i hn
        exact Nat.le_of_not_lt fun hlt => hn ⟨by omega, hlt⟩
  omega

theorem Lang.micros_eq {l : Lang} {rem : Nat} (h : 1000 ≤ rem) (hle : rem / 1000 ≤ u32Max) :
    l.micros rem = rem / 1000 := by
  cases l with
  | rust => rw [Lang.micros, if_neg (Nat.not_lt.mpr hle)]
  | cpp =>
    rw [Lang.micros]
    split
    · rfl
    · rename_i hn
      exact Nat.le_antisymm (Nat.le_of_not_lt fun hlt => hn ⟨by omega, hlt⟩) hle

theorem honours_done (deadline : Nat) : Honours deadline ⟨[], some .done⟩ := ⟨nofun, nofun⟩

theorem honours_timeout {deadline t : Nat} (h : deadline < t + 1000) : Honours deadline ⟨[], some (.timeout t)⟩ := by
  refine ⟨nofun, fun t' ht => ?_⟩
  cases ht
  exact h

theorem Honours.cons {deadline now us : Nat} {r : Trace} (h : Honours deadline r) (hus : us ≠ 0)
    (hle : now + us * 1000 ≤ deadline + 1000) : Honours deadline { r with sleeps := (now, us) :: r.sleeps } := by
  refine ⟨fun now' us' hm => ?_, h.timeout⟩
  rcases List.mem_cons.mp hm with he | hm
  · cases he
    exact ⟨hus, hle⟩
  · exact h.sleeps now' us' hm

theorem Waiter.honours (w : Waiter) (deadline : Nat) (tried : Bool) (ps : List Pass) (hk : ∀ p ∈ ps, p.Kernel w deadline)
    (hm : ∀ p ∈ ps, p.Measured w deadline) : Honours deadline (w.run deadline tried ps) := by
  induction ps generalizing tried with
  | nil => exact ⟨nofun, nofun⟩
  | cons p ps ih =>
    have ih := fun tried => ih tried (fun q hq => hk q (List.mem_cons_of_mem p hq)) fun q hq =>
      hm q (List.mem_cons_of_mem p hq)
    have hk := hk p List.mem_cons_self
    have hm := hm p List.mem_cons_self
    have hgive : ∀ t, deadline < t + 1000 →
        Honours deadline (if w.recovers && !tried && p.found then w.run deadline true ps
        else ⟨[], some (.timeout t)⟩) := by
      intro t ht
      split
      · exact ih true
      · exact honours_timeout ht
    simp only [Waiter.run]
    split
    · exact honours_done deadline
    · exact ih tried
    · rename_i hpoll
      split
      · rename_i hlate
        exact hgive p.now (by omega)
      · rename_i hearly
        split
        · rename_i hwhole
          simp only [Bool.and_eq_true, beq_iff_eq] at hwhole
          exact honours_timeout (by omega)
        · rename_i hwhole
          obtain ⟨hleft, hfit⟩ := hm hpoll (by omega)
          have hleft : 1000 ≤ deadline - p.now := by
            rcases hleft with hw | hleft
            · simp only [hw, Bool.true_and, beq_iff_eq] at hwhole
              omega
            · exact hleft
          have hus := Lang.micros_le (l := w.lang) hleft
          refine Honours.cons ?_ (Lang.micros_ne_zero fun _ => hleft) (by omega)
          split
          · split
            · exact honours_done deadline
            · exact ih tried
          · exact ih tried
          · rename_i t hout
            split
            · exact honours_done deadline
            · have ht := (hk hpoll (by omega) t hout).2
              rw [Lang.micros_eq hleft (hfit t hout)] at ht
              exact hgive t (by omega)

/-- **The timed waits honour their deadlines**, in either language and for each primitive, whatever the kernel's
answers, as long as the remaining times are measured. -/
theorem deadline_honoured (l : Lang) (k : Primitive) (start ms : Nat) (ps : List Pass)
    (hk : ∀ p ∈ ps, p.Kernel (waiter l k) (start + ms * 1000000))
    (hm : ∀ p ∈ ps, p.Measured (waiter l k) (start + ms * 1000000)) :
    Honours (start + ms * 1000000) ((waiter l k).run (start + ms * 1000000) false ps) :=
  (waiter l k).honours _ false ps hk hm

/-- A condition wait of a millisecond that is interrupted at once, reads the clock again after 400 microseconds and then
runs out. -/
def interrupted : List Pass := [⟨.wait, 0, .eintr, false⟩, ⟨.wait, 400000, .timedOut 1000000, false⟩]

theorem deadline_honoured_interrupted :
    (waiter .rust .condition).run 1000000 false interrupted = ⟨[(0, 1000), (400000, 600)], some (.timeout 1000000)⟩ ∧
      Honours (0 + 1 * 1000000) ((waiter .rust .condition).run (0 + 1 * 1000000) false interrupted) := by
  refine ⟨by decide, deadline_honoured .rust .condition 0 1 interrupted ?_ ?_⟩
  · simp only [interrupted, List.forall_mem_cons]
    refine ⟨fun _ _ t ht => (by cases ht), fun _ _ t ht => ?_, nofun⟩
    cases ht
    decide
  · simp only [interrupted, List.forall_mem_cons]
    refine ⟨fun _ _ => ⟨Or.inr (by decide), fun _ _ => by decide⟩,
      fun _ _ => ⟨Or.inr (by decide), fun _ _ => by decide⟩, nofun⟩

/-- **Some waits are not bounded by their deadline.** With half a microsecond left, the Rust mutex and condition sleep
without a timeout, the C++ waits 71 minutes; a timeout of 4294968 milliseconds ends 0.7 seconds early. -/
theorem overslept :
    (∀ k ∈ [Primitive.mutex, .condition],
      ((waiter .rust k).run 1000000 false [⟨.wait, 999500, .woken, false⟩]).sleeps.head? = some (999500, 0)) ∧
    (∀ k ∈ [Primitive.mutex, .condition, .semaphore],
      ((waiter .cpp k).run 1000000 false [⟨.wait, 999500, .woken, false⟩]).sleeps.head? = some (999500, u32Max) ∧
        1000000 + 1000 < 999500 + u32Max * 1000) ∧
    ∀ l ∈ [Lang.rust, .cpp], ∀ k ∈ [Primitive.mutex, .condition, .semaphore],
      ((waiter l k).run (4294968 * 1000000) false [⟨.wait, 0, .timedOut (u32Max * 1000), false⟩]).result =
        some (.timeout (u32Max * 1000)) ∧ u32Max * 1000 + 1000 ≤ 4294968 * 1000000 := by
  decide +kernel

end ThothIpc.Ulock
