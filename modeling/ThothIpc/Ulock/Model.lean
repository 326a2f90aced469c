import ThothIpc.Ulock.Clock

/-!
# The macOS mutex

The mutex of `platform/apple.rs` and `apple/mutex.h`, one atomic access of shared memory or one kernel event per step,
with processes that may die at any step.

* `Mem` : the two words of `ulock_mutex`, and the threads asleep in the kernel on the first;
* `Thread`, `Pc` : where a thread stands in `lock`, `lock_timeout`, `try_lock`, `try_recover_dead_holder` or `unlock`;
* `Thread.act` : what a thread may do next;
* `State.step` : the interleaving, with the clock and the deaths.

The kernel compares and waits: a thread goes to sleep only if the state word is 2, and a wake takes one sleeper, if
there is one, off the queue. A sleeper may also leave by a timeout or a spurious wakeup. `is_process_alive` answers
correctly. A thread unlocks only what it has locked. `woken` is read by no step: it says that the thread's last wait was
ended by a wake.
-/

namespace ThothIpc.Ulock

inductive Word where
  | unlocked
  | locked
  | waiters
  deriving DecidableEq, Repr

/-- What a thread asks for, with a timeout in milliseconds. -/
inductive Req where
  | lock
  | timed (l : Lang) (ms : Nat)
  | tryLock
  deriving DecidableEq, Repr

/-- What a thread is running, with its deadline in nanoseconds. -/
inductive Call where
  | lock
  | timed (l : Lang) (deadline : Nat)
  | tryLock
  deriving DecidableEq, Repr

variable {ι π : Type}

/-- The shared words and the kernel's queue. The holder word names a process, or none. -/
structure Mem (ι π : Type) where
  word : Word
  holder : Option π
  queue : List ι

/-- Where a thread stands. `asleep` is inside `__ulock_wait`, with the timeout and the time it was entered. -/
inductive Pc (π : Type) where
  | idle
  | spin (k : Nat)
  | load
  | upgrade
  | clock
  | wait (us : Nat)
  | asleep (us since : Nat)
  | tryCas (again : Bool)
  | recHolder
  | recAlive (p : π)
  | recSwap
  | recStore (old : Word)
  | recWake
  | store
  | held
  | unlockState
  | unlockWake
  deriving DecidableEq, Repr

structure Thread (π : Type) where
  call : Call
  contended : Bool
  tried : Bool
  woken : Bool
  pc : Pc π
  deriving DecidableEq, Repr

/-- `SPIN_COUNT`, `kMutexSpinCount`. -/
def spinCount : Nat := 40

namespace Thread

def start (now : Nat) : Req → Thread π
  | .lock => ⟨.lock, false, false, false, .spin 0⟩
  | .timed l ms => ⟨.timed l (now + ms * 1000000), false, false, false, .spin 0⟩
  | .tryLock => ⟨.tryLock, false, false, false, .tryCas false⟩

/-- What a successful exchange of the spin phase writes. -/
def taking (t : Thread π) : Word := if t.contended then .waiters else .locked

/-- On from the transition to "locked with waiters". -/
def toSleep (t : Thread π) : Thread π :=
  match t.call with
  | .timed _ _ => { t with pc := .clock }
  | _ => { t with pc := .wait 0 }

/-- The deadline has passed: recover once, then give up. -/
def giveUp (t : Thread π) : Thread π :=
  if t.tried then { t with pc := .idle } else { t with tried := true, pc := .recHolder }

def recovered (t : Thread π) : Thread π :=
  match t.call with
  | .tryLock => { t with pc := .tryCas true }
  | _ => { t with pc := .spin 0 }

end Thread

/-- What a thread does next; its wake is for `j`, or for nobody. -/
inductive TAct (ι : Type) where
  | call (r : Req)
  | unlock
  | go
  | wake (j : Option ι)
  | timeout
  | intr
  deriving DecidableEq, Repr

section Step
variable [DecidableEq ι]

/-- Take `i` off the queue. -/
def Mem.drop (m : Mem ι π) (i : ι) : Mem ι π := { m with queue := m.queue.filter (· ≠ i) }

/-- The next access of thread `i` of process `p`. -/
def Thread.step (alive : π → Bool) (now : Nat) (i : ι) (p : π) (m : Mem ι π) (t : Thread π) :
    Option (Mem ι π × Thread π) :=
  match t.pc with
  | .idle => none
  | .spin k =>
    if m.word = .unlocked then some ({ m with word := t.taking }, { t with pc := .store })
    else some (m, { t with pc := if k + 1 < spinCount then .spin (k + 1) else .load })
  | .load =>
    match m.word with
    | .unlocked => some (m, { t with pc := .spin 0 })
    | .locked => some (m, { t with pc := .upgrade })
    | .waiters => some (m, t.toSleep)
  | .upgrade =>
    if m.word = .locked then some ({ m with word := .waiters }, t.toSleep) else some (m, { t with pc := .spin 0 })
  | .clock =>
    match t.call with
    | .timed l deadline =>
      if deadline ≤ now then some (m, t.giveUp) else some (m, { t with pc := .wait (l.micros (deadline - now)) })
    | _ => none
  | .wait us =>
    if m.word = .waiters then some ({ m with queue := i :: m.queue }, { t with woken := false, pc := .asleep us now })
    else some (m, { t with contended := true, pc := .spin 0 })
  | .asleep _ _ =>
    if i ∈ m.queue then none else some (m, { t with contended := true, woken := true, pc := .spin 0 })
  | .tryCas again =>
    if m.word = .unlocked then some ({ m with word := .locked }, { t with pc := .store })
    else some (m, { t with pc := if again then .idle else .recHolder })
  | .recHolder =>
    match m.holder with
    | none => some (m, { t with pc := .idle })
    | some q => some (m, { t with pc := .recAlive q })
  | .recAlive q => some (m, { t with pc := if alive q then .idle else .recSwap })
  | .recSwap => some ({ m with word := .unlocked }, { t with pc := .recStore m.word })
  | .recStore old => some ({ m with holder := none }, if old = .waiters then { t with pc := .recWake } else t.recovered)
  | .recWake => some ({ m with queue := [] }, t.recovered)
  | .store => some ({ m with holder := some p }, { t with pc := .held })
  | .held => none
  | .unlockState =>
    some ({ m with word := .unlocked }, { t with pc := if m.word = .waiters then .unlockWake else .idle })
  | .unlockWake => none

/-- What thread `i` of process `p` may do. -/
def Thread.act (alive : π → Bool) (now : Nat) (i : ι) (p : π) (m : Mem ι π) (t : Thread π) :
    TAct ι → Option (Mem ι π × Thread π)
  | .call r =>
    match t.pc with
    | .idle => some (m, .start now r)
    | _ => none
  | .unlock =>
    match t.pc with
    | .held => some ({ m with holder := none }, { t with pc := .unlockState })
    | _ => none
  | .go => t.step alive now i p m
  | .wake j =>
    match t.pc, j with
    | .unlockWake, none => if m.queue = [] then some (m, { t with pc := .idle }) else none
    | .unlockWake, some j => if j ∈ m.queue then some (m.drop j, { t with pc := .idle }) else none
    | _, _ => none
  | .timeout =>
    match t.pc with
    | .asleep us since =>
      if i ∈ m.queue ∧ us ≠ 0 ∧ since + us * 1000 ≤ now then
        some (m.drop i, Thread.giveUp { t with contended := true })
      else none
    | _ => none
  | .intr =>
    match t.pc with
    | .asleep _ _ => if i ∈ m.queue then some (m.drop i, { t with contended := true, pc := .spin 0 }) else none
    | _ => none

/-! ## The moves of a thread, one by one -/

/-- What `Thread.act` may do to the shared words and to the thread, branch by branch. -/
inductive Moves (alive : π → Bool) (now : Nat) (i : ι) (p : π) (m : Mem ι π) (t : Thread π) : TAct ι → Mem ι π →
    Thread π → Prop
  | call (r : Req) (h : t.pc = .idle) : Moves alive now i p m t (.call r) m (.start now r)
  | take (k : Nat) (h : t.pc = .spin k) (hw : m.word = .unlocked) :
      Moves alive now i p m t .go { m with word := t.taking } { t with pc := .store }
  | miss (k : Nat) (h : t.pc = .spin k) (hw : m.word ≠ .unlocked) :
      Moves alive now i p m t .go m { t with pc := if k + 1 < spinCount then .spin (k + 1) else .load }
  | free (h : t.pc = .load) (hw : m.word = .unlocked) : Moves alive now i p m t .go m { t with pc := .spin 0 }
  | announce (h : t.pc = .load) (hw : m.word = .locked) : Moves alive now i p m t .go m { t with pc := .upgrade }
  | announced (h : t.pc = .load) (hw : m.word = .waiters) : Moves alive now i p m t .go m t.toSleep
  | raise (h : t.pc = .upgrade) (hw : m.word = .locked) :
      Moves alive now i p m t .go { m with word := .waiters } t.toSleep
  | changed (h : t.pc = .upgrade) (hw : m.word ≠ .locked) : Moves alive now i p m t .go m { t with pc := .spin 0 }
  | late (l : Lang) (d : Nat) (h : t.pc = .clock) (hc : t.call = .timed l d) (hd : d ≤ now) :
      Moves alive now i p m t .go m t.giveUp
  | early (l : Lang) (d : Nat) (h : t.pc = .clock) (hc : t.call = .timed l d) (hd : now < d) :
      Moves alive now i p m t .go m { t with pc := .wait (l.micros (d - now)) }
  | sleep (us : Nat) (h : t.pc = .wait us) (hw : m.word = .waiters) :
      Moves alive now i p m t .go { m with queue := i :: m.queue } { t with woken := false, pc := .asleep us now }
  | pass (us : Nat) (h : t.pc = .wait us) (hw : m.word ≠ .waiters) :
      Moves alive now i p m t .go m { t with contended := true, pc := .spin 0 }
  | woke (us since : Nat) (h : t.pc = .asleep us since) (hq : i ∉ m.queue) :
      Moves alive now i p m t .go m { t with contended := true, woken := true, pc := .spin 0 }
  | tryTake (again : Bool) (h : t.pc = .tryCas again) (hw : m.word = .unlocked) :
      Moves alive now i p m t .go { m with word := .locked } { t with pc := .store }
  | tryMiss (again : Bool) (h : t.pc = .tryCas again) (hw : m.word ≠ .unlocked) :
      Moves alive now i p m t .go m { t with pc := if again then .idle else .recHolder }
  | noHolder (h : t.pc = .recHolder) (hh : m.holder = none) : Moves alive now i p m t .go m { t with pc := .idle }
  | holder (q : π) (h : t.pc = .recHolder) (hh : m.holder = some q) :
      Moves alive now i p m t .go m { t with pc := .recAlive q }
  | test (q : π) (h : t.pc = .recAlive q) :
      Moves alive now i p m t .go m { t with pc := if alive q then .idle else .recSwap }
  | swap (h : t.pc = .recSwap) :
      Moves alive now i p m t .go { m with word := .unlocked } { t with pc := .recStore m.word }
  | clear (old : Word) (h : t.pc = .recStore old) : Moves alive now i p m t .go { m with holder := none }
      (if old = .waiters then { t with pc := .recWake } else t.recovered)
  | wakeAll (h : t.pc = .recWake) : Moves alive now i p m t .go { m with queue := [] } t.recovered
  | record (h : t.pc = .store) : Moves alive now i p m t .go { m with holder := some p } { t with pc := .held }
  | unlock (h : t.pc = .held) : Moves alive now i p m t .unlock { m with holder := none } { t with pc := .unlockState }
  | release (h : t.pc = .unlockState) : Moves alive now i p m t .go { m with word := .unlocked }
      { t with pc := if m.word = .waiters then .unlockWake else .idle }
  | wakeNobody (h : t.pc = .unlockWake) (hq : m.queue = []) :
      Moves alive now i p m t (.wake none) m { t with pc := .idle }
  | wakeOne (j : ι) (h : t.pc = .unlockWake) (hq : j ∈ m.queue) :
      Moves alive now i p m t (.wake (some j)) (m.drop j) { t with pc := .idle }
  | timeout (us since : Nat) (h : t.pc = .asleep us since) (hq : i ∈ m.queue) (hus : us ≠ 0)
      (hnow : since + us * 1000 ≤ now) :
      Moves alive now i p m t .timeout (m.drop i) (Thread.giveUp { t with contended := true })
  | intr (us since : Nat) (h : t.pc = .asleep us since) (hq : i ∈ m.queue) :
      Moves alive now i p m t .intr (m.drop i) { t with contended := true, pc := .spin 0 }

variable {alive : π → Bool} {now : Nat} {i : ι} {p : π} {m m' : Mem ι π} {t t' : Thread π}

theorem Thread.step_moves (h : t.step alive now i p m = some (m', t')) : Moves alive now i p m t .go m' t' := by
  unfold Thread.step at h
  split at h
  case h_2 k hpc =>
    split at h <;> cases h
    · exact .take k hpc ‹_›
    · exact .miss k hpc ‹_›
  case h_3 hpc =>
    split at h <;> cases h
    · exact .free hpc ‹_›
    · exact .announce hpc ‹_›
    · exact .announced hpc ‹_›
  case h_4 hpc =>
    split at h <;> cases h
    · exact .raise hpc ‹_›
    · exact .changed hpc ‹_›
  case h_5 hpc =>
    split at h
    · split at h <;> cases h
      · exact .late _ _ hpc ‹_› ‹_›
      · exact .early _ _ hpc ‹_› (Nat.lt_of_not_le ‹_›)
    · cases h
  case h_6 us hpc =>
    split at h <;> cases h
    · exact .sleep us hpc ‹_›
    · exact .pass us hpc ‹_›
  case h_7 us since hpc =>
    split at h <;> cases h
    exact .woke us since hpc ‹_›
  case h_8 again hpc =>
    split at h <;> cases h
    · exact .tryTake again hpc ‹_›
    · exact .tryMiss again hpc ‹_›
  case h_9 hpc =>
    split at h <;> cases h
    · exact .noHolder hpc ‹_›
    · exact .holder _ hpc ‹_›
  case h_10 q hpc => cases h; exact .test q hpc
  case h_11 hpc => cases h; exact .swap hpc
  case h_12 old hpc => cases h; exact .clear old hpc
  case h_13 hpc => cases h; exact .wakeAll hpc
  case h_14 hpc => cases h; exact .record hpc
  case h_16 hpc => cases h; exact .release hpc
  all_goals cases h

theorem Thread.act_moves {a : TAct ι} (h : t.act alive now i p m a = some (m', t')) :
    Moves alive now i p m t a m' t' := by
  cases a with
  | call r =>
    simp only [Thread.act] at h
    split at h <;> cases h
    exact .call r ‹_›
  | unlock =>
    simp only [Thread.act] at h
    split at h <;> cases h
    exact .unlock ‹_›
  | go => exact Thread.step_moves h
  | wake j =>
    simp only [Thread.act] at h
    split at h
    · split at h <;> cases h
      exact .wakeNobody ‹_› ‹_›
    · split at h <;> cases h
      exact .wakeOne _ ‹_› ‹_›
    · cases h
  | timeout =>
    simp only [Thread.act] at h
    split at h
    · split at h <;> cases h
      rename_i hc
      exact .timeout _ _ ‹_› hc.1 hc.2.1 hc.2.2
    · cases h
  | intr =>
    simp only [Thread.act] at h
    split at h
    · split at h <;> cases h
      exact .intr _ _ ‹_› ‹_›
    · cases h

end Step

/-! ## The system -/

/-- A mutex and its threads, the clock in nanoseconds, and which processes are alive. -/
structure State (ι π : Type) where
  mem : Mem ι π
  threads : ι → Thread π
  now : Nat
  alive : π → Bool

inductive Act (ι π : Type) where
  | thread (i : ι) (a : TAct ι)
  | tick (d : Nat)
  | kill (p : π)
  deriving DecidableEq, Repr

variable [DecidableEq ι] [DecidableEq π]

/-- The step of a system whose thread `i` belongs to process `proc i`. The kernel drops the sleepers of a dead
process. -/
def State.step (proc : ι → π) (s : State ι π) : Act ι π → Option (State ι π)
  | .thread i a =>
    if s.alive (proc i) then
      ((s.threads i).act s.alive s.now i (proc i) s.mem a).map fun x =>
        { s with mem := x.1, threads := Function.update s.threads i x.2 }
    else none
  | .tick d => some { s with now := s.now + d }
  | .kill p =>
    some { s with
      mem := { s.mem with queue := s.mem.queue.filter (proc · ≠ p) },
      alive := Function.update s.alive p false }

theorem State.step_cases {proc : ι → π} {s t : State ι π} {act : Act ι π} (h : s.step proc act = some t) :
    (∃ i a m th, act = .thread i a ∧ s.alive (proc i) = true ∧
    Moves s.alive s.now i (proc i) s.mem (s.threads i) a m th ∧
      t = { s with mem := m, threads := Function.update s.threads i th }) ∨
    (∃ d, act = .tick d ∧ t = { s with now := s.now + d }) ∨
    ∃ p, act = .kill p ∧ t = { s with
      mem := { s.mem with queue := s.mem.queue.filter (proc · ≠ p) },
      alive := Function.update s.alive p false } := by
  cases act with
  | thread i a =>
    simp only [State.step] at h
    split at h
    · rename_i hal
      obtain ⟨⟨m, th⟩, hp, rfl⟩ := Option.map_eq_some_iff.mp h
      exact Or.inl ⟨i, a, m, th, rfl, hal, Thread.act_moves hp, rfl⟩
    · cases h
  | tick d =>
    cases h
    exact Or.inr (Or.inl ⟨d, rfl, rfl⟩)
  | kill p =>
    cases h
    exact Or.inr (Or.inr ⟨p, rfl, rfl⟩)

end ThothIpc.Ulock
