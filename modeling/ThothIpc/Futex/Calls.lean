import ThothIpc.Futex.Mutex
import ThothIpc.Lib.Prog
import ThothIpc.Lib.Circular

/-!
# The calls of the Linux mutex, with every answer of the kernel

`linux.rs`, the functions `mtx_*` and `cnd_timedwait` as one thread executes them, on any number of mutexes. A mutex has
a futex word and the links of the robust list, in which the kernel looks for what a dead thread held. The list's head is
the thread's own. Before each access other threads may write to the words and, of mutexes that the thread does not own,
to the links; the system calls and the clocks give any result.

* `Mem`, `Write`, `Event` : the memory, what others do to it, and an answer of the environment;
* `mtxTimedlock`, `mtxTrylock`, `mtxConsistent`, `mtxUnlock`, `cndTimedwait` : the functions of the source;
* `View` : what a thread holds and what is in its list, whatever the others do;
* `mtxTimedlock_spec`, `mtxTrylock_spec`, `mtxUnlock_spec`, `cndTimedwait_spec` : what the calls do to the view.

`FUTEX_LOCK_PI`, `FUTEX_TRYLOCK_PI` and `FUTEX_WAIT_REQUEUE_PI` succeed only by giving the thread a mutex that it does
not own. A dead owner is reported in the word: no call fails with `EOWNERDEAD`. A call without a timeout does not time
out. The condition's word and the converted deadlines are only read by the kernel, and are left out.
-/

namespace ThothIpc.Futex.Calls
open Function Prog

/-! ## Memory -/

/-- A thread id: not 0, without the two bits, and not the one of a mutex that is not recoverable. -/
structure Tid where
  val : BitVec 32
  pos : val ≠ 0
  mask : val &&& tidMask = val
  ne : val ≠ tidMask

/-- The thread with the id 1. -/
def one : Tid := ⟨1, by decide, by decide, by decide⟩

inductive Errno where
  | eintr
  | etimedout
  | eagain
  | eownerdead
  | enotrecoverable
  | ebusy
  | eperm
  | einval
  | other (n : Nat)
  deriving DecidableEq, Repr

abbrev A0Result := Except Errno Unit

/-- What a link leads to: the thread's head, a mutex, or something else (no address, another thread's head). -/
inductive Node (μ : Type) where
  | head
  | mtx (m : μ)
  | other (n : Nat)
  deriving DecidableEq, Repr

/-- The mutexes, and the thread's robust list head: whether it is registered, and the pending operation. -/
structure Mem (μ : Type) where
  word : μ → BitVec 32
  next : Node μ → Node μ
  prev : Node μ → Node μ
  init : Bool
  pending : Option μ

/-- A thread that has never used a mutex, and mutexes that nobody has used. -/
def Mem.fresh {μ : Type} : Mem μ :=
  { word := fun _ => 0, next := fun _ => .other 0, prev := fun _ => .other 0, init := false, pending := none }

structure Timespec where
  sec : Int
  nsec : Int
  deriving DecidableEq, Repr

/-- What another thread, or the kernel for it, writes. -/
inductive Write (μ : Type) where
  | word (m : μ) (w : BitVec 32)
  | links (m : μ) (next prev : Node μ)

/-- An answer of the environment: what others do before an access to a futex word; a system call's result, with the word
it leaves; whether a deadline could be converted; a clock, a flag or a predicate. -/
inductive Event (μ : Type) where
  | access (others : List (Write μ))
  | lockPi (others : List (Write μ)) (r : Except Errno (BitVec 32))
  | trylockPi (others : List (Write μ)) (r : Except Errno (BitVec 32))
  | unlockPi (others : List (Write μ)) (r : Except Errno (BitVec 32))
  | waitRequeuePi (others : List (Write μ)) (r : Except Errno (BitVec 32))
  | convert (r : Except Errno Unit)
  | now (r : Except Errno Timespec)
  | check (b : Bool)

/-- The answer is not the failure of a `FUTEX_UNLOCK_PI`. -/
def Event.unlocks {μ : Type} : Event μ → Bool
  | unlockPi _ (.error _) => false
  | _ => true

section Definitions

variable {μ : Type} [DecidableEq μ] (tid : Tid)

def Mem.owns (s : Mem μ) (m : μ) : Prop := ftxTid (s.word m) = tid.val

instance (s : Mem μ) (m : μ) : Decidable (s.owns tid m) := inferInstanceAs (Decidable (_ = _))

/-- The thread's robust list is well formed and has exactly the mutexes that it owns. -/
def Mem.Mirrors (s : Mem μ) : Prop :=
  ∃ l : List μ, (if s.init then Circular s.next s.prev .head (l.map .mtx) else l = []) ∧ ∀ m, m ∈ l ↔ s.owns tid m

/-- A write of another thread: it does not take what the thread owns, and does not make it the owner. -/
def Mem.write (s : Mem μ) : Write μ → Option (Mem μ)
  | .word m w =>
    if s.owns tid m then
      if w ||| waiters = s.word m ||| waiters then some { s with word := update s.word m w } else none
    else if ftxTid w = tid.val then none
    else some { s with word := update s.word m w }
  | .links m next prev =>
    if s.owns tid m then none
    else some { s with next := update s.next (.mtx m) next, prev := update s.prev (.mtx m) prev }

def Mem.interfere : List (Write μ) → Mem μ → Option (Mem μ)
  | [], s => some s
  | w :: ws, s => (s.write tid w).bind (interfere ws)

def others (ws : List (Write μ)) : Prog (Mem μ) (Event μ) Unit := do
  match (← get).interfere tid ws with
  | some s => set s
  | none => impossible

def access : Prog (Mem μ) (Event μ) Unit := do
  match ← ask with
  | .access ws => others tid ws
  | _ => impossible

def store (m : μ) (w : BitVec 32) : Prog (Mem μ) (Event μ) Unit :=
  modify fun s => { s with word := update s.word m w }

def load (m : μ) : Prog (Mem μ) (Event μ) (BitVec 32) := do
  access tid
  return (← get).word m

/-- `compare_exchange`, with the word it found if that is not the old one. -/
def compareExchange (m : μ) (old new : BitVec 32) : Prog (Mem μ) (Event μ) (Except (BitVec 32) Unit) := do
  let w ← load tid m
  if w = old then
    store m new
    return .ok ()
  else return .error w

def cas (m : μ) (old new : BitVec 32) : Prog (Mem μ) (Event μ) Bool := do
  match ← compareExchange tid m old new with
  | .ok () => return true
  | .error _ => return false

def fetchOr (m : μ) (v : BitVec 32) : Prog (Mem μ) (Event μ) Unit := do
  let w ← load tid m
  store m (w ||| v)

def fetchAnd (m : μ) (v : BitVec 32) : Prog (Mem μ) (Event μ) Unit := do
  let w ← load tid m
  store m (w &&& v)

/-! ## System calls -/

/-- `clock_convert`: two clocks are read. -/
def clockConvert : Prog (Mem μ) (Event μ) A0Result := do
  match ← ask with
  | .convert r => if r = .error .eownerdead then impossible else return r
  | _ => impossible

/-- The end of a call that takes the mutex. -/
def taken (m : μ) (r : Except Errno (BitVec 32)) : Prog (Mem μ) (Event μ) A0Result := do
  match r with
  | .error e => return .error e
  | .ok w =>
    let s ← get
    if ¬ s.owns tid m ∧ ftxTid w = tid.val then
      store m w
      return .ok ()
    else impossible

def lockPi (m : μ) (timeout : Bool) : Prog (Mem μ) (Event μ) A0Result := do
  match ← ask with
  | .lockPi ws r =>
    others tid ws
    if r = .error .eownerdead ∨ (r = .error .etimedout ∧ timeout = false) then impossible
    else taken tid m r
  | _ => impossible

def ftxLockPi (m : μ) (deadline : Option Timespec) : Prog (Mem μ) (Event μ) A0Result := do
  match deadline with
  | none => lockPi tid m false
  | some _ =>
    match ← clockConvert with
    | .error e => return .error e
    | .ok () => lockPi tid m true

def ftxTrylockPi (m : μ) : Prog (Mem μ) (Event μ) A0Result := do
  match ← ask with
  | .trylockPi ws r =>
    others tid ws
    taken tid m r
  | _ => impossible

def ftxUnlockPi (m : μ) : Prog (Mem μ) (Event μ) A0Result := do
  match ← ask with
  | .unlockPi ws r =>
    others tid ws
    match r with
    | .error e => return .error e
    | .ok w =>
      if ftxTid w = tid.val then impossible
      else
        store m w
        return .ok ()
  | _ => impossible

def waitRequeuePi (m : μ) : Prog (Mem μ) (Event μ) A0Result := do
  match ← ask with
  | .waitRequeuePi ws r =>
    others tid ws
    if r = .error .eownerdead then impossible
    else taken tid m r
  | _ => impossible

def ftxWaitRequeuePi (m : μ) (deadline : Option Timespec) : Prog (Mem μ) (Event μ) A0Result := do
  match deadline with
  | none => waitRequeuePi tid m
  | some _ =>
    match ← clockConvert with
    | .error e => return .error e
    | .ok () => waitRequeuePi tid m

/-! ## The robust list -/

/-- `robust_init`, by the first operation of a thread. -/
def Mem.initThread (s : Mem μ) : Mem μ :=
  if s.init then s else { s with next := update s.next .head .head, init := true }

def robustOpStart (m : μ) : Prog (Mem μ) (Event μ) Unit :=
  modify fun s => { s.initThread with pending := some m }

def robustOpEnd : Prog (Mem μ) (Event μ) Unit :=
  modify fun s => { s with pending := none }

def Mem.robustOpAdd (s : Mem μ) (m : μ) : Mem μ :=
  let oldFirst := s.next .head
  { s with
    next := update (update s.next (.mtx m) oldFirst) .head (.mtx m)
    prev :=
      if oldFirst = .head then update s.prev (.mtx m) .head
      else update (update s.prev (.mtx m) .head) oldFirst (.mtx m) }

def Mem.robustOpDel (s : Mem μ) (m : μ) : Mem μ :=
  let prev := s.prev (.mtx m)
  let next := s.next (.mtx m)
  { s with
    next := update s.next prev next
    prev := if next = .head then s.prev else update s.prev next prev }

/-! ## The mutex and the condition -/

/-- The results that leave the thread with the mutex. -/
def acquired : A0Result → Bool
  | .ok () => true
  | .error .eownerdead => true
  | .error _ => false

/-- The result of a thread that has taken the mutex: the word says whether the owner before it died. -/
def checkOwner (m : μ) : Prog (Mem μ) (Event μ) A0Result := do
  let w ← load tid m
  if ftxOwnerDied w then return .error .eownerdead else return .ok ()

/-- One turn of the loop of `mtx_timedlock_robust`. -/
def lockTurn (m : μ) (deadline : Option Timespec) : Prog (Mem μ) (Event μ) (Option A0Result) := do
  let w ← load tid m
  if ftxNotrecoverable w then return some (.error .enotrecoverable)
  else if ← cas tid m 0 tid.val then return some (.ok ())
  else
    match ← ftxLockPi tid m deadline with
    | .error e => if e = .eintr then return none else return some (.error e)
    | .ok () => return some (← checkOwner tid m)

/-- At most `n` turns. -/
def mtxTimedlockRobust (n : Nat) (m : μ) (deadline : Option Timespec) : Prog (Mem μ) (Event μ) A0Result :=
  untilSome (lockTurn tid m deadline) n

def mtxTimedlock (n : Nat) (m : μ) (deadline : Option Timespec) : Prog (Mem μ) (Event μ) A0Result := do
  robustOpStart m
  let r ← mtxTimedlockRobust tid n m deadline
  modify fun s => if acquired r then s.robustOpAdd m else s
  robustOpEnd
  return r

def mtxTrylockImpl (m : μ) : Prog (Mem μ) (Event μ) A0Result := do
  match ← compareExchange tid m 0 tid.val with
  | .ok () =>
    modify (·.robustOpAdd m)
    return .ok ()
  | .error old =>
    if ftxNotrecoverable old then return .error .enotrecoverable
    else if ¬ ftxOwnerDied old then return .error .ebusy
    else
      match ← ftxTrylockPi tid m with
      | .ok () =>
        modify (·.robustOpAdd m)
        checkOwner tid m
      | .error e => if e = .eagain then return .error .ebusy else return .error .enotrecoverable

def mtxTrylock (m : μ) : Prog (Mem μ) (Event μ) A0Result := do
  robustOpStart m
  let r ← mtxTrylockImpl tid m
  robustOpEnd
  return r

def mtxConsistent (m : μ) : Prog (Mem μ) (Event μ) A0Result := do
  let val ← load tid m
  if ¬ ftxOwnerDied val then return .error .einval
  else if ftxTid val ≠ tid.val then return .error .eperm
  else
    fetchAnd tid m (~~~ownerDied)
    return .ok ()

/-- The part of `mtx_unlock` that gives the mutex away; the result of the system call is ignored. -/
def giveAway (m : μ) (newVal : BitVec 32) : Prog (Mem μ) (Event μ) Unit := do
  if ← cas tid m tid.val newVal then return ()
  else
    let _ ← ftxUnlockPi tid m
    if newVal ≠ 0 then fetchOr tid m newVal else return ()

def mtxUnlock (m : μ) : Prog (Mem μ) (Event μ) A0Result := do
  let val ← load tid m
  if ftxTid val ≠ tid.val then return .error .eperm
  else
    robustOpStart m
    modify (·.robustOpDel m)
    giveAway tid m (newVal val)
    robustOpEnd
    return .ok ()

/-- One turn of the loop around `ftx_wait_requeue_pi`. -/
def waitTurn (m : μ) (deadline : Option Timespec) : Prog (Mem μ) (Event μ) (Option A0Result) := do
  let r ← ftxWaitRequeuePi tid m deadline
  if r = .error .eintr then return none else return some r

/-- After a timeout the thread has to lock the mutex itself; the timeout stays the result unless that fails. -/
def relockLate (n : Nat) (m : μ) (err : A0Result) : Prog (Mem μ) (Event μ) A0Result :=
  if err = .error .etimedout then do
    match ← mtxTimedlockRobust tid n m none with
    | .error e => return .error e
    | .ok () => return err
  else return err

/-- It also has to if it did not wait at all. -/
def relockAgain (n : Nat) (m : μ) (err : A0Result) : Prog (Mem μ) (Event μ) A0Result :=
  if err = .error .eagain then mtxTimedlockRobust tid n m none else return err

/-- The end of `cnd_timedwait`: the mutex is put into the list, whatever the result. -/
def waitEnd (m : μ) (err : A0Result) : Prog (Mem μ) (Event μ) A0Result := do
  modify (·.robustOpAdd m)
  match err with
  | .error e => return .error e
  | .ok () => checkOwner tid m

def cndTimedwait (n : Nat) (m : μ) (deadline : Option Timespec) : Prog (Mem μ) (Event μ) A0Result := do
  match ← mtxUnlock tid m with
  | .error e => return .error e
  | .ok () =>
    robustOpStart m
    let err ← untilSome (waitTurn tid m deadline) n
    let err ← relockLate tid n m err
    let err ← relockAgain tid n m err
    let err ← waitEnd tid m err
    robustOpEnd
    return err

end Definitions

/-! ## What a thread holds -/

/-- Whether the word names the thread, and if so, whether the owner before it died. -/
def Tid.hold (tid : Tid) (w : BitVec 32) : Option Bool :=
  if ftxTid w = tid.val then some (ftxOwnerDied w) else none

/-- The thread's own side of the memory: its list, if that is known, and what it holds. -/
structure View (μ : Type) where
  list : Option (List μ)
  hold : μ → Option Bool
  init : Bool

namespace View

variable {μ : Type}

def add (v : View μ) (m : μ) : View μ := { v with list := v.list.map (m :: ·) }

def start (v : View μ) : View μ := { v with init := true }

/-- The list is not known any more. -/
def lose (v : View μ) : View μ := { v with list := none }

/-- Every mutex that the thread holds is in its list. -/
def Complete (v : View μ) : Prop := ∀ l ∈ v.list, ∀ m, v.hold m ≠ none → m ∈ l

@[simp] theorem add_hold (v : View μ) (m : μ) : (v.add m).hold = v.hold := rfl

theorem start_eq {v : View μ} (h : v.init = true) : v.start = v := by
  cases v
  cases h
  rfl

variable [DecidableEq μ]

def put (v : View μ) (m : μ) (h : Option Bool) : View μ := { v with hold := update v.hold m h }

def del (v : View μ) (m : μ) : View μ := { v with list := v.list.map (·.erase m) }

/-- The mutex is taken, after an owner that died or not. -/
def lock (v : View μ) (m : μ) (died : Bool) : View μ := (v.start.put m (some died)).add m

def unlock (v : View μ) (m : μ) : View μ := (v.start.del m).put m none

@[simp] theorem put_hold_self (v : View μ) (m : μ) (h : Option Bool) : (v.put m h).hold m = h :=
  update_self ..

@[simp] theorem put_hold_of_ne {v : View μ} {m m' : μ} {h : Option Bool} (e : m' ≠ m) :
    (v.put m h).hold m' = v.hold m' :=
  update_of_ne e ..

@[simp] theorem put_put (v : View μ) (m : μ) (h h' : Option Bool) : (v.put m h).put m h' = v.put m h' := by
  simp [put]

@[simp] theorem unlock_hold_self (v : View μ) (m : μ) : (v.unlock m).hold m = none := put_hold_self ..

end View

/-- The memory is as the view says; in the list is only what the thread holds. -/
structure Mem.Shows {μ : Type} (tid : Tid) (s : Mem μ) (v : View μ) : Prop where
  hold : ∀ m, tid.hold (s.word m) = v.hold m
  init : s.init = v.init
  list : ∀ l ∈ v.list, if v.init then Circular s.next s.prev .head (l.map .mtx) else l = []
  held : ∀ l ∈ v.list, ∀ m ∈ l, v.hold m ≠ none

section Holding

variable {tid : Tid} {w : BitVec 32}

theorem Tid.hold_eq_none : tid.hold w = none ↔ ftxTid w ≠ tid.val := by
  simp [Tid.hold]

theorem Tid.hold_eq_some {d : Bool} : tid.hold w = some d ↔ ftxTid w = tid.val ∧ ftxOwnerDied w = d := by
  unfold Tid.hold
  split <;> simp_all

theorem Tid.hold_zero : tid.hold 0 = none := by
  rw [Tid.hold_eq_none]
  exact fun h => tid.pos (h.symm.trans (by decide))

theorem Tid.hold_val : tid.hold tid.val = some false := by
  rw [Tid.hold_eq_some]
  refine ⟨tid.mask, ?_⟩
  rw [ftxOwnerDied_eq_false, ← tid.mask, BitVec.and_assoc, show tidMask &&& ownerDied = 0#32 by decide, BitVec.and_zero]

/-- A word that is not recoverable names nobody, whatever else is in it. -/
theorem Tid.hold_or_notRecoverable : tid.hold (w ||| notRecoverable) = none := by
  rw [Tid.hold_eq_none]
  intro h
  have hm : ftxTid (w ||| notRecoverable) = tidMask := by
    unfold ftxTid
    rw [BitVec.and_or_distrib_right, show notRecoverable &&& tidMask = tidMask by decide]
    ext i hi
    rw [BitVec.getElem_or, BitVec.getElem_and, Bool.and_comm, Bool.or_comm]
    cases tidMask[i] <;> rfl
  exact tid.ne (h.symm.trans hm)

theorem Tid.hold_newVal {v : BitVec 32} (h : newVal v ≠ 0) : tid.hold (w ||| newVal v) = none := by
  unfold newVal at h ⊢
  split at h
  next hd =>
    rw [if_pos hd]
    exact Tid.hold_or_notRecoverable
  next => exact absurd rfl h

theorem Tid.hold_congr {w' : BitVec 32} (h : w' ||| waiters = w ||| waiters) : tid.hold w' = tid.hold w := by
  unfold Tid.hold
  rw [← @ftxTid_or_waiters w', ← @ftxOwnerDied_or_waiters w', h, ftxTid_or_waiters, ftxOwnerDied_or_waiters]

end Holding

namespace Mem.Shows

variable {μ : Type} {tid : Tid} {s t : Mem μ} {v : View μ} {m : μ} {w : BitVec 32}

theorem owns_iff (h : s.Shows tid v) : s.owns tid m ↔ v.hold m ≠ none := by
  rw [← h.hold, Ne, Tid.hold_eq_none, not_not]
  rfl

theorem pending (h : s.Shows tid v) (p : Option μ) : ({ s with pending := p } : Mem μ).Shows tid v := { h with }

theorem circular (h : s.Shows tid v) (hi : v.init = true) {l : List μ} (hl : l ∈ v.list) :
    Circular s.next s.prev .head (l.map .mtx) := by
  have h' := h.list l hl
  rwa [if_pos hi] at h'

theorem nodup (h : s.Shows tid v) (hi : v.init = true) {l : List μ} (hl : l ∈ v.list) : l.Nodup :=
  (List.nodup_cons.mp (h.circular hi hl).nodup).2.of_map _

variable [DecidableEq μ]

theorem links (h : s.Shows tid v) (hm : v.hold m = none) {n p : Node μ} :
    ({ s with next := update s.next (.mtx m) n, prev := update s.prev (.mtx m) p } : Mem μ).Shows
      tid v := by
  refine { h with list := fun l hl => ?_ }
  have h' := h.list l hl
  split at h' <;> rename_i hi
  · rw [if_pos hi]
    have hml : Node.mtx m ∉ l.map Node.mtx := by
      rw [List.mem_map]
      rintro ⟨m', hm', e⟩
      cases e
      exact h.held l hl m hm' hm
    refine h'.congr (fun x hx => update_of_ne ?_ ..) (fun x hx => update_of_ne ?_ ..)
    · rintro rfl
      rcases List.mem_cons.mp hx with e | e
      · cases e
      · exact hml e
    · rintro rfl
      exact hml hx
  · rw [if_neg hi]
    exact h'

theorem store (h : s.Shows tid v) (hm : ∀ l ∈ v.list, m ∈ l → tid.hold w ≠ none) :
    ({ s with word := update s.word m w } : Mem μ).Shows tid (v.put m (tid.hold w)) := by
  refine { h with hold := fun m' => ?_, held := fun l hl m' hm' => ?_ }
  · by_cases e : m' = m
    · subst e
      simp
    · simp [e, h.hold]
  · by_cases e : m' = m
    · subst e
      rw [View.put_hold_self]
      exact hm l hl hm'
    · rw [View.put_hold_of_ne e]
      exact h.held l hl m' hm'

theorem store_same (h : s.Shows tid v) (hw : tid.hold w = v.hold m) :
    ({ s with word := update s.word m w } : Mem μ).Shows tid v := by
  have h' := h.store (m := m) (w := w) fun l hl hm => hw ▸ h.held l hl m hm
  rwa [hw, show v.put m (v.hold m) = v by simp [View.put]] at h'

theorem write {x : Write μ} (h : s.Shows tid v) (hx : s.write tid x = some t) : t.Shows tid v := by
  cases x with
  | word m w =>
    rw [Mem.write] at hx
    split at hx
    next ho =>
      split at hx
      next hw =>
        cases hx
        exact h.store_same ((Tid.hold_congr hw).trans (h.hold m))
      next => cases hx
    next ho =>
      split at hx
      next => cases hx
      next hw =>
        cases hx
        refine h.store_same ((Tid.hold_eq_none.mpr hw).trans ?_)
        rw [← h.hold]
        exact (Tid.hold_eq_none.mpr ho).symm
  | links m n p =>
    rw [Mem.write] at hx
    split at hx
    next => cases hx
    next ho =>
      cases hx
      refine h.links ?_
      rw [← h.hold]
      exact Tid.hold_eq_none.mpr ho

theorem interfere {ws : List (Write μ)} (h : s.Shows tid v) (hx : s.interfere tid ws = some t) : t.Shows tid v := by
  induction ws generalizing s with
  | nil =>
    cases hx
    exact h
  | cons x ws ih =>
    obtain ⟨s', hs', ht⟩ := Option.bind_eq_some_iff.mp hx
    exact ih (h.write hs') ht

theorem initThread (h : s.Shows tid v) : s.initThread.Shows tid v.start := by
  unfold Mem.initThread
  split
  next hi =>
    rw [View.start_eq (h.init.symm.trans hi)]
    exact h
  next hi =>
    refine { h with init := rfl, list := fun l hl => ?_ }
    have h' := h.list l hl
    rw [← h.init, if_neg hi] at h'
    subst h'
    exact Circular.nil (by simp)

theorem robustOpAdd (h : s.Shows tid v) (hi : v.init = true) (hm : ∀ l ∈ v.list, m ∉ l ∧ v.hold m ≠ none) :
    (s.robustOpAdd m).Shows tid (v.add m) := by
  refine { h with list := fun l hl => ?_, held := fun l hl m' hm' => ?_ }
  · obtain ⟨l, hlv, rfl⟩ := Option.mem_map.mp hl
    rw [if_pos (show (v.add m).init = true from hi)]
    refine (h.circular hi hlv).push ?_ rfl rfl
    rintro (_ | ⟨_, e⟩)
    obtain ⟨m', hm', e⟩ := List.mem_map.mp e
    cases e
    exact (hm l hlv).1 hm'
  · obtain ⟨l, hlv, rfl⟩ := Option.mem_map.mp hl
    rcases List.mem_cons.mp hm' with rfl | hm'
    · exact (hm l hlv).2
    · exact h.held l hlv m' hm'

theorem robustOpDel (h : s.Shows tid v) (hi : v.init = true) (hm : ∀ l ∈ v.list, m ∈ l) :
    (s.robustOpDel m).Shows tid (v.del m) := by
  refine { h with list := fun l hl => ?_, held := fun l hl m' hm' => ?_ }
  · obtain ⟨l, hlv, rfl⟩ := Option.mem_map.mp hl
    rw [if_pos (show (v.del m).init = true from hi), List.map_erase fun _ _ e => Node.mtx.inj e]
    exact (h.circular hi hlv).unlink (List.mem_map_of_mem (hm l hlv)) rfl rfl
  · obtain ⟨l, hlv, rfl⟩ := Option.mem_map.mp hl
    exact h.held l hlv m' (List.mem_of_mem_erase hm')

end Mem.Shows

/-! ## What the accesses and the system calls do to it -/

section Specs

variable {μ : Type} {tid : Tid} {F : Event μ → Prop} {s : Mem μ} {v : View μ} {m : μ} {n : Nat}

theorem clockConvert_spec : After F (clockConvert : Prog (Mem μ) (Event μ) A0Result) s fun r t =>
    r ≠ .error .eownerdead ∧ t = s := by
  refine .bind (.ask fun e _ => ?_)
  split
  next r =>
    split
    next => exact .impossible
    next hr => exact .pure ⟨hr, rfl⟩
  next => exact .impossible

variable [DecidableEq μ]

theorem others_spec {ws : List (Write μ)} (h : s.Shows tid v) :
    After F (others tid ws) s fun _ t => t.Shows tid v := by
  refine .bind (.get ?_)
  split
  next t ht => exact .set (h.interfere ht)
  next => exact .impossible

theorem load_spec (h : s.Shows tid v) :
    After F (load tid m) s fun w t => t.Shows tid v ∧ tid.hold w = v.hold m := by
  refine .bind (.bind (.ask fun e _ => ?_))
  split
  next ws =>
    refine (others_spec h).mono fun _ t ht => ?_
    exact .bind (.get (.pure ⟨ht, ht.hold m⟩))
  next => exact .impossible

theorem compareExchange_spec {old new : BitVec 32} (h : s.Shows tid v)
    (hnew : ∀ l ∈ v.list, m ∈ l → tid.hold new ≠ none) :
    After F (compareExchange tid m old new) s fun r t =>
      match r with
      | .ok () => v.hold m = tid.hold old ∧ t.Shows tid (v.put m (tid.hold new))
      | .error w => v.hold m = tid.hold w ∧ t.Shows tid v := by
  refine .bind ((load_spec h).mono ?_)
  rintro w t ⟨ht, hw⟩
  split
  next e =>
    subst e
    exact .bind (.modify (.pure ⟨hw.symm, ht.store hnew⟩))
  next => exact .pure ⟨hw.symm, ht⟩

theorem cas_spec {old new : BitVec 32} (h : s.Shows tid v) (hnew : ∀ l ∈ v.list, m ∈ l → tid.hold new ≠ none) :
    After F (cas tid m old new) s fun b t =>
      if b then v.hold m = tid.hold old ∧ t.Shows tid (v.put m (tid.hold new)) else t.Shows tid v := by
  refine .bind ((compareExchange_spec h hnew).mono ?_)
  rintro (w | ⟨⟩) t ht
  · exact .pure ht.2
  · exact .pure ht

theorem cas_lock_spec (h : s.Shows tid v) :
    After F (cas tid m 0 tid.val) s fun b t =>
      if b then v.hold m = none ∧ t.Shows tid (v.put m (some false)) else t.Shows tid v := by
  refine (cas_spec h fun _ _ _ => ?_).mono fun b t ht => ?_
  · rw [Tid.hold_val]
    exact Option.some_ne_none _
  · rwa [Tid.hold_zero, Tid.hold_val] at ht

theorem taken_spec {r : Except Errno (BitVec 32)} (h : s.Shows tid v) :
    After F (taken tid m r) s fun r' t =>
      match r' with
      | .ok () => v.hold m = none ∧ ∃ d, t.Shows tid (v.put m (some d))
      | .error e => r = .error e ∧ t.Shows tid v := by
  cases r with
  | error e => exact .pure ⟨rfl, h⟩
  | ok w =>
    refine .bind (.get ?_)
    split
    next hc =>
      obtain ⟨ho, hw⟩ := hc
      rw [h.owns_iff, not_not] at ho
      have hh : tid.hold w = some (ftxOwnerDied w) := Tid.hold_eq_some.mpr ⟨hw, rfl⟩
      refine .bind (.modify (.pure ⟨ho, ftxOwnerDied w, ?_⟩))
      rw [← hh]
      exact h.store fun _ _ _ => hh ▸ Option.some_ne_none _
    next => exact .impossible

/-- What a locking system call leaves; `late` : it may time out. -/
def Took (tid : Tid) (v : View μ) (m : μ) (late : Bool) : A0Result → Mem μ → Prop
  | .ok (), t => v.hold m = none ∧ ∃ d, t.Shows tid (v.put m (some d))
  | .error e, t => e ≠ .eownerdead ∧ (e = .etimedout → late = true) ∧ t.Shows tid v

theorem lockPi_spec {late : Bool} (h : s.Shows tid v) : After F (lockPi tid m late) s (Took tid v m late) := by
  refine .bind (.ask fun e _ => ?_)
  split
  next ws r =>
    refine .bind ((others_spec h).mono fun _ t ht => ?_)
    split
    next => exact .impossible
    next hr =>
      refine (taken_spec ht).mono ?_
      rintro (e | ⟨⟩) u hu
      · obtain ⟨rfl, hu⟩ := hu
        refine ⟨?_, ?_, hu⟩
        · rintro rfl
          exact hr (.inl rfl)
        · rintro rfl
          exact Bool.eq_true_of_not_eq_false fun hl => hr (.inr ⟨rfl, hl⟩)
      · exact hu
  next => exact .impossible

theorem waitRequeuePi_spec (h : s.Shows tid v) : After F (waitRequeuePi tid m) s (Took tid v m true) := by
  refine .bind (.ask fun e _ => ?_)
  split
  next ws r =>
    refine .bind ((others_spec h).mono fun _ t ht => ?_)
    split
    next => exact .impossible
    next hr =>
      refine (taken_spec ht).mono ?_
      rintro (e | ⟨⟩) u hu
      · obtain ⟨rfl, hu⟩ := hu
        exact ⟨fun he => hr (he ▸ rfl), fun _ => rfl, hu⟩
      · exact hu
  next => exact .impossible

theorem ftxTrylockPi_spec (h : s.Shows tid v) :
    After F (ftxTrylockPi tid m) s fun r t =>
      match r with
      | .ok () => v.hold m = none ∧ ∃ d, t.Shows tid (v.put m (some d))
      | .error _ => t.Shows tid v := by
  refine .bind (.ask fun e _ => ?_)
  split
  next ws r =>
    refine .bind ((others_spec h).mono fun _ t ht => ?_)
    refine (taken_spec ht).mono ?_
    rintro (e | ⟨⟩) u hu
    · exact hu.2
    · exact hu
  next => exact .impossible

theorem ftxLockPi_spec {deadline : Option Timespec} (h : s.Shows tid v) :
    After F (ftxLockPi tid m deadline) s (Took tid v m deadline.isSome) := by
  cases deadline with
  | none => exact lockPi_spec h
  | some d =>
    refine .bind (clockConvert_spec.mono ?_)
    rintro (e | ⟨⟩) t ⟨he, rfl⟩
    · exact .pure ⟨fun e' => he (e' ▸ rfl), fun _ => rfl, h⟩
    · exact lockPi_spec h

theorem ftxWaitRequeuePi_spec {deadline : Option Timespec} (h : s.Shows tid v) :
    After F (ftxWaitRequeuePi tid m deadline) s (Took tid v m true) := by
  cases deadline with
  | none => exact waitRequeuePi_spec h
  | some d =>
    refine .bind (clockConvert_spec.mono ?_)
    rintro (e | ⟨⟩) t ⟨he, rfl⟩
    · exact .pure ⟨fun e' => he (e' ▸ rfl), fun _ => rfl, h⟩
    · exact waitRequeuePi_spec h

/-! ## What the calls do to it -/

/-- The result says that the owner before this thread died. -/
def died : A0Result → Bool
  | .error .eownerdead => true
  | _ => false

/-- What `mtx_timedlock_robust` leaves; `late` : it may time out. -/
structure Locked (tid : Tid) (v : View μ) (m : μ) (late : Bool) (r : A0Result) (t : Mem μ) : Prop where
  free : acquired r = true → v.hold m = none
  late : r = .error .etimedout → late = true
  shows : t.Shows tid (if acquired r then v.put m (some (died r)) else v)

theorem acquired_error {e : Errno} (he : e ≠ .eownerdead) : acquired (.error e) = false := by
  cases e <;> first | rfl | exact absurd rfl he

theorem Locked.failed {t : Mem μ} {late : Bool} {e : Errno} (he : e ≠ .eownerdead) (hl : e = .etimedout → late = true)
    (h : t.Shows tid v) : Locked tid v m late (.error e) t := by
  have hna := acquired_error he
  exact ⟨fun ha => absurd (hna ▸ ha) Bool.false_ne_true, fun e' => hl (Except.error.inj e'), by rwa [hna]⟩

theorem checkOwner_spec {d : Bool} (h : s.Shows tid v) (hm : v.hold m = some d) :
    After F (checkOwner tid m) s fun r t =>
      acquired r = true ∧ r ≠ .error .etimedout ∧ died r = d ∧ t.Shows tid v := by
  refine .bind ((load_spec h).mono ?_)
  rintro w t ⟨ht, hw⟩
  obtain ⟨-, rfl⟩ := Tid.hold_eq_some.mp (hw.trans hm)
  split
  next hd => exact .pure ⟨rfl, nofun, hd.symm, ht⟩
  next hd => exact .pure ⟨rfl, nofun, (Bool.eq_false_of_not_eq_true hd).symm, ht⟩

theorem lockTurn_spec {deadline : Option Timespec} (h : s.Shows tid v) :
    After F (lockTurn tid m deadline) s fun r t => r.elim (t.Shows tid v) (Locked tid v m deadline.isSome · t) := by
  refine .bind ((load_spec h).mono ?_)
  rintro w t ⟨ht, -⟩
  split
  next => exact .pure (Locked.failed nofun nofun ht)
  next =>
    refine .bind ((cas_lock_spec ht).mono ?_)
    rintro (_ | _) u hu
    · refine .bind ((ftxLockPi_spec hu).mono ?_)
      rintro (e | ⟨⟩) x hx
      · obtain ⟨he, hlate, hx⟩ := hx
        dsimp only
        split
        next => exact .pure hx
        next => exact .pure (Locked.failed he hlate hx)
      · obtain ⟨hm, d, hx⟩ := hx
        refine .bind ((checkOwner_spec hx (View.put_hold_self ..)).mono ?_)
        rintro r y ⟨ha, hl, rfl, hy⟩
        exact .pure ⟨fun _ => hm, fun e => absurd e hl, by rwa [if_pos ha]⟩
    · exact .pure ⟨fun _ => hu.1, nofun, hu.2⟩

theorem mtxTimedlockRobust_spec {deadline : Option Timespec} (h : s.Shows tid v) :
    After F (mtxTimedlockRobust tid n m deadline) s (Locked tid v m deadline.isSome) :=
  .untilSome (·.Shows tid v) h fun _ ht => lockTurn_spec ht

structure Locks (tid : Tid) (v : View μ) (m : μ) (late : Bool) (r : A0Result) (t : Mem μ) : Prop where
  free : acquired r = true → v.hold m = none
  late : r = .error .etimedout → late = true
  shows : t.Shows tid (if acquired r then v.lock m (died r) else v.start)

theorem Locks.failed {t : Mem μ} {late : Bool} {r : A0Result} (ha : acquired r = false)
    (hl : r = .error .etimedout → late = true) (h : t.Shows tid v.start) : Locks tid v m late r t :=
  ⟨fun ha' => absurd (ha ▸ ha') Bool.false_ne_true, hl, by rwa [ha]⟩

theorem Locks.pending {t : Mem μ} {late : Bool} {r : A0Result} (h : Locks tid v m late r t) (p : Option μ) :
    Locks tid v m late r { t with pending := p } :=
  { h with shows := h.shows.pending p }

theorem Mem.Shows.add_taken {t : Mem μ} {d : Bool} (h : s.Shows tid v) (hi : v.init = true) (hm : v.hold m = none)
    (ht : t.Shows tid (v.put m (some d))) : (t.robustOpAdd m).Shows tid ((v.put m (some d)).add m) := by
  refine ht.robustOpAdd hi fun l hl => ⟨fun hml => h.held l hl m hml hm, ?_⟩
  rw [View.put_hold_self]
  exact Option.some_ne_none d

theorem mtxTimedlock_spec {deadline : Option Timespec} (h : s.Shows tid v) :
    After F (mtxTimedlock tid n m deadline) s (Locks tid v m deadline.isSome) := by
  have hs : ({ s.initThread with pending := some m } : Mem μ).Shows tid v.start := h.initThread.pending _
  refine .bind (.modify (.bind ((mtxTimedlockRobust_spec hs).mono fun r t ht => ?_)))
  refine .bind (.modify (.bind (.modify (.pure ?_))))
  obtain ⟨hfree, hlate, ht⟩ := ht
  cases ha : acquired r with
  | true =>
    rw [ha, if_pos rfl] at ht
    refine ⟨hfree, hlate, ?_⟩
    rw [ha]
    exact (hs.add_taken rfl (hfree ha) ht).pending none
  | false =>
    rw [ha, if_neg Bool.false_ne_true] at ht
    exact (Locks.failed ha hlate ht).pending none

theorem mtxTrylockImpl_spec (h : s.Shows tid v.start) : After F (mtxTrylockImpl tid m) s (Locks tid v m true) := by
  refine .bind ((compareExchange_spec h fun _ _ _ => ?_).mono ?_)
  · rw [Tid.hold_val]
    exact Option.some_ne_none _
  · rintro (w | ⟨⟩) t ht
    · obtain ⟨-, ht⟩ := ht
      dsimp only
      split
      next => exact .pure (.failed rfl nofun ht)
      next =>
        split
        next => exact .pure (.failed rfl nofun ht)
        next =>
          refine .bind ((ftxTrylockPi_spec ht).mono ?_)
          rintro (e | ⟨⟩) u hu
          · dsimp only
            split
            next => exact .pure (.failed rfl nofun hu)
            next => exact .pure (.failed rfl nofun hu)
          · obtain ⟨hm, d, hu⟩ := hu
            refine .bind (.modify ((checkOwner_spec (h.add_taken rfl hm hu) (View.put_hold_self ..)).mono ?_))
            rintro r y ⟨ha, hl, rfl, hy⟩
            exact ⟨fun _ => hm, fun e => absurd e hl, by rwa [if_pos ha]⟩
    · rw [Tid.hold_zero, Tid.hold_val] at ht
      exact .bind (.modify (.pure ⟨fun _ => ht.1, nofun, h.add_taken rfl ht.1 ht.2⟩))

theorem mtxTrylock_spec (h : s.Shows tid v) : After F (mtxTrylock tid m) s (Locks tid v m true) := by
  refine .bind (.modify (.bind ((mtxTrylockImpl_spec (h.initThread.pending _)).mono fun r t ht => ?_)))
  exact .bind (.modify (.pure (ht.pending none)))

theorem mtxConsistent_spec (h : s.Shows tid v) (hm : v.hold m = some true) :
    After F (mtxConsistent tid m) s fun r t => r = .ok () ∧ t.Shows tid (v.put m (some false)) := by
  refine .bind ((load_spec h).mono ?_)
  rintro w t ⟨ht, hw⟩
  rw [hm, Tid.hold_eq_some] at hw
  rw [if_neg (not_not.mpr hw.2), if_neg (not_not.mpr hw.1)]
  refine .bind (.bind ((load_spec ht).mono ?_))
  rintro w' u ⟨hu, hw'⟩
  rw [hm, Tid.hold_eq_some] at hw'
  have hh : tid.hold (w' &&& ~~~ownerDied) = some false :=
    Tid.hold_eq_some.mpr ⟨ftxTid_and_not.trans hw'.1, ftxOwnerDied_and_not⟩
  refine .modify (.pure ⟨rfl, ?_⟩)
  rw [← hh]
  exact hu.store fun _ _ _ => hh ▸ Option.some_ne_none _

/-- No system call that unlocks fails. -/
def Unlocks (F : Event μ → Prop) : Prop := ∀ ws e, ¬ F (.unlockPi ws (.error e))

theorem ftxUnlockPi_spec (hF : Unlocks F) (h : s.Shows tid v) (hm : ∀ l ∈ v.list, m ∉ l) :
    After F (ftxUnlockPi tid m) s fun _ t => t.Shows tid (v.put m none) := by
  refine .bind (.ask fun e he => ?_)
  split
  next ws r =>
    refine .bind ((others_spec h).mono fun _ t ht => ?_)
    cases r with
    | error e => exact absurd he (hF ws e)
    | ok w =>
      dsimp only
      split
      next => exact .impossible
      next hw =>
        have hh : tid.hold w = none := Tid.hold_eq_none.mpr hw
        refine .bind (.modify (.pure ?_))
        rw [← hh]
        exact ht.store fun l hl hml => absurd hml (hm l hl)
  next => exact .impossible

theorem giveAway_spec {val : BitVec 32} (hF : Unlocks F) (h : s.Shows tid v) (hm : ∀ l ∈ v.list, m ∉ l) :
    After F (giveAway tid m (newVal val)) s fun _ t => t.Shows tid (v.put m none) := by
  have hnew : tid.hold (newVal val) = none := by
    by_cases h0 : newVal val = 0
    · rw [h0]
      exact Tid.hold_zero
    · have h1 := @Tid.hold_newVal tid 0#32 val h0
      rwa [BitVec.zero_or] at h1
  refine .bind ((cas_spec h fun l hl hml => absurd hml (hm l hl)).mono ?_)
  rintro (_ | _) t ht
  · refine .bind ((ftxUnlockPi_spec hF ht hm).mono fun _ u hu => ?_)
    split
    next h0 =>
      -- the mutex may already be another thread's; it becomes unusable all the same
      refine .bind ((load_spec hu).mono ?_)
      rintro w x ⟨hx, -⟩
      refine .modify ?_
      have hx' := hx.store (m := m) (w := w ||| newVal val) fun l hl hml => absurd hml (hm l hl)
      rwa [Tid.hold_newVal h0, View.put_put] at hx'
    next => exact .pure hu
  · rw [hnew] at ht
    exact .pure ht.2

theorem mtxUnlock_spec (hF : Unlocks F) (h : s.Shows tid v) (hc : v.Complete) :
    After F (mtxUnlock tid m) s fun r t =>
      (v.hold m = none ∧ r = .error .eperm ∧ t.Shows tid v) ∨
        (v.hold m ≠ none ∧ r = .ok () ∧ t.Shows tid (v.unlock m)) := by
  refine .bind ((load_spec h).mono ?_)
  rintro w t ⟨ht, hw⟩
  split
  next hne =>
    rw [← Tid.hold_eq_none] at hne
    exact .pure (.inl ⟨hw.symm.trans hne, rfl, ht⟩)
  next ho =>
    have hne : v.hold m ≠ none := fun e => ho (Tid.hold_eq_none.mp (hw.trans e))
    have hs : ({ t.initThread with pending := some m } : Mem μ).Shows tid v.start := ht.initThread.pending _
    have hd := hs.robustOpDel rfl fun l hl => hc l hl m hne
    have hm : ∀ l ∈ (v.start.del m).list, m ∉ l := by
      intro l hl
      obtain ⟨l', hl', rfl⟩ := Option.mem_map.mp hl
      exact (hs.nodup rfl hl').not_mem_erase
    refine .bind (.modify (.bind (.modify (.bind ((giveAway_spec hF hd hm).mono fun _ u hu => ?_)))))
    exact .bind (.modify (.pure (.inr ⟨hne, rfl, hu.pending none⟩)))

/-- After the wait: the system call gives the mutex back unless it fails. -/
def Waited (tid : Tid) (v : View μ) (m : μ) : A0Result → Mem μ → Prop
  | .ok (), t => ∃ d, t.Shows tid (v.put m (some d))
  | .error e, t => e ≠ .eownerdead ∧ t.Shows tid v

theorem waits_spec {deadline : Option Timespec} (h : s.Shows tid v) :
    After F (untilSome (waitTurn tid m deadline) n) s (Waited tid v m) := by
  refine .untilSome (·.Shows tid v) h fun t ht => ?_
  refine .bind ((ftxWaitRequeuePi_spec ht).mono ?_)
  rintro (e | ⟨⟩) u hu
  · split
    next => exact .pure hu.2.2
    next => exact .pure ⟨hu.1, hu.2.2⟩
  · split
    next he => cases he
    next => exact .pure hu.2

/-- The results of a wait after which the thread has the mutex again. -/
def back (r : A0Result) : Bool := acquired r || r = .error .etimedout

theorem back_error {e : Errno} (he : e ≠ .eownerdead) (hl : e ≠ .etimedout) : back (.error e) = false := by
  unfold back
  rw [acquired_error he, decide_eq_false fun h => hl (Except.error.inj h), Bool.or_false]

/-- After the thread has locked the mutex itself where it had to; a wakeup does not say whether the owner died. -/
def Regained (tid : Tid) (v : View μ) (m : μ) (r : A0Result) (t : Mem μ) : Prop :=
  if back r then ∃ d, (r ≠ .ok () → d = died r) ∧ t.Shows tid (v.put m (some d)) else t.Shows tid v

theorem Locked.regained {t : Mem μ} {r : A0Result} (h : Locked tid v m false r t) : Regained tid v m r t := by
  obtain ⟨-, hlate, hs⟩ := h
  have hb : back r = acquired r := by
    unfold back
    rw [decide_eq_false fun e => absurd (hlate e) Bool.false_ne_true, Bool.or_false]
  unfold Regained
  rw [hb]
  split at hs
  next ha =>
    rw [if_pos ha]
    exact ⟨died r, fun _ => rfl, hs⟩
  next ha =>
    rw [if_neg ha]
    exact hs

theorem relockLate_spec {err : A0Result} (h : Waited tid v m err s) :
    After F (relockLate tid n m err) s (Regained tid v m) := by
  unfold relockLate
  split
  next he =>
    subst he
    refine .bind ((mtxTimedlockRobust_spec h.2).mono ?_)
    rintro (e | ⟨⟩) t ht
    · exact .pure ht.regained
    · exact .pure ⟨false, fun _ => rfl, ht.shows⟩
  next he =>
    refine .pure ?_
    cases err with
    | ok u =>
      obtain ⟨d, hd⟩ := h
      exact ⟨d, fun hne => absurd rfl hne, hd⟩
    | error e =>
      obtain ⟨hne, hs⟩ := h
      unfold Regained
      rwa [back_error hne fun hl => he (hl ▸ rfl)]

theorem relockAgain_spec {err : A0Result} (h : Regained tid v m err s) :
    After F (relockAgain tid n m err) s (Regained tid v m) := by
  unfold relockAgain
  split
  next he =>
    subst he
    exact (mtxTimedlockRobust_spec h).mono fun r t ht => ht.regained
  next => exact .pure h

/-- What `cnd_timedwait` leaves: after an error other than a timeout or the owner's death the thread does not have the
mutex. -/
def Waits (tid : Tid) (v : View μ) (m : μ) (r : A0Result) (t : Mem μ) : Prop :=
  t.Shows tid (if back r then (v.put m (some (died r))).add m else v.lose)

theorem Mem.Shows.robustOpAdd_lose (h : s.Shows tid v) : (s.robustOpAdd m).Shows tid v.lose :=
  { h with list := fun _ hl => (nomatch hl), held := fun _ hl => (nomatch hl) }

theorem waitEnd_spec {err : A0Result} (hi : v.init = true) (hm : ∀ l ∈ v.list, m ∉ l) (h : Regained tid v m err s) :
    After F (waitEnd tid m err) s (Waits tid v m) := by
  have hadd : ∀ d, s.Shows tid (v.put m (some d)) → (s.robustOpAdd m).Shows tid ((v.put m (some d)).add m) := by
    intro d hs
    refine hs.robustOpAdd hi fun l hl => ⟨hm l hl, ?_⟩
    rw [View.put_hold_self]
    exact Option.some_ne_none d
  refine .bind (.modify ?_)
  cases err with
  | error e =>
    refine .pure ?_
    unfold Regained at h
    unfold Waits
    split at h
    next hb =>
      obtain ⟨d, hd, hs⟩ := h
      obtain rfl := hd nofun
      rw [if_pos hb]
      exact hadd _ hs
    next hb =>
      rw [if_neg hb]
      exact h.robustOpAdd_lose
  | ok u =>
    obtain ⟨d, -, hd⟩ := h
    refine (checkOwner_spec (hadd d hd) (View.put_hold_self ..)).mono ?_
    rintro r y ⟨ha, -, rfl, hy⟩
    unfold Waits back
    rw [ha]
    exact hy

/-- **A wait on the condition**: refused if the thread does not hold the mutex. -/
theorem cndTimedwait_spec {deadline : Option Timespec} (hF : Unlocks F) (h : s.Shows tid v) (hc : v.Complete) :
    After F (cndTimedwait tid n m deadline) s fun r t =>
      (v.hold m = none ∧ r = .error .eperm ∧ t.Shows tid v) ∨ (v.hold m ≠ none ∧ Waits tid (v.unlock m) m r t) := by
  refine .bind ((mtxUnlock_spec hF h hc).mono ?_)
  rintro r t (⟨hm, rfl, ht⟩ | ⟨hm, rfl, ht⟩)
  · exact .pure (.inl ⟨hm, rfl, ht⟩)
  · have hnot : ∀ l ∈ (v.unlock m).list, m ∉ l := fun l hl hml => ht.held l hl m hml (View.unlock_hold_self v m)
    have hs : ({ t.initThread with pending := some m } : Mem μ).Shows tid (v.unlock m) := ht.initThread.pending _
    refine .bind (.modify (.bind ((waits_spec hs).mono fun err u hu => ?_)))
    refine .bind ((relockLate_spec hu).mono fun err u hu => ?_)
    refine .bind ((relockAgain_spec hu).mono fun err u hu => ?_)
    refine .bind ((waitEnd_spec rfl hnot hu).mono fun err u hu => ?_)
    exact .bind (.modify (.pure (.inr ⟨hm, Mem.Shows.pending hu none⟩)))

end Specs

end ThothIpc.Futex.Calls
