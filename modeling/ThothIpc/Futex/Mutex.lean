import ThothIpc.Lib.Run

/-!
# Opening and locking the Linux mutex

`linux.rs`, `PlatformMutex`: a futex word in shared memory that is 0 or has the thread id of its owner, with the bits
`FUTEX_WAITERS` and `FUTEX_OWNER_DIED`. With the process's cache locked, `open` maps the shared memory unless the cache
has it, increments the reference count, and fills it with zeros if that was 0. `lock` exchanges 0 for the thread id or
asks the kernel, `unlock` exchanges it back or has the kernel hand the mutex over.

* `Pc`, `State.step` : the accesses and system calls of any number of threads in any number of processes;
* `filled` : nobody takes the mutex while an opener has still to fill it with zeros;
* `open_excludes` : under `filled` the mutex has one holder, and an opener's zeros erase nothing.

`FUTEX_LOCK_PI` takes a mutex without an owner, sets `FUTEX_WAITERS` and puts the thread into the queue otherwise, and
refuses one that the thread owns; `FUTEX_UNLOCK_PI` gives the mutex to one of the queue. No thread dies. The links of
the robust list are left out.
-/

namespace ThothIpc.Futex
open Function Steps

/-! ## The futex word -/

def tidMask : BitVec 32 := 0x3fffffff

def ownerDied : BitVec 32 := 0x40000000

def waiters : BitVec 32 := 0x80000000

/-- `FTX_NOTRECOVERABLE`. -/
def notRecoverable : BitVec 32 := tidMask ||| ownerDied

def ftxTid (ftx : BitVec 32) : BitVec 32 := ftx &&& tidMask

def ftxOwnerDied (ftx : BitVec 32) : Bool := ftx &&& ownerDied != 0

def ftxNotrecoverable (ftx : BitVec 32) : Bool := ftx &&& notRecoverable == notRecoverable

/-- What `mtx_unlock` leaves in the word. -/
def newVal (ftx : BitVec 32) : BitVec 32 := if ftxOwnerDied ftx then notRecoverable else 0

/-- Thread ids: different, not 0, and without the two bits. -/
structure Tids {τ : Type} (tid : τ → BitVec 32) : Prop where
  inj : Function.Injective tid
  pos : ∀ t, tid t ≠ 0
  mask : ∀ t, tid t &&& tidMask = tid t

section Words

variable {τ : Type} {tid : τ → BitVec 32} {w : BitVec 32}

theorem ftxOwnerDied_eq_false : ftxOwnerDied w = false ↔ w &&& ownerDied = 0#32 := by
  simp [ftxOwnerDied]

theorem ftxTid_or_waiters : ftxTid (w ||| waiters) = ftxTid w := by
  unfold ftxTid
  rw [BitVec.and_or_distrib_right, show waiters &&& tidMask = 0#32 by decide, BitVec.or_zero]

theorem ftxOwnerDied_or_waiters : ftxOwnerDied (w ||| waiters) = ftxOwnerDied w := by
  unfold ftxOwnerDied
  rw [BitVec.and_or_distrib_right, show waiters &&& ownerDied = 0#32 by decide, BitVec.or_zero]

theorem ftxTid_and_not : ftxTid (w &&& ~~~ownerDied) = ftxTid w := by
  unfold ftxTid
  rw [BitVec.and_assoc, show ~~~ownerDied &&& tidMask = tidMask by decide]

theorem ftxOwnerDied_and_not : ftxOwnerDied (w &&& ~~~ownerDied) = false := by
  rw [ftxOwnerDied_eq_false, BitVec.and_assoc, show ~~~ownerDied &&& ownerDied = 0#32 by decide, BitVec.and_zero]

theorem newVal_eq_zero (h : ftxOwnerDied w = false) : newVal w = 0 := by
  unfold newVal
  rw [h]
  rfl

theorem Tids.ftxOwnerDied_tid (h : Tids tid) (t : τ) : ftxOwnerDied (tid t) = false := by
  rw [ftxOwnerDied_eq_false, ← h.mask t, BitVec.and_assoc, show tidMask &&& ownerDied = 0#32 by decide, BitVec.and_zero]

theorem Tids.word_ne_zero (h : Tids tid) {t : τ} (hw : ftxTid w = tid t) : w ≠ 0 := by
  rintro rfl
  exact h.pos t (hw.symm.trans (by decide))

end Words

/-! ## The accesses -/

namespace Mutex

/-- Where a thread stands: in `open` (`out` before it, `ready` after it), in `lock`, holding the mutex, or in `unlock`,
which one that does not hold it may call (`foreign`). A thread that has taken the mutex over from a dead owner (`dead`)
clears the bit (`fix`), unlocks, and locks `again`. -/
inductive Pc where
  | out
  | lookup
  | acquire
  | fill
  | insert
  | ready
  | check (held : Bool)
  | cas (held : Bool)
  | kernel (held : Bool)
  | blocked
  | got
  | dead
  | fix
  | held
  | foreign
  | unlock (again : Bool)
  | ucas (again : Bool) (new : BitVec 32)
  | ukernel (again : Bool) (new : BitVec 32)
  | uor (again : Bool) (new : BitVec 32)
  deriving DecidableEq, Repr

namespace Pc

def holds : Pc → Bool
  | check h => h
  | cas h => h
  | kernel h => h
  | got => true
  | dead => true
  | fix => true
  | held => true
  | unlock _ => true
  | ucas _ _ => true
  | ukernel _ _ => true
  | _ => false

/-- The thread has not incremented the reference count. -/
def pre : Pc → Bool
  | out => true
  | lookup => true
  | acquire => true
  | _ => false

/-- What `unlock` is about to leave in the word. -/
def new : Pc → Option (BitVec 32)
  | ucas _ n => some n
  | ukernel _ n => some n
  | uor _ n => some n
  | _ => none

/-- Where a thread is that gives up locking. -/
def back (h : Bool) : Pc := if h then held else ready

/-- Where `unlock` returns to. -/
def done (again : Bool) : Pc := if again then check false else ready

/-- Where `unlock` goes after the system call. -/
def after (again : Bool) (n : BitVec 32) : Pc := if n = 0 then done again else uor again n

end Pc

/-- The reference count, the futex word, the kernel's queue, and the caches of the processes `π` with their locks. -/
structure State (τ π : Type) where
  refCount : BitVec 32
  word : BitVec 32
  queue : List τ
  cached : π → Bool
  lock : π → Option τ
  pcs : τ → Pc

/-- What a thread does next; the kernel may hand the mutex over to `w`. -/
inductive Act (τ : Type) where
  | open
  | lock
  | unlock
  | go
  | fail
  | interrupt
  | timeout
  | hand (w : τ)
  deriving DecidableEq, Repr

variable {τ π : Type}

section Step

variable [DecidableEq τ] [DecidableEq π]

def State.set (s : State τ π) (t : τ) (pc : Pc) : State τ π := { s with pcs := update s.pcs t pc }

def State.release (s : State τ π) (p : π) : State τ π := { s with lock := update s.lock p none }

/-- The next step; `tid` are the thread ids, `proc` the processes of the threads. -/
def State.go (tid : τ → BitVec 32) (proc : τ → π) (s : State τ π) (t : τ) : Option (State τ π) :=
  match s.pcs t with
  | .lookup => if s.cached (proc t) then some ((s.release (proc t)).set t .ready) else some (s.set t .acquire)
  | .acquire => some { s.set t (if s.refCount = 0 then .fill else .insert) with refCount := s.refCount + 1 }
  | .fill => some { s.set t .insert with word := 0 }
  | .insert => some ({ s.release (proc t) with cached := update s.cached (proc t) true }.set t .ready)
  | .check h => some (s.set t (if ftxNotrecoverable s.word then .back h else .cas h))
  | .cas h => if s.word = 0 then some { s.set t .held with word := tid t } else some (s.set t (.kernel h))
  | .kernel h =>
    if ftxTid s.word = tid t then some (s.set t (.back h)) -- `EDEADLK`
    else if ftxTid s.word = 0 ∧ s.queue = [] then some { s.set t .got with word := s.word &&& ownerDied ||| tid t }
    else some { s.set t .blocked with word := s.word ||| waiters, queue := t :: s.queue }
  | .got => some (s.set t (if ftxOwnerDied s.word then .dead else .held))
  | .dead => some (s.set t (if ftxOwnerDied s.word ∧ ftxTid s.word = tid t then .fix else .ready))
  | .fix => some { s.set t (.unlock true) with word := s.word &&& ~~~ownerDied }
  | .foreign => some (s.set t (if ftxTid s.word = tid t then .ucas false (newVal s.word) else .ready))
  | .unlock again => some (s.set t (if ftxTid s.word = tid t then .ucas again (newVal s.word) else .ready))
  | .ucas again n =>
    if s.word = tid t then some { s.set t (.done again) with word := n } else some (s.set t (.ukernel again n))
  | .ukernel again n =>
    if ftxTid s.word = tid t then
      if s.queue = [] then some { s.set t (.after again n) with word := 0 } else none
    else some (s.set t (.after again n)) -- `EPERM`, which is ignored
  | .uor again n => some { s.set t (.done again) with word := s.word ||| n }
  | _ => none

def State.step (tid : τ → BitVec 32) (proc : τ → π) (s : State τ π) (a : τ × Act τ) : Option (State τ π) :=
  let t := a.1
  match a.2, s.pcs t with
  | .open, .out =>
    if s.lock (proc t) = none then some ({ s with lock := update s.lock (proc t) (some t) }.set t .lookup)
      else none
  | .lock, .ready => some (s.set t (.check false))
  | .lock, .held => some (s.set t (.check true))
  | .unlock, .ready => some (s.set t .foreign)
  | .unlock, .held => some (s.set t (.unlock false))
  | .go, _ => s.go tid proc t
  | .fail, .acquire => some ((s.release (proc t)).set t .out)
  | .interrupt, .kernel h => some (s.set t (.check h))
  | .interrupt, .blocked => some { s.set t (.check false) with queue := s.queue.erase t }
  | .timeout, .kernel h => some (s.set t (.back h))
  | .timeout, .blocked => some { s.set t .ready with queue := s.queue.erase t }
  | .hand w, .ukernel again n =>
    if ftxTid s.word = tid t ∧ w ∈ s.queue ∧ w ≠ t then
      some { (s.set t (.after again n)).set w .got with word := waiters ||| tid w, queue := s.queue.erase w }
    else none
  | _, _ => none

end Step

/-- Nobody takes the mutex while an opener has still to fill it, and the reference count is 0 only as long as nobody has
opened it. -/
def filled (s : State τ π) (a : τ × Act τ) : Prop :=
  match a.2, s.pcs a.1 with
  | .go, .acquire => s.refCount = 0 → ∀ t, (s.pcs t).pre = true
  | .go, .cas _ => ∀ t, s.pcs t ≠ .fill
  | .go, .kernel _ => ∀ t, s.pcs t ≠ .fill
  | _, _ => True

/-! ## The invariant -/

/-- The word names the holder; no owner has died; and before the zeros are there the word is 0 and nobody waits. -/
structure Inv (tid : τ → BitVec 32) (s : State τ π) : Prop where
  own : ∀ t, (s.pcs t).holds = true → ftxTid s.word = tid t
  died : ftxOwnerDied s.word = false
  new : ∀ t n, (s.pcs t).new = some n → n = 0
  idle : ((∃ t, s.pcs t = .fill) ∨ ∀ t, (s.pcs t).pre = true) → s.word = 0 ∧ s.queue = []

namespace Inv

variable [DecidableEq τ] {tid : τ → BitVec 32} {s s' : State τ π} {t : τ} {pc : Pc}

theorem pass (h : Inv tid s) (hs : s'.pcs = update s.pcs t pc) (hw : s'.word = s.word)
    (hq : s.queue = [] → s'.queue = [])
    (hh : pc.holds = true → ftxTid s.word = tid t) (hn : ∀ n, pc.new = some n → n = 0)
    (hf : pc = .fill → s.word = 0 ∧ s.queue = []) (hp : pc.pre = true → (s.pcs t).pre = true) : Inv tid s' := by
  refine ⟨?_, by rw [hw]; exact h.died, ?_, ?_⟩
  · rw [hs, hw]
    exact (forall_update_iff _ fun i (pc : Pc) => pc.holds = true → ftxTid s.word = tid i).mpr
      ⟨hh, fun i _ => h.own i⟩
  · rw [hs]
    exact (forall_update_iff _ fun i (pc : Pc) => ∀ n, pc.new = some n → n = 0).mpr ⟨hn, fun i _ => h.new i⟩
  · rw [hs, hw]
    intro hidle
    suffices h' : s.word = 0 ∧ s.queue = [] from ⟨h'.1, hq h'.2⟩
    rcases hidle with ⟨i, hi⟩ | hall
    · rw [update_apply] at hi
      split_ifs at hi
      · exact hf hi
      · exact h.idle (Or.inl ⟨i, hi⟩)
    · refine h.idle (Or.inr fun i => ?_)
      rcases eq_or_ne i t with rfl | hi
      · exact hp (by simpa using hall i)
      · simpa [update_of_ne hi] using hall i

/-- A step of `t` that writes the word or the queue when nobody has still to fill it. -/
theorem write (h : Inv tid s) (hs : s'.pcs = update s.pcs t pc) (hfill : ∀ i, s.pcs i ≠ .fill)
    (hpc : pc ≠ .fill ∧ pc.pre = false) (hn : ∀ n, pc.new = some n → n = 0) (hd : ftxOwnerDied s'.word = false)
    (hh : pc.holds = true → ftxTid s'.word = tid t)
    (ho : ∀ i, i ≠ t → (s.pcs i).holds = true → ftxTid s'.word = ftxTid s.word) : Inv tid s' := by
  refine ⟨?_, hd, ?_, ?_⟩
  · rw [hs]
    exact (forall_update_iff _ fun i (pc : Pc) => pc.holds = true → ftxTid s'.word = tid i).mpr
      ⟨hh, fun i hi hi' => (ho i hi hi').trans (h.own i hi')⟩
  · rw [hs]
    exact (forall_update_iff _ fun i (pc : Pc) => ∀ n, pc.new = some n → n = 0).mpr ⟨hn, fun i _ => h.new i⟩
  · rw [hs]
    rintro (⟨i, hi⟩ | hall)
    · rw [update_apply] at hi
      split_ifs at hi
      · exact absurd hi hpc.1
      · exact absurd hi (hfill i)
    · have := hall t
      rw [update_self, hpc.2] at this
      exact absurd this nofun

omit [DecidableEq τ] in
theorem sole (ht : Tids tid) (h : Inv tid s) (hh : (s.pcs t).holds = true) :
    (∀ i, i ≠ t → (s.pcs i).holds = false) ∧ ∀ i, s.pcs i ≠ .fill := by
  have hw : ftxTid s.word = tid t := h.own t hh
  refine ⟨fun i hi => ?_, fun i hi => ?_⟩
  · rw [Bool.eq_false_iff]
    exact fun hh' => hi (ht.inj ((h.own i hh').symm.trans hw))
  · exact ht.word_ne_zero hw (h.idle (Or.inl ⟨i, hi⟩)).1

omit [DecidableEq τ] in
theorem unheld (ht : Tids tid) (h : Inv tid s) (hw : ftxTid s.word = 0) (i : τ) : (s.pcs i).holds = false := by
  rw [Bool.eq_false_iff]
  intro hi
  exact ht.pos i ((h.own i hi).symm.trans hw)

/-- A step of the holder `t` that clears the word or gives the mutex away. -/
theorem pass_on (ht : Tids tid) (h : Inv tid s) (hh : (s.pcs t).holds = true) (hs : s'.pcs = update s.pcs t pc)
    (hpc : pc ≠ .fill ∧ pc.pre = false ∧ pc.holds = false) (hn : ∀ n, pc.new = some n → n = 0)
    (hd : ftxOwnerDied s'.word = false) : Inv tid s' := by
  obtain ⟨hsole, hfill⟩ := h.sole ht hh
  refine h.write hs hfill ⟨hpc.1, hpc.2.1⟩ hn hd (fun hp => ?_) (fun i hi hi' => ?_)
  · rw [hpc.2.2] at hp
    exact absurd hp nofun
  · rw [hsole i hi] at hi'
    exact absurd hi' nofun

end Inv

namespace Pc

theorem back_facts (h : Bool) : (back h).holds = h ∧ (back h).new = none ∧ back h ≠ .fill ∧ (back h).pre = false := by
  cases h <;> decide

theorem done_facts (again : Bool) :
    done again ≠ .fill ∧ (done again).pre = false ∧ (done again).holds = false ∧ (done again).new = none := by
  cases again <;> decide

theorem after_facts (again : Bool) (n : BitVec 32) :
    (after again n ≠ .fill ∧ (after again n).pre = false ∧ (after again n).holds = false) ∧
      ∀ n', (after again n).new = some n' → n' = n := by
  unfold after
  split_ifs
  · obtain ⟨h₁, h₂, h₃, h₄⟩ := done_facts again
    exact ⟨⟨h₁, h₂, h₃⟩, by rw [h₄]; nofun⟩
  · exact ⟨⟨nofun, rfl, rfl⟩, fun n' hn => (Option.some.inj hn).symm⟩

end Pc

namespace Inv

variable [DecidableEq τ] [DecidableEq π] {tid : τ → BitVec 32} {proc : τ → π} {s s' : State τ π} {t : τ}

theorem locking (ht : Tids tid) (h : Inv tid s) (hok : filled s (t, .go)) (hs : s.go tid proc t = some s') {b : Bool}
    (hpc : s.pcs t = .check b ∨ s.pcs t = .cas b ∨ s.pcs t = .kernel b) : Inv tid s' := by
  have hown := h.own t
  obtain ⟨hb₁, hb₂, hb₃, hb₄⟩ := Pc.back_facts b
  have hback : ∀ s₁ : State τ π, (s.pcs t).holds = b → s₁ = s.set t (.back b) → Inv tid s₁ := by
    rintro s₁ hhold rfl
    refine h.pass rfl rfl id (fun hh => hown ?_) (by rw [hb₂]; nofun) (fun hf => absurd hf hb₃) fun hp => ?_
    · rw [hhold, ← hb₁, hh]
    · rw [hb₄] at hp
      exact absurd hp nofun
  unfold State.go at hs
  unfold filled at hok
  rcases hpc with hpc | hpc | hpc
  · rw [hpc] at hs hown hback
    have hs := Option.some.inj hs
    split_ifs at hs
    · exact hback s' rfl hs.symm
    · subst hs
      exact h.pass rfl rfl id hown nofun nofun nofun
  · rw [hpc] at hs hok hown
    simp only at hs hok
    split_ifs at hs with hw <;> cases hs
    · -- the exchange: nobody held it
      refine h.write rfl hok ⟨nofun, rfl⟩ nofun (ht.ftxOwnerDied_tid t) (fun _ => ht.mask t) fun i _ hi => ?_
      rw [h.unheld ht (by rw [hw]; decide) i] at hi
      exact absurd hi nofun
    · exact h.pass rfl rfl id hown nofun nofun nofun
  · rw [hpc] at hs hok hown hback
    simp only at hs hok
    split_ifs at hs with hme hfree
    · exact hback s' rfl (Option.some.inj hs).symm
    · cases hs
      have hword : s.word &&& ownerDied ||| tid t = tid t := by
        rw [ftxOwnerDied_eq_false.mp h.died, BitVec.zero_or]
      refine h.write rfl hok ⟨nofun, rfl⟩ nofun ?_ (fun _ => ?_) fun i _ hi => ?_
      · exact (congrArg ftxOwnerDied hword).trans (ht.ftxOwnerDied_tid t)
      · exact (congrArg ftxTid hword).trans (ht.mask t)
      · rw [h.unheld ht hfree.1 i] at hi
        exact absurd hi nofun
    · cases hs
      exact h.write rfl hok ⟨nofun, rfl⟩ nofun (ftxOwnerDied_or_waiters.trans h.died) nofun fun _ _ _ =>
        ftxTid_or_waiters

theorem unlocking (ht : Tids tid) (h : Inv tid s) (hs : s.go tid proc t = some s') {b : Bool} {n : BitVec 32}
    (hpc : s.pcs t = .foreign ∨ s.pcs t = .unlock b ∨ s.pcs t = .ucas b n ∨ s.pcs t = .ukernel b n ∨
      s.pcs t = .uor b n) : Inv tid s' := by
  have hown := h.own t
  have hnew := h.new t
  have hload : ∀ (s₁ : State τ π) (c : Bool),
      s₁ = s.set t (if ftxTid s.word = tid t then .ucas c (newVal s.word) else .ready) → Inv tid s₁ := by
    rintro s₁ c rfl
    split_ifs with hme
    · refine h.pass rfl rfl id (fun _ => hme) (fun n' hn => ?_) nofun nofun
      rw [← Option.some.inj hn, newVal_eq_zero h.died]
    · exact h.pass rfl rfl id nofun nofun nofun nofun
  obtain ⟨hd₁, hd₂, hd₃, hd₄⟩ := Pc.done_facts b
  obtain ⟨ha, ha'⟩ := Pc.after_facts b n
  unfold State.go at hs
  rcases hpc with hpc | hpc | hpc | hpc | hpc
  · rw [hpc] at hs
    exact hload s' false (Option.some.inj hs).symm
  · rw [hpc] at hs
    exact hload s' b (Option.some.inj hs).symm
  · rw [hpc] at hs hown hnew
    simp only at hs
    have hn : n = 0 := hnew n rfl
    split_ifs at hs with hw <;> cases hs
    · refine h.pass_on ht (by rw [hpc]; rfl) rfl ⟨hd₁, hd₂, hd₃⟩ (by rw [hd₄]; nofun) ?_
      show ftxOwnerDied n = false
      rw [hn]
      decide
    · exact h.pass rfl rfl id hown hnew nofun nofun
  · rw [hpc] at hs hown hnew
    simp only at hs
    have hafter : ∀ n', (Pc.after b n).new = some n' → n' = 0 := fun n' hn => (ha' n' hn).trans (hnew n rfl)
    split_ifs at hs with hme hq <;> cases hs
    · exact h.pass_on ht (by rw [hpc]; rfl) rfl ha hafter (show ftxOwnerDied 0 = false by decide)
    · exact absurd (hown rfl) hme
  · rw [hpc] at hs hnew
    have hn : n = 0 := hnew n rfl
    cases hs
    refine h.pass rfl ?_ id (by rw [hd₃]; nofun) (by rw [hd₄]; nofun) (fun hf => absurd hf hd₁) (by rw [hd₂]; nofun)
    show s.word ||| n = s.word
    rw [hn]
    exact BitVec.or_zero

theorem go (ht : Tids tid) (h : Inv tid s) (hok : filled s (t, .go)) (hs : s.go tid proc t = some s') : Inv tid s' := by
  cases hpc : s.pcs t with
  | check b => exact h.locking ht hok hs (Or.inl hpc)
  | cas b => exact h.locking ht hok hs (Or.inr (Or.inl hpc))
  | kernel b => exact h.locking ht hok hs (Or.inr (Or.inr hpc))
  | foreign => exact h.unlocking (b := false) (n := 0) ht hs (Or.inl hpc)
  | unlock again => exact h.unlocking (n := 0) ht hs (Or.inr (Or.inl hpc))
  | ucas again n => exact h.unlocking ht hs (Or.inr (Or.inr (Or.inl hpc)))
  | ukernel again n => exact h.unlocking ht hs (Or.inr (Or.inr (Or.inr (Or.inl hpc))))
  | uor again n => exact h.unlocking ht hs (Or.inr (Or.inr (Or.inr (Or.inr hpc))))
  | lookup =>
    rw [State.go, hpc] at hs
    simp only at hs
    split_ifs at hs <;> cases hs
    · exact h.pass rfl rfl id nofun nofun nofun nofun
    · exact h.pass rfl rfl id nofun nofun nofun fun _ => by rw [hpc]; rfl
  | acquire =>
    rw [State.go, hpc] at hs
    unfold filled at hok
    rw [hpc] at hok
    have hs := Option.some.inj hs
    subst hs
    split_ifs with hz
    · exact h.pass rfl rfl id nofun nofun (fun _ => h.idle (Or.inr (hok hz))) nofun
    · exact h.pass rfl rfl id nofun nofun nofun nofun
  | fill =>
    rw [State.go, hpc] at hs
    cases hs
    exact h.pass rfl (h.idle (Or.inl ⟨t, hpc⟩)).1.symm id nofun nofun nofun nofun
  | insert =>
    rw [State.go, hpc] at hs
    cases hs
    exact h.pass rfl rfl id nofun nofun nofun nofun
  | got =>
    have hown := h.own t (by rw [hpc]; rfl)
    rw [State.go, hpc] at hs
    cases hs
    rw [h.died]
    exact h.pass rfl rfl id (fun _ => hown) nofun nofun nofun
  | dead =>
    rw [State.go, hpc] at hs
    have hs := Option.some.inj hs
    rw [h.died, if_neg (by simp)] at hs
    subst hs
    exact h.pass rfl rfl id nofun nofun nofun nofun
  | fix =>
    have hh : (s.pcs t).holds = true := by rw [hpc]; rfl
    have hown := h.own t hh
    rw [State.go, hpc] at hs
    cases hs
    exact h.write rfl (h.sole ht hh).2 ⟨nofun, rfl⟩ nofun ftxOwnerDied_and_not (fun _ => ftxTid_and_not.trans hown)
      fun _ _ _ => ftxTid_and_not
  | out | ready | blocked | held =>
    rw [State.go, hpc] at hs
    exact absurd hs nofun

theorem step (ht : Tids tid) (h : Inv tid s) {a : τ × Act τ} (hok : filled s a) (hs : s.step tid proc a = some s') :
    Inv tid s' := by
  obtain ⟨t, a⟩ := a
  have hown := h.own t
  have hnew := h.new t
  unfold State.step at hs
  simp only at hs
  split at hs
  case h_1 hpc =>
    split_ifs at hs
    cases hs
    exact h.pass rfl rfl id nofun nofun nofun fun _ => by rw [hpc]; rfl
  case h_2 hpc => cases hs; exact h.pass rfl rfl id nofun nofun nofun nofun
  case h_3 hpc =>
    cases hs
    exact h.pass rfl rfl id (fun _ => hown (by rw [hpc]; rfl)) nofun nofun nofun
  case h_4 hpc => cases hs; exact h.pass rfl rfl id nofun nofun nofun nofun
  case h_5 hpc =>
    cases hs
    exact h.pass rfl rfl id (fun _ => hown (by rw [hpc]; rfl)) nofun nofun nofun
  case h_6 => exact h.go ht hok hs
  case h_7 hpc =>
    cases hs
    exact h.pass rfl rfl id nofun nofun nofun fun _ => by rw [hpc]; rfl
  case h_8 b hpc =>
    cases hs
    rw [hpc] at hown
    exact h.pass rfl rfl id hown nofun nofun nofun
  case h_9 hpc =>
    cases hs
    refine h.pass rfl rfl (fun hq => ?_) nofun nofun nofun nofun
    show s.queue.erase t = []
    rw [hq, List.erase_nil]
  case h_10 b hpc =>
    cases hs
    rw [hpc] at hown
    obtain ⟨hb₁, hb₂, hb₃, hb₄⟩ := Pc.back_facts b
    exact h.pass rfl rfl id (fun hh => hown (hb₁.symm.trans hh)) (by rw [hb₂]; nofun) (fun hf => absurd hf hb₃)
      (by rw [hb₄]; nofun)
  case h_11 hpc =>
    cases hs
    refine h.pass rfl rfl (fun hq => ?_) nofun nofun nofun nofun
    show s.queue.erase t = []
    rw [hq, List.erase_nil]
  case h_12 w b n hpc =>
    split_ifs at hs with hw
    cases hs
    rw [hpc] at hnew
    obtain ⟨ha, ha'⟩ := Pc.after_facts b n
    have hword : ftxTid (waiters ||| tid w) = tid w := by
      rw [BitVec.or_comm, ftxTid_or_waiters]
      exact ht.mask w
    -- the word is written for `t`, then `w` runs on
    have hgive : Inv tid { s.set t (.after b n) with word := waiters ||| tid w, queue := s.queue.erase w } := by
      refine h.pass_on ht (by rw [hpc]; rfl) rfl ha (fun n' hn => (ha' n' hn).trans (hnew n rfl)) ?_
      show ftxOwnerDied (waiters ||| tid w) = false
      rw [BitVec.or_comm, ftxOwnerDied_or_waiters]
      exact ht.ftxOwnerDied_tid w
    exact hgive.pass rfl rfl id (fun _ => hword) nofun nofun nofun
  case h_13 => exact absurd hs nofun

end Inv

/-! ## Every run -/

section Runs

variable [DecidableEq τ] [DecidableEq π] {tid : τ → BitVec 32} {proc : τ → π} {s₀ s : State τ π}

/-- A fresh mutex: the shared memory is zero, and nobody has opened it. -/
structure New (s : State τ π) : Prop where
  refCount : s.refCount = 0
  word : s.word = 0
  queue : s.queue = []
  cached : ∀ p, s.cached p = false
  lock : ∀ p, s.lock p = none
  pcs : ∀ t, s.pcs t = .out

omit [DecidableEq τ] [DecidableEq π] in
theorem New.inv (h : New s) : Inv tid s where
  own t ht := by
    rw [h.pcs t] at ht
    exact absurd ht nofun
  died := by
    rw [h.word]
    decide
  new t n hn := by
    rw [h.pcs t] at hn
    exact absurd hn nofun
  idle _ := ⟨h.word, h.queue⟩

/-- **If nobody takes the mutex while an opener has still to fill it, at most one thread holds it, and an opener about
to write zeros finds nobody there.** -/
theorem open_excludes (htid : Tids tid) (h₀ : New s₀) {acts : List (τ × Act τ)}
    (hr : Run (State.step tid proc) filled s₀ acts s) :
    (∀ t t', (s.pcs t).holds = true → (s.pcs t').holds = true → t = t') ∧
      ∀ t, s.pcs t = .fill → s.word = 0 ∧ s.queue = [] := by
  have hinv : Inv tid s := hr.inv (Inv tid) h₀.inv fun _ _ _ h hok hs => h.step htid hok hs
  refine ⟨fun t t' ht ht' => ?_, fun t ht => hinv.idle (Or.inl ⟨t, ht⟩)⟩
  exact htid.inj ((hinv.own t ht).symm.trans (hinv.own t' ht'))

end Runs

/-- Two processes of one thread each, with the thread ids 1 and 2. -/
def fresh : State (Fin 2) (Fin 2) := ⟨0, 0, [], fun _ => false, fun _ => none, fun _ => .out⟩

def ids (t : Fin 2) : BitVec 32 := BitVec.ofNat 32 (t.val + 1)

theorem fresh_new : New fresh := ⟨rfl, rfl, rfl, fun _ => rfl, fun _ => rfl, fun _ => rfl⟩

theorem ids_tids : Tids ids := ⟨by decide, by decide, by decide⟩

instance (s : State (Fin 2) (Fin 2)) (a : Fin 2 × Act (Fin 2)) : Decidable (filled s a) := by
  unfold filled
  split <;> infer_instance

/-- Process 0 opens and locks the mutex, process 1 waits in the kernel, and `unlock` hands it over. -/
def handActs : List (Fin 2 × Act (Fin 2)) :=
  [(0, .open), (0, .go), (0, .go), (1, .open), (1, .go), (1, .go), (0, .go), (0, .go), (0, .lock), (0, .go),
    (0, .go), (1, .go), (1, .lock), (1, .go), (1, .go), (1, .go), (0, .unlock), (0, .go), (0, .go), (0, .hand 1), (1, .go)]

theorem open_excludes_hand : ∃ s, Run (State.step ids id) filled fresh handActs s ∧ s.pcs 1 = .held ∧
    s.word = waiters ||| 2 ∧ ∀ t, (s.pcs t).holds = true → t = 1 := by
  refine exists_run_imp (fun s => s.pcs 1 = .held ∧ s.word = waiters ||| 2) (by decide +kernel) fun s hrun hx => ?_
  refine ⟨hx.1, hx.2, fun t ht => ?_⟩
  exact (open_excludes ids_tids fresh_new hrun).1 t 1 ht (by rw [hx.1]; rfl)

/-- Process 0 increments the reference count from 0; process 1 opens the mutex and locks it. -/
def lateActs : List (Fin 2 × Act (Fin 2)) :=
  [(0, .open), (0, .go), (0, .go), (1, .open), (1, .go), (1, .go), (1, .go), (1, .lock), (1, .go), (1, .go)]

/-- **The first opener writes its zeros after another process has locked the mutex.** They erase the thread id of
process 1, and process 0 locks the mutex as well. -/
theorem erased_by_opener :
    (∃ s, Run (State.step ids id) (fun _ _ => True) fresh lateActs s ∧ s.pcs 0 = .fill ∧ s.pcs 1 = .held ∧ s.word = 2) ∧
      ∃ s, Run (State.step ids id) (fun _ _ => True) fresh
          (lateActs ++ [(0, .go), (0, .go), (0, .lock), (0, .go), (0, .go)]) s ∧
        s.pcs 0 = .held ∧ s.pcs 1 = .held ∧ s.word = 1 := by
  constructor
  · exact exists_run_of (by decide +kernel)
  · exact exists_run_of (by decide +kernel)

end Mutex

end ThothIpc.Futex
