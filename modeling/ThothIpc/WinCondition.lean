import ThothIpc.Lib.Run
import ThothIpc.Lib.Tally

/-!
# The condition of Windows

`condition.rs`, `WindowsCondition`: a semaphore, and a counter of the waiting threads under a mutex. `wait` registers,
releases the caller's mutex and waits for the semaphore; after a timeout it takes its registration back. `notify` and
`broadcast` post a token for one or for all of the registered threads and take them out of the counter.

* `Pc`, `State.step` : the accesses of any number of threads; the mutexes exclude, the semaphore is a number;
* `counted` : a registration finds a counter that is not negative and is not full;
* `tokens_balanced` : under `counted`, the tokens and the counter are the threads that wait.

`posted` is what a `notify` or `broadcast` has posted and not yet taken off the counter. `due` are the waiting threads
for which a broadcast has posted.
-/

namespace ThothIpc.WinCondition
open Function Steps

/-- Where a thread stands in `wait`, or in `notify` and `broadcast` (`all`), with the counter it has read. -/
inductive Pc where
  | idle
  | regLock (timed : Bool)
  | regRead (timed : Bool)
  | regWrite (timed : Bool) (c : Int)
  | regUnlock (timed : Bool)
  | park (timed : Bool)
  | semWait (timed : Bool)
  | relock (result : Bool)
  | undoLock
  | undoRead
  | undoWrite (c : Int)
  | undoUnlock
  | wakeLock (all : Bool)
  | wakeRead (all : Bool)
  | wakePost (all : Bool) (c : Int)
  | wakeWrite (all : Bool) (c : Int)
  | wakeUnlock
  deriving DecidableEq, Repr

namespace Pc

/-- In a section under the condition's mutex. -/
def inside : Pc → Bool
  | regRead _ | regWrite _ _ | regUnlock _ => true
  | undoRead | undoWrite _ | undoUnlock => true
  | wakeRead _ | wakePost _ _ | wakeWrite _ _ | wakeUnlock => true
  | _ => false

/-- Registered, and the wait for the semaphore has not ended. -/
def waits : Pc → Bool
  | regUnlock _ | park _ | semWait _ => true
  | _ => false

/-- Between registering and the end of the wait, or of the undoing of the registration. -/
def counts : Pc → Bool
  | regUnlock _ | park _ | semWait _ => true
  | relock result => !result
  | undoLock | undoRead | undoWrite _ => true
  | _ => false

/-- Between the post and the store of the counter. -/
def posting : Pc → Bool
  | wakeWrite _ _ => true
  | _ => false

end Pc

structure State (τ : Type) where
  counter : Int
  tokens : Nat
  lock : Option τ
  mtx : Option τ
  pcs : τ → Pc
  posted : Int
  due : τ → Bool

inductive Act where
  | mtxLock
  | mtxUnlock
  | wait (timed : Bool)
  | notify
  | broadcast
  | go
  | timeout
  deriving DecidableEq, Repr

/-- The arithmetic of an `i32`. -/
def i32 (x : Int) : Int := x.bmod (2 ^ 32)

/-- How many tokens are posted for a counter of `c`. -/
def share (all : Bool) (c : Int) : Int := if all then c else 1

variable {τ : Type}

section Step

variable [DecidableEq τ]

def State.set (s : State τ) (t : τ) (pc : Pc) : State τ := { s with pcs := update s.pcs t pc }

/-- The wait of `t` has ended. -/
def State.leave (s : State τ) (t : τ) : State τ := { s with due := update s.due t false }

/-- `t` gets the condition's mutex. -/
def State.acquire (s : State τ) (t : τ) (pc : Pc) : Option (State τ) :=
  if s.lock = none then some { s.set t pc with lock := some t } else none

def State.go (s : State τ) (t : τ) : Option (State τ) :=
  match s.pcs t with
  | .idle => none
  | .regLock timed => s.acquire t (.regRead timed)
  | .regRead timed => some (s.set t (.regWrite timed s.counter))
  | .regWrite timed c =>
    some { s.set t (.regUnlock timed) with counter := if c < 0 then 1 else i32 (c + 1) }
  | .regUnlock timed => some { s.set t (.park timed) with lock := none }
  | .park timed => some { s.set t (.semWait timed) with mtx := none }
  | .semWait _ => if 0 < s.tokens then some { (s.leave t).set t (.relock true) with tokens := s.tokens - 1 } else none
  | .relock result =>
    if s.mtx = none then some { s.set t (if result then .idle else .undoLock) with mtx := some t } else none
  | .undoLock => s.acquire t .undoRead
  | .undoRead => some (s.set t (.undoWrite s.counter))
  | .undoWrite c => some { s.set t .undoUnlock with counter := i32 (c - 1) }
  | .undoUnlock => some { s.set t .idle with lock := none }
  | .wakeLock all => s.acquire t (.wakeRead all)
  | .wakeRead all => some (s.set t (if 0 < s.counter then .wakePost all s.counter else .wakeUnlock))
  | .wakePost all c =>
    some { s.set t (.wakeWrite all c) with
      tokens := s.tokens + (share all c).toNat
      posted := share all c
      due := if all then fun u => (s.pcs u).waits else s.due }
  | .wakeWrite all c => some { s.set t .wakeUnlock with counter := if all then 0 else c - 1, posted := 0 }
  | .wakeUnlock => some { s.set t .idle with lock := none }

def State.step (s : State τ) (a : τ × Act) : Option (State τ) :=
  let t := a.1
  match a.2, s.pcs t with
  | .mtxLock, .idle => if s.mtx = none then some { s with mtx := some t } else none
  | .mtxUnlock, .idle => if s.mtx = some t then some { s with mtx := none } else none
  | .wait timed, .idle => if s.mtx = some t then some (s.set t (.regLock timed)) else none
  | .notify, .idle => some (s.set t (.wakeLock false))
  | .broadcast, .idle => some (s.set t (.wakeLock true))
  | .go, _ => s.go t
  | .timeout, .semWait true => some ((s.leave t).set t (.relock false))
  | _, _ => none

end Step

/-- All threads are idle, the counter and the semaphore are at 0. -/
def start : State τ := ⟨0, 0, none, none, fun _ => .idle, 0, fun _ => false⟩

/-- A registration finds a counter that is not negative, and neither update of the counter overflows. -/
def counted (s : State τ) (a : τ × Act) : Prop :=
  match a.2, s.pcs a.1 with
  | .go, .regWrite _ c => 0 ≤ c ∧ c + 1 < 2 ^ 31
  | .go, .undoWrite c => -2 ^ 31 < c
  | _, _ => True

/-- And no thread registers while one that a broadcast has posted for is still waiting. -/
def orderly (s : State τ) (a : τ × Act) : Prop :=
  counted s a ∧
    match a.2, s.pcs a.1 with
    | .go, .regWrite _ _ => ∀ u, s.due u = false
    | _, _ => True

/-- What a thread has read under the mutex is still so. -/
def Pc.Fits (counter posted : Int) : Pc → Prop
  | regWrite _ c => c = counter
  | undoWrite c => c = counter
  | wakePost _ c => c = counter ∧ 0 < c
  | wakeWrite all c => c = counter ∧ 0 < c ∧ posted = share all c
  | _ => True

theorem Pc.fits_of_outside {pc : Pc} (h : pc.inside = false) (c p : Int) : pc.Fits c p := by
  cases pc <;> trivial

theorem Pc.inside_of_posting {pc : Pc} (h : pc.posting = true) : pc.inside = true := by
  cases pc <;> first | rfl | cases h

theorem share_pos {all : Bool} {c : Int} (hc : 0 < c) : 0 < share all c := by
  cases all with
  | false => exact Int.one_pos
  | true => exact hc

/-! ## What a step does -/

section Does

variable [DecidableEq τ]

/-- A thread moves on, and may lock or unlock a mutex; or it writes the counter, takes a token or gives up, posts
tokens, or stores the counter after that. -/
inductive Does (s : State τ) (t : τ) : Act → State τ → Prop
  | move {a : Act} {s' : State τ} (pc : Pc) (hp : s'.pcs = update s.pcs t pc)
      (hc : s'.counter = s.counter) (hk : s'.tokens = s.tokens) (hpo : s'.posted = s.posted) (hd : s'.due = s.due)
      (hcount : pc.counts = (s.pcs t).counts) (hwait : pc.waits = (s.pcs t).waits) (hold : (s.pcs t).posting = false)
      (hl : s'.lock = s.lock ∨ s.lock = none ∨ (s.pcs t).inside = true)
      (hin : pc.inside = true → s'.lock = some t ∨ s'.lock = s.lock ∧ (s.pcs t).inside = true)
      (hfit : pc.Fits s.counter s.posted) : Does s t a s'
  | register {timed : Bool} {c : Int} (hpc : s.pcs t = .regWrite timed c) :
      Does s t .go { s.set t (.regUnlock timed) with counter := if c < 0 then 1 else i32 (c + 1) }
  | take {timed : Bool} (hpc : s.pcs t = .semWait timed) (hpos : 0 < s.tokens) :
      Does s t .go { (s.leave t).set t (.relock true) with tokens := s.tokens - 1 }
  | timeout (hpc : s.pcs t = .semWait true) : Does s t .timeout ((s.leave t).set t (.relock false))
  | undo {c : Int} (hpc : s.pcs t = .undoWrite c) :
      Does s t .go { s.set t .undoUnlock with counter := i32 (c - 1) }
  | post {all : Bool} {c : Int} (hpc : s.pcs t = .wakePost all c) :
      Does s t .go { s.set t (.wakeWrite all c) with
        tokens := s.tokens + (share all c).toNat
        posted := share all c
        due := if all then fun u => (s.pcs u).waits else s.due }
  | store {all : Bool} {c : Int} (hpc : s.pcs t = .wakeWrite all c) :
      Does s t .go { s.set t .wakeUnlock with counter := if all then 0 else c - 1, posted := 0 }

variable {s s' : State τ} {t : τ} {pc : Pc}

theorem Does.outside {a : Act} (hp : s'.pcs = update s.pcs t pc) (hc : s'.counter = s.counter)
    (hk : s'.tokens = s.tokens) (hpo : s'.posted = s.posted) (hd : s'.due = s.due) (hl : s'.lock = s.lock)
    (hcount : pc.counts = (s.pcs t).counts) (hwait : pc.waits = (s.pcs t).waits) (hold : (s.pcs t).posting = false)
    (hin : pc.inside = false) : Does s t a s' :=
  .move pc hp hc hk hpo hd hcount hwait hold (.inl hl) (fun h => by rw [hin] at h; cases h)
    (Pc.fits_of_outside hin _ _)

theorem Does.inside {a : Act} (hin : (s.pcs t).inside = true) (hold : (s.pcs t).posting = false)
    (hcount : pc.counts = (s.pcs t).counts) (hwait : pc.waits = (s.pcs t).waits) (hfit : pc.Fits s.counter s.posted) :
    Does s t a (s.set t pc) :=
  .move pc rfl rfl rfl rfl rfl hcount hwait hold (.inl rfl) (fun _ => .inr ⟨rfl, hin⟩) hfit

theorem Does.unlock {a : Act} (hin : (s.pcs t).inside = true) (hold : (s.pcs t).posting = false)
    (hcount : pc.counts = (s.pcs t).counts) (hwait : pc.waits = (s.pcs t).waits) (hout : pc.inside = false) :
    Does s t a { s.set t pc with lock := none } :=
  .move pc rfl rfl rfl rfl rfl hcount hwait hold (.inr (.inr hin)) (fun h => by rw [hout] at h; cases h)
    (Pc.fits_of_outside hout _ _)

theorem Does.acquire {a : Act} (hs : s.acquire t pc = some s') (hold : (s.pcs t).posting = false)
    (hcount : pc.counts = (s.pcs t).counts) (hwait : pc.waits = (s.pcs t).waits) (hfit : pc.Fits s.counter s.posted) :
    Does s t a s' := by
  unfold State.acquire at hs
  split at hs
  · rename_i hlock
    cases hs
    exact .move pc rfl rfl rfl rfl rfl hcount hwait hold (.inr (.inl hlock)) (fun _ => .inl rfl) hfit
  · cases hs

theorem does_go (hs : s.go t = some s') : Does s t .go s' := by
  unfold State.go at hs
  cases hpc : s.pcs t with
  | idle =>
    rw [hpc] at hs
    cases hs
  | regLock timed | undoLock | wakeLock all =>
    rw [hpc] at hs
    exact .acquire hs (by rw [hpc]; rfl) (by rw [hpc]; rfl) (by rw [hpc]; rfl) trivial
  | regRead timed | undoRead =>
    rw [hpc] at hs
    cases hs
    exact .inside (by rw [hpc]; rfl) (by rw [hpc]; rfl) (by rw [hpc]; rfl) (by rw [hpc]; rfl) rfl
  | regUnlock timed | undoUnlock | wakeUnlock =>
    rw [hpc] at hs
    cases hs
    exact .unlock (by rw [hpc]; rfl) (by rw [hpc]; rfl) (by rw [hpc]; rfl) (by rw [hpc]; rfl) rfl
  | park timed =>
    rw [hpc] at hs
    cases hs
    exact .outside rfl rfl rfl rfl rfl rfl (by rw [hpc]; rfl) (by rw [hpc]; rfl) (by rw [hpc]; rfl) rfl
  | relock result =>
    rw [hpc] at hs
    dsimp only at hs
    split at hs
    · cases hs
      cases result <;>
        exact .outside rfl rfl rfl rfl rfl rfl (by rw [hpc]; rfl) (by rw [hpc]; rfl) (by rw [hpc]; rfl) rfl
    · cases hs
  | wakeRead all =>
    rw [hpc] at hs
    cases hs
    by_cases hpos : 0 < s.counter
    · rw [if_pos hpos]
      exact .inside (by rw [hpc]; rfl) (by rw [hpc]; rfl) (by rw [hpc]; rfl) (by rw [hpc]; rfl) ⟨rfl, hpos⟩
    · rw [if_neg hpos]
      exact .inside (by rw [hpc]; rfl) (by rw [hpc]; rfl) (by rw [hpc]; rfl) (by rw [hpc]; rfl) trivial
  | semWait timed =>
    rw [hpc] at hs
    dsimp only at hs
    split at hs
    · cases hs
      exact .take hpc ‹_›
    · cases hs
  | regWrite timed c =>
    rw [hpc] at hs
    cases hs
    exact .register hpc
  | undoWrite c =>
    rw [hpc] at hs
    cases hs
    exact .undo hpc
  | wakePost all c =>
    rw [hpc] at hs
    cases hs
    exact .post hpc
  | wakeWrite all c =>
    rw [hpc] at hs
    cases hs
    exact .store hpc

/-- **Every step is one of these.** -/
theorem does {a : τ × Act} (hs : s.step a = some s') : Does s a.1 a.2 s' := by
  obtain ⟨t, a⟩ := a
  -- the caller's mutex is locked or unlocked, the thread stays where it is
  have hstay {m : Option τ} (hpc : s.pcs t = .idle) : Does s t a { s with mtx := m } := by
    have hself : s.pcs = update s.pcs t .idle := by rw [← hpc, update_eq_self]
    exact .outside hself rfl rfl rfl rfl rfl (by rw [hpc]) (by rw [hpc]) (by rw [hpc]; rfl) rfl
  have hcall {pc : Pc} (hpc : s.pcs t = .idle) (hc : pc.counts = false) (hw : pc.waits = false)
      (hin : pc.inside = false) : Does s t a (s.set t pc) :=
    .outside rfl rfl rfl rfl rfl rfl (by rw [hpc, hc]; rfl) (by rw [hpc, hw]; rfl) (by rw [hpc]; rfl) hin
  unfold State.step at hs
  dsimp only at hs
  split at hs
  · split at hs
    · cases hs
      exact hstay ‹_›
    · cases hs
  · split at hs
    · cases hs
      exact hstay ‹_›
    · cases hs
  · split at hs
    · cases hs
      exact hcall ‹_› rfl rfl rfl
    · cases hs
  · cases hs
    exact hcall ‹_› rfl rfl rfl
  · cases hs
    exact hcall ‹_› rfl rfl rfl
  · exact does_go hs
  · cases hs
    exact .timeout ‹_›
  · cases hs

end Does

/-! ## The balance -/

structure Inv (s : State τ) : Prop where
  lock : ∀ t, (s.pcs t).inside = true → s.lock = some t
  fits : ∀ t, (s.pcs t).Fits s.counter s.posted
  none : (∀ t, (s.pcs t).posting = false) → s.posted = 0
  range : -2 ^ 31 ≤ s.counter ∧ s.counter < 2 ^ 31
  balance : ∃ n : Nat, Tally (fun t => (s.pcs t).counts) n ∧ s.tokens + s.counter = n + s.posted

namespace Inv

variable {s s' : State τ} {t : τ} {pc : Pc}

theorem start : Inv (start : State τ) :=
  ⟨nofun, fun _ => trivial, fun _ => rfl, ⟨by norm_num [WinCondition.start], by norm_num [WinCondition.start]⟩, 0,
    tally_none fun _ => rfl, rfl⟩

theorem alone (h : Inv s) {u : τ} (ht : (s.pcs t).inside = true) (hu : (s.pcs u).inside = true) : u = t := by
  have heq := h.lock u hu
  rw [h.lock t ht] at heq
  exact (Option.some.inj heq).symm

theorem posted_zero (h : Inv s) (hin : (s.pcs t).inside = true) (hpost : (s.pcs t).posting = false) : s.posted = 0 := by
  refine h.none fun u => ?_
  by_contra hu
  have hu' : (s.pcs u).posting = true := by simpa using hu
  rw [h.alone hin (Pc.inside_of_posting hu'), hpost] at hu'
  cases hu'

variable [DecidableEq τ]

/-- One thread moves to `pc`. The counter is changed only under the mutex, and the balance of the thread is kept. -/
theorem next (h : Inv s) (hp : s'.pcs = update s.pcs t pc)
    (hl : s'.lock = s.lock ∨ s.lock = .none ∨ (s.pcs t).inside = true) (hin : pc.inside = true → s'.lock = some t)
    (hkeep : (s.pcs t).inside = true ∨ s'.counter = s.counter ∧ s'.posted = s.posted)
    (hrange : s'.counter = s.counter ∨ -2 ^ 31 ≤ s'.counter ∧ s'.counter < 2 ^ 31)
    (hfit : pc.Fits s'.counter s'.posted)
    (hnone : pc.posting = true ∨ s'.posted = 0 ∨ (s.pcs t).posting = false ∧ s'.posted = s.posted)
    (hbal : s'.tokens + s'.counter - s'.posted - (if pc.counts then 1 else 0) =
      s.tokens + s.counter - s.posted - (if (s.pcs t).counts then 1 else 0)) : Inv s' := by
  have hself : s'.pcs t = pc := by rw [hp, update_self]
  have hother {u : τ} (hu : u ≠ t) : s'.pcs u = s.pcs u := by rw [hp, update_of_ne hu]
  -- nobody else is inside if `t` is, or if the mutex is free
  have houtside {u : τ} (hu : u ≠ t) (ht : (s.pcs t).inside = true) : (s.pcs u).inside = false := by
    by_contra hin
    exact hu (h.alone ht (by simpa using hin))
  refine ⟨fun u hu => ?_, fun u => ?_, fun hall => ?_, ?_, ?_⟩
  · by_cases hut : u = t
    · subst hut
      exact hin (hself ▸ hu)
    · rw [hother hut] at hu
      rcases hl with hl | hl | hl
      · rw [hl]
        exact h.lock u hu
      · rw [h.lock u hu] at hl
        cases hl
      · rw [houtside hut hl] at hu
        cases hu
  · by_cases hut : u = t
    · subst hut
      rw [hself]
      exact hfit
    · rw [hother hut]
      rcases hkeep with hk | ⟨hc, hpo⟩
      · exact Pc.fits_of_outside (houtside hut hk) _ _
      · rw [hc, hpo]
        exact h.fits u
  · rcases hnone with hn | hn | ⟨hn, hpo⟩
    · rw [← hself, hall t] at hn
      cases hn
    · exact hn
    · rw [hpo]
      refine h.none fun u => ?_
      by_cases hut : u = t
      · rw [hut, hn]
      · rw [← hother hut, hall u]
  · rcases hrange with hr | hr
    · rw [hr]
      exact h.range
    · exact hr
  · obtain ⟨n, htally, hn⟩ := h.balance
    have hsame : ∀ u, u ≠ t → (s'.pcs u).counts = (s.pcs u).counts := fun u hu => by rw [hother hu]
    cases hold : (s.pcs t).counts with
    | false =>
      cases hnew : pc.counts with
      | false =>
        rw [hold, hnew] at hbal
        refine ⟨n, htally.congr fun u => ?_, by simp only [Bool.false_eq_true, if_false] at hbal; omega⟩
        by_cases hut : u = t
        · rw [hut, hself, hnew, hold]
        · exact hsame u hut
      | true =>
        rw [hold, hnew] at hbal
        exact ⟨n + 1, htally.enter hold (by rw [hself, hnew]) hsame,
          by simp only [Bool.false_eq_true, if_false, if_true] at hbal; push_cast; omega⟩
    | true =>
      cases hnew : pc.counts with
      | false =>
        rw [hold, hnew] at hbal
        obtain ⟨m, rfl, hm⟩ := htally.leave hold (by rw [hself, hnew]) hsame
        exact ⟨m, hm, by simp only [Bool.false_eq_true, if_false, if_true] at hbal; push_cast at hn; omega⟩
      | true =>
        rw [hold, hnew] at hbal
        refine ⟨n, htally.congr fun u => ?_, by simp only [if_true] at hbal; omega⟩
        by_cases hut : u = t
        · rw [hut, hself, hnew, hold]
        · exact hsame u hut

theorem i32_eq {x : Int} (h₁ : -2 ^ 31 ≤ x) (h₂ : x < 2 ^ 31) : i32 x = x := by
  unfold i32
  rw [Int.bmod_eq_of_le] <;> omega

/-- A step under the mutex that changes the counter by `d`, with the thread that is counted. -/
theorem writes (h : Inv s) {d : Int} (hp : s'.pcs = update s.pcs t pc) (hk : s'.tokens = s.tokens)
    (hpo : s'.posted = s.posted) (hl : s'.lock = s.lock) (hc : s'.counter = s.counter + d)
    (hold : (s.pcs t).inside = true) (hpost : (s.pcs t).posting = false)
    (hrange : -2 ^ 31 ≤ s.counter + d ∧ s.counter + d < 2 ^ 31) (hfit : pc.Fits s'.counter s'.posted)
    (hd : s.counter + d - (if pc.counts then 1 else 0) = s.counter - (if (s.pcs t).counts then 1 else 0)) :
    Inv s' := by
  refine h.next hp (.inl hl) (fun _ => hl.trans (h.lock t hold)) (.inl hold) (.inr (by rwa [hc])) hfit
    (.inr (.inr ⟨hpost, hpo⟩)) ?_
  rw [hk, hpo, hc]
  omega

/-- A thread takes a token or not, and is not counted from then on if it did. -/
theorem waited (h : Inv s) (hp : s'.pcs = update s.pcs t pc) (hl : s'.lock = s.lock)
    (hc : s'.counter = s.counter) (hpo : s'.posted = s.posted) (hpost : (s.pcs t).posting = false)
    (hin : pc.inside = false)
    (hbal : (s'.tokens : Int) - (if pc.counts then 1 else 0) = s.tokens - (if (s.pcs t).counts then 1 else 0)) :
    Inv s' := by
  refine h.next hp (.inl hl) ?_ (.inr ⟨hc, hpo⟩) (.inl hc) (Pc.fits_of_outside hin _ _) (.inr (.inr ⟨hpost, hpo⟩)) ?_
  · rw [hin]
    nofun
  · rw [hc, hpo]
    omega

/-- **Every step keeps the balance**, unless a registration finds a negative counter. -/
theorem step (h : Inv s) {a : τ × Act} (hok : counted s a) (hs : s.step a = some s') : Inv s' := by
  obtain ⟨t, a⟩ := a
  have hfit := h.fits t
  cases does hs with
  | move pc hp hc hk hpo hd hcount hwait hold hl hin hfit' =>
    refine h.next hp hl (fun hi => (hin hi).elim id fun hh => hh.1.trans (h.lock t hh.2)) (.inr ⟨hc, hpo⟩) (.inl hc)
      (by rwa [hc, hpo]) (.inr (.inr ⟨hold, hpo⟩)) ?_
    rw [hc, hk, hpo, hcount]
  | register hpc =>
    rename_i timed c
    rw [hpc] at hfit
    have hval : c = s.counter := hfit
    have hc : 0 ≤ c ∧ c + 1 < 2 ^ 31 := by simpa only [counted, hpc] using hok
    have hnew : (if c < 0 then 1 else i32 (c + 1)) = s.counter + 1 := by
      rw [if_neg (by omega), i32_eq (by omega) hc.2, hval]
    refine h.writes rfl rfl rfl rfl hnew (by rw [hpc]; rfl) (by rw [hpc]; rfl) (by omega) trivial ?_
    rw [hpc]
    show s.counter + 1 - 1 = s.counter - 0
    omega
  | take hpc hpos =>
    refine h.waited rfl rfl rfl rfl (by rw [hpc]; rfl) rfl ?_
    rw [hpc]
    show ((s.tokens - 1 : Nat) : Int) - 0 = s.tokens - 1
    omega
  | timeout hpc => exact h.waited rfl rfl rfl rfl (by rw [hpc]; rfl) rfl (by rw [hpc]; rfl)
  | undo hpc =>
    rename_i c
    rw [hpc] at hfit
    have hval : c = s.counter := hfit
    have hc : -2 ^ 31 < c := by simpa only [counted, hpc] using hok
    have hrange := h.range
    have hnew : i32 (c - 1) = s.counter + -1 := by
      rw [i32_eq (by omega) (by omega), hval]
      rfl
    refine h.writes rfl rfl rfl rfl hnew (by rw [hpc]; rfl) (by rw [hpc]; rfl) (by omega) trivial ?_
    rw [hpc]
    show s.counter + -1 - 0 = s.counter - 1
    omega
  | post hpc =>
    rename_i all c
    have hin : (s.pcs t).inside = true := by rw [hpc]; rfl
    have hzero := h.posted_zero hin (by rw [hpc]; rfl)
    rw [hpc] at hfit
    have hshare : ((share all c).toNat : Int) = share all c := Int.toNat_of_nonneg (share_pos hfit.2).le
    refine h.next rfl (.inl rfl) (fun _ => h.lock t hin) (.inl hin) (.inl rfl) ⟨hfit.1, hfit.2, rfl⟩ (.inl rfl) ?_
    rw [hpc, hzero]
    show ((s.tokens + (share all c).toNat : Nat) : Int) + s.counter - share all c - 0 = s.tokens + s.counter - 0 - 0
    push_cast
    omega
  | store hpc =>
    rename_i all c
    have hin : (s.pcs t).inside = true := by rw [hpc]; rfl
    rw [hpc] at hfit
    obtain ⟨hval, hpos, hposted⟩ := hfit
    have hnew : (if all then 0 else c - 1) = s.counter - share all c := by
      cases all <;> simp [share, hval]
    have hle : 0 < share all c ∧ share all c ≤ c := by
      cases all with
      | false => exact ⟨Int.one_pos, hpos⟩
      | true => exact ⟨hpos, le_rfl⟩
    have hrange := h.range
    refine h.next rfl (.inl rfl) (fun _ => h.lock t hin) (.inl hin) (.inr ?_) trivial (.inr (.inl rfl)) ?_
    · show -2 ^ 31 ≤ (if all then 0 else c - 1) ∧ (if all then 0 else c - 1) < 2 ^ 31
      rw [hnew]
      omega
    · rw [hpc, hposted]
      show (s.tokens : Int) + (if all then 0 else c - 1) - 0 - 0 = s.tokens + s.counter - share all c - 0
      rw [hnew]
      omega

end Inv

/-! ## The tokens of a broadcast -/

/-- Every thread that is due is waiting and has a token; as long as there are any, all waiting threads are due. -/
structure Kept (s : State τ) : Prop where
  tokens : ∃ m ≤ s.tokens, Tally s.due m
  waits : ∀ u, s.due u = true → (s.pcs u).waits = true
  all : (∀ u, s.due u = false) ∨ ∀ u, (s.pcs u).waits = true → s.due u = true

namespace Kept

variable {s s' : State τ} {t : τ} {pc : Pc}

theorem start : Kept (start : State τ) := ⟨⟨0, le_rfl, tally_none fun _ => rfl⟩, nofun, .inl fun _ => rfl⟩

theorem mono (h : Kept s) (hk : s.tokens ≤ s'.tokens) : ∃ m ≤ s'.tokens, Tally s.due m := by
  obtain ⟨m, hm, htally⟩ := h.tokens
  exact ⟨m, hm.trans hk, htally⟩

variable [DecidableEq τ]

theorem next (h : Kept s) (hp : s'.pcs = update s.pcs t pc) (hd : s'.due = s.due) (hk : s.tokens ≤ s'.tokens)
    (hw : pc.waits = (s.pcs t).waits) : Kept s' := by
  have hsame (u : τ) : (s'.pcs u).waits = (s.pcs u).waits := by
    rw [hp]
    by_cases hu : u = t
    · rw [hu, update_self, hw]
    · rw [update_of_ne hu]
  refine ⟨hd ▸ h.mono hk, fun u hu => ?_, ?_⟩
  · rw [hsame]
    exact h.waits u (hd ▸ hu)
  · rw [hd]
    simp only [hsame]
    exact h.all

theorem ends (h : Kept s) (hp : s'.pcs = update s.pcs t pc) (hd : s'.due = update s.due t false)
    (hw : (s.pcs t).waits = true) (hpc : pc.waits = false) (hk : s.tokens - 1 ≤ s'.tokens) : Kept s' := by
  have hother {u : τ} (hu : u ≠ t) : s'.pcs u = s.pcs u ∧ s'.due u = s.due u := by
    rw [hp, hd, update_of_ne hu, update_of_ne hu]
    exact ⟨rfl, rfl⟩
  have hself : (s'.pcs t).waits = false ∧ s'.due t = false := by
    rw [hp, hd, update_self, update_self]
    exact ⟨hpc, rfl⟩
  obtain ⟨m, hm, htally⟩ := h.tokens
  refine ⟨?_, fun u hu => ?_, ?_⟩
  · cases hdue : s.due t with
    | true =>
      obtain ⟨k, rfl, hk'⟩ := htally.leave hdue hself.2 fun u hu => (hother hu).2
      exact ⟨k, by omega, hk'⟩
    | false =>
      -- a waiting thread is not due: then no thread is
      have hnone : ∀ u, s.due u = false := h.all.resolve_right fun hall => by
        rw [hall t hw] at hdue
        cases hdue
      refine ⟨0, Nat.zero_le _, tally_none fun u => ?_⟩
      by_cases hu : u = t
      · rw [hu, hself.2]
      · rw [(hother hu).2, hnone u]
  · by_cases hut : u = t
    · rw [hut, hself.2] at hu
      cases hu
    · rw [(hother hut).1]
      exact h.waits u ((hother hut).2 ▸ hu)
  · refine h.all.imp (fun hnone u => ?_) (fun hall u hu => ?_)
    · by_cases hut : u = t
      · rw [hut, hself.2]
      · rw [(hother hut).2, hnone u]
    · by_cases hut : u = t
      · rw [hut, hself.1] at hu
        cases hu
      · rw [(hother hut).2]
        exact hall u ((hother hut).1 ▸ hu)

/-- A broadcast posts a token for each thread that is counted, so for each that is waiting. -/
theorem posts (hi : Inv s) {c : Int} (hpc : s.pcs t = .wakePost true c) :
    Kept { s.set t (.wakeWrite true c) with
      tokens := s.tokens + (share true c).toNat
      posted := share true c
      due := fun u => (s.pcs u).waits } := by
  have hsame (u : τ) : ((update s.pcs t (.wakeWrite true c)) u).waits = (s.pcs u).waits := by
    by_cases hu : u = t
    · rw [hu, update_self, hpc]
      rfl
    · rw [update_of_ne hu]
  refine ⟨?_, fun u hu => (hsame u).trans hu, .inr fun u hu => (hsame u).symm.trans hu⟩
  obtain ⟨n, htally, hn⟩ := hi.balance
  obtain ⟨m, hm, hwaits⟩ := htally.sub (q := fun u => (s.pcs u).waits) fun u hu => by
    revert hu
    cases s.pcs u <;> first | exact fun _ => rfl | exact nofun
  refine ⟨m, ?_, hwaits⟩
  have hzero := hi.posted_zero (t := t) (by rw [hpc]; rfl) (by rw [hpc]; rfl)
  have hfit := hi.fits t
  rw [hpc] at hfit
  have hval : c = s.counter := hfit.1
  show m ≤ s.tokens + c.toNat
  omega

theorem step (h : Kept s) (hi : Inv s) {a : τ × Act} (hok : orderly s a) (hs : s.step a = some s') : Kept s' := by
  obtain ⟨t, a⟩ := a
  cases does hs with
  | move pc hp hc hk hpo hd hcount hwait hold hl hin hfit => exact h.next hp hd hk.ge hwait
  | register hpc =>
    have hnone : ∀ u, s.due u = false := by simpa only [hpc] using hok.2
    exact ⟨h.tokens, fun u hu => absurd ((hnone u).symm.trans hu) nofun, .inl hnone⟩
  | take hpc hpos => exact h.ends rfl rfl (by rw [hpc]; rfl) rfl le_rfl
  | timeout hpc => exact h.ends rfl rfl (by rw [hpc]; rfl) rfl (Nat.sub_le _ _)
  | undo hpc => exact h.next rfl rfl le_rfl (by rw [hpc]; rfl)
  | post hpc =>
    rename_i all c
    cases all with
    | false => exact h.next rfl rfl (Nat.le_add_right _ _) (by rw [hpc]; rfl)
    | true => exact posts hi hpc
  | store hpc => exact h.next rfl rfl le_rfl (by rw [hpc]; rfl)

end Kept

/-- The tokens and the counter are the threads between registering and the end of their wait, unless a thread stands
between its post and the store of the counter. -/
def Balanced (s : State τ) : Prop :=
  (∀ t, (s.pcs t).posting = false) → s.tokens + s.counter = ({t | (s.pcs t).counts = true}.ncard : Int)

/-- There is a token for every waiting thread that a broadcast has posted for: none was taken by a thread that
registered after the broadcast. -/
def Unrobbed (s : State τ) : Prop := {u | s.due u = true}.ncard ≤ s.tokens

/-- **The tokens are balanced.** If no registration finds a negative counter or one that would overflow: outside the
sections between a post and the store of the counter, tokens and counter are the threads between registering and the end
of their wait. If no thread registers while one that was posted for is waiting, its token stays. -/
theorem tokens_balanced {τ : Type} [DecidableEq τ] {acts : List (τ × Act)} {s : State τ}
    (hrun : Run State.step counted start acts s) :
    Balanced s ∧ (Run State.step orderly start acts s → Unrobbed s) := by
  have hinv := hrun.inv Inv Inv.start fun _ _ _ h hok hst => h.step hok hst
  refine ⟨fun hnone => ?_, fun hord => ?_⟩
  · obtain ⟨n, htally, hn⟩ := hinv.balance
    rw [htally.ncard, hn, hinv.none hnone, add_zero]
  · have hkept := hord.inv (fun s => Inv s ∧ Kept s) ⟨Inv.start, Kept.start⟩ fun _ _ _ h hok hst =>
      ⟨h.1.step hok.1 hst, h.2.step h.1 hok hst⟩
    obtain ⟨m, hm, htally⟩ := hkept.2.tokens
    rw [Unrobbed, htally.ncard]
    exact hm

instance (s : State τ) (a : τ × Act) : Decidable (counted s a) := by
  unfold counted
  split <;> infer_instance

instance [Fintype τ] (s : State τ) (a : τ × Act) : Decidable (orderly s a) := by
  unfold orderly
  refine @instDecidableAnd _ _ _ ?_
  split <;> infer_instance

/-- Thread `t` calls `wait` and gets to the semaphore. -/
def waiting {n : Nat} (t : Fin n) (timed : Bool) : List (Fin n × Act) :=
  [(t, .mtxLock), (t, .wait timed)] ++ List.replicate 5 (t, Act.go)

/-- Thread `t` calls `broadcast`, up to its return. -/
def waking {n : Nat} (t : Fin n) : List (Fin n × Act) := (t, Act.broadcast) :: List.replicate 5 (t, Act.go)

/-- One thread waits, another broadcasts, and the first takes the token. -/
theorem tokens_balanced_one : ∃ s : State (Fin 2),
    Run State.step orderly start (waiting 0 false ++ waking 1 ++ [(0, .go)]) s ∧ s.pcs 0 = .relock true ∧
      s.tokens + s.counter = ({t | (s.pcs t).counts = true}.ncard : Int) ∧ Unrobbed s := by
  refine exists_run_imp (fun s => s.pcs 0 = .relock true ∧ s.pcs 1 = .idle) (by decide +kernel) fun s hrun hs => ?_
  obtain ⟨h₀, h₁⟩ := hs
  obtain ⟨hbal, hrob⟩ := tokens_balanced (hrun.mono fun _ _ h => h.1)
  refine ⟨h₀, hbal fun t => ?_, hrob hrun⟩
  fin_cases t
  · exact congrArg Pc.posting h₀
  · exact congrArg Pc.posting h₁

/-- A wait times out, a broadcast posts a token for it before the registration is undone, and the thread waits again. -/
def astrayActs : List (Fin 2 × Act) :=
  waiting 0 true ++ (0, Act.timeout) :: waking 1 ++ List.replicate 5 (0, Act.go) ++
    (0, Act.wait true) :: List.replicate 3 (0, Act.go)

/-- Thread 0 is about to wait for the semaphore, thread 1 broadcasts, thread 2 registers and waits for the semaphore. -/
def robActs : List (Fin 3 × Act) := waiting 0 false ++ waking 1 ++ waiting 2 false ++ [(2, .go)]

/-- **Tokens go astray.** After the timeout the counter is -1, with a token left over. In the second run thread 2, which
registered after the broadcast had returned, has the token posted for thread 0. -/
theorem tokens_astray :
    (∃ s, Run State.step (fun _ _ => True) start astrayActs s ∧ (∀ t, (s.pcs t).posting = false) ∧
      s.tokens = 1 ∧ s.counter = 1 ∧ {t | (s.pcs t).counts = true} = {0} ∧ ¬Balanced s) ∧
    ∃ s, Run State.step (fun _ _ => True) start robActs s ∧ s.pcs 0 = .semWait false ∧ s.due 0 = true ∧
      s.pcs 2 = .relock true ∧ s.tokens = 0 ∧ ¬Unrobbed s := by
  constructor
  · refine exists_run_imp (fun s => s.pcs 0 = .regUnlock true ∧ s.pcs 1 = .idle ∧ s.tokens = 1 ∧ s.counter = 1)
      (by decide +kernel) fun s hrun hs => ?_
    obtain ⟨h₀, h₁, hk, hc⟩ := hs
    have hset : {t | (s.pcs t).counts = true} = {0} := by
      ext t
      fin_cases t
      · simp [h₀, Pc.counts]
      · simp [h₁, Pc.counts]
    have hnone : ∀ t, (s.pcs t).posting = false := fun t => by
      fin_cases t
      · exact congrArg Pc.posting h₀
      · exact congrArg Pc.posting h₁
    refine ⟨hnone, hk, hc, hset, fun hbal => ?_⟩
    have := hbal hnone
    rw [hset, hk, hc, Set.ncard_singleton] at this
    omega
  · refine exists_run_imp (fun s => s.pcs 0 = .semWait false ∧ s.due 0 = true ∧ s.pcs 2 = .relock true ∧ s.tokens = 0)
      (by decide +kernel) fun s hrun hs => ?_
    obtain ⟨h₀, hd, h₂, hk⟩ := hs
    refine ⟨h₀, hd, h₂, hk, fun hrob => ?_⟩
    have hpos : 0 < {u | s.due u = true}.ncard := (Set.ncard_pos (Set.toFinite _)).mpr ⟨0, hd⟩
    rw [Unrobbed, hk] at hrob
    omega

end ThothIpc.WinCondition
