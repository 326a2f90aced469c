import Mathlib

/-!
# Timed waits of a channel

`Waiter::wait_if` of `waiter.rs` (and of `waiter.h`, which looks at its predicate once more before it takes the lock)
waits on the condition as long as the predicate is true. `ChanInner::wait_for` of `channel.rs` spins first, and calls
`wait_if` with the milliseconds that are left. Times are in nanoseconds; only the condition's wait takes time, and it is
exact.

* `Choice` : what a step meets: the quit flag, the predicate, when the condition is woken;
* `IfState.next`, `ForState.next` : the steps of `wait_if` and of `wait_for`;
* `waits_bounded` : both return in time, if no wakeup that took time leaves the predicate true.
-/

namespace ThothIpc.WaitIf

/-- Milliseconds, in nanoseconds. -/
def ms (t : Nat) : Nat := t * 1000000

/-- What the code meets at a step. -/
structure Choice where
  quit : Bool
  pred : Bool
  wake : Option Nat
  deriving DecidableEq, Repr

/-- The states that the choices of the environment lead to, one after the other. -/
def run {σ : Type} (next : σ → Choice → σ) (s : σ) (env : Nat → Choice) : Nat → σ
  | 0 => s
  | n + 1 => next (run next s env n) (env n)

/-! ## The two waits -/

/-- Where a thread stands in `wait_if`: at the look before the lock (C++ only), at the loop's condition, in the wait, or
back. -/
inductive IfPc where
  | fast
  | check
  | wait
  | done (ok : Bool)
  deriving DecidableEq, Repr

structure IfState where
  pc : IfPc
  now : Nat
  deriving DecidableEq, Repr

namespace IfState

/-- `wait_if` is called at `T`. -/
def start (fast : Bool) (T : Nat) : IfState := ⟨if fast then .fast else .check, T⟩

def next (tm : Nat) (s : IfState) (c : Choice) : IfState :=
  match s.pc with
  | .fast => { s with pc := if c.quit || !c.pred then .done true else .check }
  | .check => { s with pc := if !c.quit && c.pred then .wait else .done true }
  | .wait =>
    match c.wake with
    | none => ⟨.done false, s.now + ms tm⟩
    | some d => if d ≤ ms tm then ⟨.check, s.now + d⟩ else ⟨.done false, s.now + ms tm⟩
  | .done _ => s

/-- The time, and the result if there is one. -/
def view (s : IfState) : Nat × Option Bool :=
  (s.now, match s.pc with
    | .done ok => some ok
    | _ => none)

theorem view_false {s : IfState} (h : s.view.2 = some false) : s.pc = .done false := by
  unfold view at h
  dsimp only at h
  split at h
  · cases h
    assumption
  · cases h

/-- If the loop goes on after a wakeup, no time has passed since the call. -/
def Prompt (T : Nat) (s : IfState) (c : Choice) : Prop :=
  s.pc = .check → c.quit = false → c.pred = true → s.now = T

instance (T : Nat) (s : IfState) (c : Choice) : Decidable (s.Prompt T c) := inferInstanceAs (Decidable (_ → _))

end IfState

/-- Where a thread stands in `wait_for`: at its only look if there is no time to wait, at the condition of the loop
after `k` yields, in `wait_if` with a timeout of `tm`, called at `since`, or back. -/
inductive ForPc where
  | once
  | spin (k : Nat)
  | inner (tm since : Nat) (pc : IfPc)
  | done (ok : Bool)
  deriving DecidableEq, Repr

structure ForState where
  pc : ForPc
  now : Nat
  deriving DecidableEq, Repr

def spinCount : Nat := 32

namespace ForState

/-- `wait_for` is called at `T` with a timeout of `t` milliseconds. -/
def start (t T : Nat) : ForState := ⟨if t = 0 then .once else .spin 0, T⟩

def next (deadline : Nat) (s : ForState) (c : Choice) : ForState :=
  match s.pc with
  | .once => { s with pc := .done !c.pred }
  | .spin k =>
    if !c.pred then { s with pc := .done true }
    else if k < spinCount then { s with pc := .spin (k + 1) }
    else
      let tm := (deadline - s.now) / 1000000
      if tm = 0 then { s with pc := .done false } else { s with pc := .inner tm s.now .check }
  | .inner tm since pc =>
    let r := IfState.next tm ⟨pc, s.now⟩ c
    match r.pc with
    | .done ok => ⟨if ok then .spin 0 else .done false, r.now⟩
    | pc => ⟨.inner tm since pc, r.now⟩
  | .done _ => s

/-- The time, and the result if there is one. -/
def view (s : ForState) : Nat × Option Bool :=
  (s.now, match s.pc with
    | .done ok => some ok
    | _ => none)

theorem view_false {s : ForState} (h : s.view.2 = some false) : s.pc = .done false := by
  unfold view at h
  dsimp only at h
  split at h
  · cases h
    assumption
  · cases h

/-- If the loop of `wait_if` goes on after a wakeup, no time has passed since its call. -/
def Prompt (s : ForState) (c : Choice) : Prop :=
  match s.pc with
  | .inner _ since pc => IfState.Prompt since ⟨pc, s.now⟩ c
  | _ => True

instance (s : ForState) (c : Choice) : Decidable (s.Prompt c) := by
  unfold Prompt
  split <;> infer_instance

end ForState

/-! ## Bounds -/

/-- A wait called at `T` with a timeout of `t` is never on its way later than `t` after the call, and if time goes on it
has returned by then. -/
def Bounded (T t : Nat) (e : Nat → Nat × Option Bool) : Prop :=
  (∀ n, (e n).1 ≤ T + ms t) ∧ ((∀ T', ∃ n, (e n).2.isSome ∨ T' < (e n).1) → ∃ n, (e n).2.isSome)

/-- A timeout is reported only when less than a millisecond is left. -/
def Honest (T t : Nat) (e : Nat → Nat × Option Bool) : Prop :=
  ∀ n, (e n).2 = some false → T + ms t - (e n).1 < ms 1

theorem bounded_of_le {T t : Nat} {e : Nat → Nat × Option Bool} (h : ∀ n, (e n).1 ≤ T + ms t) : Bounded T t e := by
  refine ⟨h, fun hgo => ?_⟩
  obtain ⟨n, hn | hn⟩ := hgo (T + ms t)
  · exact ⟨n, hn⟩
  · exact absurd (h n) (Nat.not_le.mpr hn)

/-- **The rule for these runs.** -/
theorem run_inv {σ : Type} {next : σ → Choice → σ} {s : σ} {env : Nat → Choice} (I : σ → Prop) (h0 : I s)
    (hs : ∀ n, I (run next s env n) → I (next (run next s env n) (env n))) (n : Nat) : I (run next s env n) := by
  induction n with
  | zero => exact h0
  | succ n ih => exact hs n ih

namespace IfState

variable {tm T : Nat} {s : IfState} {c : Choice}

/-- The time in `wait_if` called at `T`, as long as every wakeup is prompt. -/
def InTime (tm T : Nat) (s : IfState) : Prop :=
  match s.pc with
  | .fast | .wait => s.now = T
  | .check | .done _ => T ≤ s.now ∧ s.now ≤ T + ms tm

theorem InTime.le (h : InTime tm T s) : s.now ≤ T + ms tm := by
  unfold InTime at h
  split at h
  · omega
  · omega
  · exact h.2
  · exact h.2

theorem InTime.next (h : InTime tm T s) (hp : s.Prompt T c) : InTime tm T (s.next tm c) := by
  obtain ⟨pc, now⟩ := s
  cases pc with
  | fast =>
    have hnow : now = T := h
    show InTime tm T ⟨if c.quit || !c.pred then .done true else .check, now⟩
    split <;> exact ⟨hnow.ge, by rw [hnow]; exact Nat.le_add_right _ _⟩
  | check =>
    show InTime tm T ⟨if !c.quit && c.pred then .wait else .done true, now⟩
    split
    · rename_i hgo
      simp only [Bool.and_eq_true, Bool.not_eq_true'] at hgo
      exact hp rfl hgo.1 hgo.2
    · exact h
  | wait =>
    have hnow : now = T := h
    subst hnow
    unfold IfState.next
    dsimp only
    split
    · exact ⟨Nat.le_add_right _ _, le_rfl⟩
    · split
      · exact ⟨Nat.le_add_right _ _, Nat.add_le_add_left ‹_› _⟩
      · exact ⟨Nat.le_add_right _ _, le_rfl⟩
  | done ok => exact h

/-- The call was not after now, and a timeout is reported after the whole time. -/
structure Waited (tm T : Nat) (s : IfState) : Prop where
  since : T ≤ s.now
  whole : s.pc = .done false → T + ms tm ≤ s.now

theorem Waited.next (h : Waited tm T s) : Waited tm T (s.next tm c) := by
  obtain ⟨pc, now⟩ := s
  have hsince : T ≤ now := h.since
  cases pc with
  | fast =>
    refine ⟨hsince, fun hd => ?_⟩
    simp only [IfState.next] at hd
    split at hd <;> cases hd
  | check =>
    refine ⟨hsince, fun hd => ?_⟩
    simp only [IfState.next] at hd
    split at hd <;> cases hd
  | wait =>
    unfold IfState.next
    dsimp only
    split
    · exact ⟨Nat.le_add_right_of_le hsince, fun _ => Nat.add_le_add_right hsince _⟩
    · split
      · exact ⟨Nat.le_add_right_of_le hsince, nofun⟩
      · exact ⟨Nat.le_add_right_of_le hsince, fun _ => Nat.add_le_add_right hsince _⟩
  | done ok => exact h

end IfState

namespace ForState

variable {D : Nat} {s : ForState} {c : Choice}

/-- The time in `wait_for` with the deadline `D`, as long as every wakeup is prompt. -/
def InTime (D : Nat) (s : ForState) : Prop :=
  match s.pc with
  | .once | .spin _ | .done _ => s.now ≤ D
  | .inner tm since pc => IfState.InTime tm since ⟨pc, s.now⟩ ∧ since + ms tm ≤ D

theorem InTime.le (h : InTime D s) : s.now ≤ D := by
  unfold InTime at h
  split at h
  · exact h
  · exact h
  · exact h
  · exact h.1.le.trans h.2

theorem InTime.next (h : InTime D s) (hp : s.Prompt c) : InTime D (s.next D c) := by
  obtain ⟨pc, now⟩ := s
  cases pc with
  | once => exact h
  | done ok => exact h
  | spin k =>
    have hnow : now ≤ D := h
    unfold ForState.next
    dsimp only
    split
    · exact hnow
    · split
      · exact hnow
      · split
        · exact hnow
        · refine ⟨⟨le_rfl, Nat.le_add_right _ _⟩, ?_⟩
          have := Nat.div_mul_le_self (D - now) 1000000
          unfold ms
          omega
  | inner tm since pc =>
    obtain ⟨hin, hle⟩ := h
    have hr := hin.next hp
    unfold ForState.next
    dsimp only
    split
    · have := hr.le
      split <;> exact this.trans hle
    · exact ⟨hr, hle⟩

/-- What is left when a timeout is reported, and in `wait_if` how its timeout was found. -/
def Waited (D : Nat) (s : ForState) : Prop :=
  match s.pc with
  | .once => s.now = D
  | .spin _ => True
  | .inner tm since pc => IfState.Waited tm since ⟨pc, s.now⟩ ∧ tm = (D - since) / 1000000
  | .done ok => ok = false → D - s.now < ms 1

theorem Waited.next (h : Waited D s) : Waited D (s.next D c) := by
  obtain ⟨pc, now⟩ := s
  cases pc with
  | once =>
    intro _
    have hnow : now = D := h
    show D - now < ms 1
    rw [hnow, Nat.sub_self]
    decide
  | done ok => exact h
  | spin k =>
    unfold ForState.next
    dsimp only
    split
    · nofun
    · split
      · trivial
      · split
        · rename_i htm
          intro _
          exact Nat.lt_of_div_eq_zero (by decide) htm
        · exact ⟨⟨le_rfl, nofun⟩, rfl⟩
  | inner tm since pc =>
    obtain ⟨hw, htm⟩ := h
    have hr := hw.next (c := c)
    unfold ForState.next
    dsimp only
    split
    · rename_i ok hdone
      cases ok with
      | true => trivial
      | false =>
        intro _
        have hwhole : since + ms tm ≤ (IfState.next tm ⟨pc, now⟩ c).now := hr.whole hdone
        have hdiv := Nat.lt_div_mul_add (a := D - since) (b := 1000000) (by decide)
        rw [← htm] at hdiv
        show D - (IfState.next tm ⟨pc, now⟩ c).now < ms 1
        unfold ms at hwhole ⊢
        omega
    · exact ⟨hr, htm⟩

theorem waited_start (t T : Nat) : Waited (T + ms t) (start t T) := by
  unfold start
  split
  · rename_i ht
    show T = T + ms t
    rw [ht]
    rfl
  · trivial

end ForState

/-- **Timed waits are bounded.** If no wakeup that took time leaves the predicate true, `wait_if` (of either language)
and `wait_for` are back `t` milliseconds after the call. They report a timeout only when less than a millisecond is
left. -/
theorem waits_bounded (t T : Nat) (env : Nat → Choice) :
    (∀ fast, (∀ n, (run (IfState.next t) (.start fast T) env n).Prompt T (env n)) →
      Bounded T t fun n => (run (IfState.next t) (.start fast T) env n).view) ∧
    ((∀ n, (run (ForState.next (T + ms t)) (.start t T) env n).Prompt (env n)) →
      Bounded T t fun n => (run (ForState.next (T + ms t)) (.start t T) env n).view) ∧
    (∀ fast, Honest T t fun n => (run (IfState.next t) (.start fast T) env n).view) ∧
    Honest T t fun n => (run (ForState.next (T + ms t)) (.start t T) env n).view := by
  refine ⟨fun fast hp => bounded_of_le fun n => ?_, fun hp => bounded_of_le fun n => ?_, fun fast n hn => ?_,
    fun n hn => ?_⟩
  · refine (run_inv (IfState.InTime t T) ?_ (fun n h => h.next (hp n)) n).le
    cases fast with
    | true => exact rfl
    | false => exact ⟨le_rfl, Nat.le_add_right _ _⟩
  · refine (run_inv (ForState.InTime (T + ms t)) ?_ (fun n h => h.next (hp n)) n).le
    unfold ForState.start
    split <;> exact Nat.le_add_right _ _
  · have hw : IfState.Waited t T (run (IfState.next t) (.start fast T) env n) := by
      refine run_inv (IfState.Waited t T) ⟨le_rfl, ?_⟩ (fun n h => h.next) n
      cases fast <;> nofun
    have := hw.whole (IfState.view_false hn)
    show T + ms t - (run (IfState.next t) (.start fast T) env n).now < ms 1
    rw [Nat.sub_eq_zero_of_le this]
    decide
  · have hw := run_inv (ForState.Waited (T + ms t)) (ForState.waited_start t T) (fun n h => h.next (c := env n)) n
    rw [ForState.Waited, ForState.view_false hn] at hw
    exact hw rfl

/-- The predicate is true, nobody quits, and the condition is woken after 40 milliseconds, when the predicate is
false. -/
def wokenOnce (n : Nat) : Choice := ⟨false, n < 34, some (ms 40)⟩

theorem waits_bounded_once : (run (ForState.next (0 + ms 100)) (.start 100 0) wokenOnce 37).view = (ms 40, some true) ∧
    Bounded 0 100 fun n => (run (ForState.next (0 + ms 100)) (.start 100 0) wokenOnce n).view := by
  refine ⟨by decide +kernel, (waits_bounded 100 0 wokenOnce).2.1 fun n => ?_⟩
  by_cases hn : n < 34
  · have hall : ∀ n < 34, (run (ForState.next (0 + ms 100)) (.start 100 0) wokenOnce n).Prompt (wokenOnce n) := by
      decide +kernel
    exact hall n hn
  · unfold ForState.Prompt
    split
    · intro _ _ hp
      exact absurd (of_decide_eq_true hp) hn
    · trivial

/-- The predicate stays true, and the condition is woken every 60 milliseconds. -/
def wokenAgain (_ : Nat) : Choice := ⟨false, true, some (ms 60)⟩

/-- **Waits that go on.** With a timeout of 100 milliseconds and a predicate that stays true, neither wait has returned;
after three wakeups 180 milliseconds have passed. -/
theorem waits_on :
    (∀ n, (run (IfState.next 100) (.start false 0) wokenAgain n).view.2 = none) ∧
    (run (IfState.next 100) (.start false 0) wokenAgain 6).now = ms 180 ∧
    (∀ n, (run (ForState.next (ms 100)) (.start 100 0) wokenAgain n).view.2 = none) ∧
    (run (ForState.next (ms 100)) (.start 100 0) wokenAgain 39).now = ms 180 := by
  refine ⟨fun n => ?_, by decide +kernel, fun n => ?_, by decide +kernel⟩
  · have hpc : (run (IfState.next 100) (.start false 0) wokenAgain n).pc = .check ∨
        (run (IfState.next 100) (.start false 0) wokenAgain n).pc = .wait := by
      refine run_inv (fun s : IfState => s.pc = .check ∨ s.pc = .wait) (.inl rfl) (fun n h => ?_) n
      generalize run (IfState.next 100) _ wokenAgain n = s at h ⊢
      obtain ⟨pc, now⟩ := s
      rcases h with rfl | rfl
      · exact .inr rfl
      · exact .inl rfl
    unfold IfState.view
    rcases hpc with hpc | hpc <;> rw [hpc]
  · have hpc : (∃ k, run (ForState.next (ms 100)) (.start 100 0) wokenAgain n = ⟨.spin k, 0⟩) ∨
        ∃ pc, (run (ForState.next (ms 100)) (.start 100 0) wokenAgain n).pc = .inner 100 0 pc ∧
          (pc = .check ∨ pc = .wait) := by
      refine run_inv (fun s : ForState => (∃ k, s = ⟨.spin k, 0⟩) ∨
        ∃ pc, s.pc = .inner 100 0 pc ∧ (pc = .check ∨ pc = .wait)) (.inl ⟨0, rfl⟩) (fun n h => ?_) n
      generalize run (ForState.next (ms 100)) _ wokenAgain n = s at h ⊢
      obtain ⟨pc, now⟩ := s
      rcases h with ⟨k, hk⟩ | ⟨pc, rfl, rfl | rfl⟩
      · cases hk
        by_cases hlt : k < spinCount
        · exact .inl ⟨k + 1, by simp [ForState.next, wokenAgain, hlt]⟩
        · exact .inr ⟨.check, by simp [ForState.next, wokenAgain, hlt, ms], .inl rfl⟩
      · exact .inr ⟨.wait, rfl, .inr rfl⟩
      · exact .inr ⟨.check, rfl, .inl rfl⟩
    unfold ForState.view
    rcases hpc with ⟨k, hk⟩ | ⟨pc, hpc, -⟩
    · rw [hk]
    · rw [hpc]

end ThothIpc.WaitIf
