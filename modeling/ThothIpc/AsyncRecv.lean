import ThothIpc.Lib.Run

/-!
# One asynchronous receive

`async_recv.h`, `recv_op`, and the control queue and dispatch of `reactor.cpp`. `start` registers a stop callback, tries
to receive, and otherwise registers the operation with the reactor. Who exchanges `fired_` first calls the receiver:
`start`, the reactor, or the stop callback, which first takes an armed operation out of the reactor. The receiver may
destroy the operation in that call.

* `State.step` : the accesses of `start`, the stop callback and the reactor, and the destruction of the operation;
* `closed` : the callback looks at `armed_` after `start` has returned, and a receiver that leaves the operation alive
  does so without its callback;
* `Queue`, `Rights` : where the operation is registered, and who may call the receiver;
* `completes_once` : under `closed` the receiver is called once, and afterwards nobody touches the operation;
* `touched_afterwards` : what happens otherwise.

The destructor of the stop callback waits for a callback that runs on another thread. What `try_recv` finds and when the
descriptor is readable is part of the actions.
-/

namespace ThothIpc.AsyncRecv
open Steps

/-! ## The accesses -/

/-- `recv_result`: a message or a `recv_errc`. -/
inductive Result where
  | message
  | noReadinessHandle
  | outOfMemory
  | unknown
  deriving DecidableEq, Repr

/-- A call of the receiver. -/
inductive Signal where
  | value (r : Result)
  | stopped
  deriving DecidableEq, Repr

/-- An item of the reactor's control queue. -/
inductive Item where
  | add
  | remove
  deriving DecidableEq, Repr

/-- `start`: the check of the stop token (`init`), the descriptor, the callback's registration, at which it may run
(`inline`), `deliver_if_ready` (`recv`, `exch`), `armed_ = true`, and `add`. In `call` it is in the receiver. -/
inductive Start where
  | init
  | handle
  | emplace
  | inline
  | recv
  | exch (r : Result)
  | arm
  | add
  | complete (g : Signal)
  | call
  | returned
  deriving DecidableEq, Repr

/-- The thread that requests stop, and `stop_requested`; `wait` waits in `remove` for the reactor. -/
inductive Stop where
  | idle
  | exch
  | armed
  | remove
  | wait
  | complete
  | call
  | done
  deriving DecidableEq, Repr

/-- The reactor's thread: `process_ctl` with the items it has taken, and `dispatch`, with the operation out of the
registry. -/
inductive Reactor where
  | poll
  | apply (l : List Item)
  | drain
  | recv
  | exch (r : Result)
  | complete (r : Result)
  | call
  | ret (keep : Bool)
  deriving DecidableEq, Repr

/-- `cb`: the stop callback is registered; `reg`: the operation is in the registry; `acked`: the `remove` is applied;
`calls`: the calls of the receiver; `ended`: a call has returned. -/
structure State where
  start : Start
  stop : Stop
  reactor : Reactor
  requested : Bool
  cb : Bool
  armed : Bool
  fired : Bool
  ctl : List Item
  reg : Bool
  acked : Bool
  calls : List Signal
  ended : Bool
  destroyed : Bool
  deriving DecidableEq, Repr

inductive Choice where
  | go
  | invalid
  | take (r : Option Result)
  | ready
  | destroy
  deriving DecidableEq, Repr

inductive Act where
  | start (c : Choice)
  | stop (c : Choice)
  | reactor (c : Choice)
  | owner
  deriving DecidableEq, Repr

/-- The callback is not running. -/
@[grind =]
def Stop.over : Stop → Bool
  | idle => true
  | done => true
  | _ => false

namespace State

/-- The operation is destroyed, its stop callback first. -/
@[grind =]
def destroy (s : State) : State := { s with destroyed := true, cb := false }

def stepStart (s : State) (c : Choice) : Option State :=
  match s.start, c with
  | .init, .go => some { s with start := if s.requested then .complete .stopped else .handle }
  | .handle, .go => some { s with start := .emplace }
  | .handle, .invalid => some { s with start := .complete (.value .noReadinessHandle) }
  | .emplace, .go =>
    if s.requested then some { s with start := .inline, stop := .exch } else some { s with start := .recv, cb := true }
  | .inline, .go => if s.stop = .done then some { s with start := .recv } else none
  | .recv, .take none => some { s with start := .arm }
  | .recv, .take (some r) => some { s with start := .exch r }
  | .exch r, .go =>
    if s.fired then some { s with start := .returned } else some { s with start := .complete (.value r), fired := true }
  | .arm, .go => some { s with start := .add, armed := true }
  | .add, .go => some { s with start := .returned, ctl := s.ctl ++ [.add] }
  | .complete g, .go => some { s with start := .call, calls := s.calls ++ [g] }
  | .call, .destroy => if !s.destroyed && s.stop.over then some s.destroy else none
  | .call, .go => some { s with start := .returned, ended := true }
  | _, _ => none

def stepStop (s : State) (c : Choice) : Option State :=
  match s.stop, c with
  | .idle, .go => some { s with requested := true, cb := false, stop := if s.cb then .exch else .done }
  | .exch, .go => if s.fired then some { s with stop := .done } else some { s with stop := .armed, fired := true }
  | .armed, .go => some { s with stop := if s.armed then .remove else .complete }
  | .remove, .go => some { s with stop := .wait, ctl := s.ctl ++ [.remove] }
  | .wait, .go => if s.acked then some { s with stop := .complete } else none
  | .complete, .go => some { s with stop := .call, calls := s.calls ++ [.stopped] }
  | .call, .destroy => if s.destroyed then none else some s.destroy
  | .call, .go => some { s with stop := .done, ended := true }
  | _, _ => none

def stepReactor (s : State) (c : Choice) : Option State :=
  match s.reactor, c with
  | .poll, .go => some { s with reactor := .apply s.ctl, ctl := [] }
  | .apply (.add :: l), .go => some { s with reactor := .apply l, reg := true }
  | .apply (.remove :: l), .go => some { s with reactor := .apply l, reg := false, acked := true }
  | .apply [], .go => some { s with reactor := .poll }
  | .apply [], .ready => if s.reg then some { s with reactor := .drain, reg := false }
      else some { s with reactor := .poll }
  | .drain, .go => some { s with reactor := .recv }
  | .recv, .take none => some { s with reactor := .ret true }
  | .recv, .take (some r) => some { s with reactor := .exch r }
  | .exch r, .go =>
    if s.fired then some { s with reactor := .ret false } else some { s with reactor := .complete r, fired := true }
  | .complete r, .go => some { s with reactor := .call, calls := s.calls ++ [.value r] }
  | .call, .destroy => if !s.destroyed && s.stop.over then some s.destroy else none
  | .call, .go => some { s with reactor := .ret false, ended := true }
  | .ret keep, .go => some { s with reactor := .poll, reg := s.reg || keep }
  | _, _ => none

def step (s : State) (a : Act) : Option State :=
  match a with
  | .start c => s.stepStart c
  | .stop c => s.stepStop c
  | .reactor c => s.stepReactor c
  | .owner => if s.ended && !s.destroyed && s.stop.over then some s.destroy else none

end State

/-- The next step of the thread reads or writes the operation. After an inline callback `emplace` engages the optional.
-/
@[grind =]
def Start.touches : Start → Bool
  | call => false
  | returned => false
  | _ => true

@[grind =]
def Stop.touches : Stop → Bool
  | exch => true
  | armed => true
  | remove => true
  | complete => true
  | _ => false

def Reactor.touches : Reactor → Bool
  | drain => true
  | recv => true
  | exch _ => true
  | complete _ => true
  | _ => false

/-- The stop callback looks at `armed_` only after `start` has returned; and a call of the receiver by another returns
only when the operation is destroyed or the stop callback is neither registered nor running. -/
@[grind =]
def closed (s : State) (a : Act) : Prop :=
  match a with
  | .start .go => s.start = .call → s.destroyed = true ∨ s.cb = false ∧ s.stop.over = true
  | .stop .go => s.stop = .armed → s.start = .returned
  | .reactor .go => s.reactor = .call → s.destroyed = true ∨ s.cb = false ∧ s.stop.over = true
  | _ => True

instance (s : State) (a : Act) : Decidable (closed s a) := by
  unfold closed
  split <;> infer_instance

/-! ## Who has the operation -/

/-- The thread has not yet registered the callback. -/
@[grind =]
def Start.pre : Start → Bool
  | init => true
  | handle => true
  | emplace => true
  | _ => false

/-- The thread is about to call the receiver. -/
@[grind =]
def Start.owns : Start → Bool
  | complete _ => true
  | _ => false

@[grind =]
def Stop.owns : Stop → Bool
  | armed => true
  | remove => true
  | wait => true
  | complete => true
  | _ => false

@[grind =]
def Reactor.owns : Reactor → Bool
  | complete _ => true
  | _ => false

/-- The reactor has the operation out of the registry, and may look at it or put it back. -/
@[grind =]
def Reactor.has : Reactor → Bool
  | drain => true
  | recv => true
  | exch _ => true
  | complete _ => true
  | ret keep => keep
  | _ => false

@[grind =]
def Reactor.taken : Reactor → List Item
  | apply l => l
  | _ => []

namespace State

@[grind =]
def items (s : State) : List Item := s.reactor.taken ++ s.ctl

/-- The reactor has or is going to have the operation. -/
@[grind =]
def Kept (s : State) : Prop := s.reg = true ∨ s.reactor.has = true ∨ .add ∈ s.items

end State

/-- Somebody is about to call the receiver, or the operation is with the reactor, and the stop callback is registered or
about to make its exchange. -/
def State.Open (s : State) : Prop :=
  s.start ≠ .returned ∨ s.stop.owns = true ∨ s.reactor.owns = true ∨ s.Kept ∧ (s.cb = true ∨ s.stop = .exch)

/-- Where the operation is registered: in one place, only after `start` has returned, and no longer once the `remove`
of the stop callback is acknowledged. -/
structure Queue (s : State) : Prop where
  armed : s.start = .add ∨ s.Kept → s.armed = true
  unarmed : s.armed = true → s.start = .add ∨ s.start = .returned
  kept : s.Kept → s.start = .returned
  alone : (s.reactor.has = true → s.reg = false) ∧ (s.reg = true ∨ s.reactor.has = true → .add ∉ s.items)
  items : s.items = [] ∨ s.items = [.add] ∨ s.items = [.add, .remove] ∨ s.items = [.remove]
  remove : .remove ∈ s.items ↔ s.stop = .wait ∧ s.acked = false
  acked : s.acked = true → s.start = .returned ∧ s.stop ≠ .idle ∧ s.stop ≠ .exch ∧ s.stop ≠ .armed ∧ s.stop ≠ .remove
  stopping : s.stop = .remove ∨ s.stop = .wait ∨ s.stop = .complete ∨ s.stop = .call → s.start = .returned
  out : s.stop = .wait ∧ s.acked = true ∨ s.stop = .complete → ¬s.Kept

/-- Who may call the receiver: one thread at most, the one that exchanged `fired_`, or `start` before the callback is
registered. Until then the reactor has the operation; once it is called, the reactor does not. -/
structure Rights (s : State) : Prop where
  pre : s.start.pre = true → s.fired = false ∧ s.cb = false ∧ s.stop.over = true
  start : s.start.owns = true → s.stop.owns = false ∧ s.reactor.owns = false ∧ s.calls = []
  stop : s.stop.owns = true → s.reactor.owns = false ∧ s.calls = [] ∧ s.fired = true
  reactor : s.reactor.owns = true → s.calls = [] ∧ s.fired = true
  calls : s.calls = [] ∨ s.calls.length = 1 ∧ s.start.touches = false ∧ ¬s.Kept
  fired : s.fired = true → s.start.owns = true ∨ s.stop.owns = true ∨ s.reactor.owns = true ∨ s.calls ≠ []
  early : s.fired = false → s.start.owns = true ∨ s.calls ≠ [] → s.cb = false ∧ s.stop.over = true ∧ ¬s.Kept
  waits : s.start.pre = false → s.fired = false → s.start.owns = false → s.calls = [] →
    (s.cb = true ∨ s.stop = .exch) ∧ (s.start = .returned → s.Kept)
  called : s.start = .call ∨ s.stop = .call ∨ s.reactor = .call → s.calls ≠ []
  running : s.stop.over = false → s.cb = false
  gone : s.destroyed = true ∨ s.ended = true → s.calls ≠ [] ∧ s.cb = false ∧ s.stop.touches = false

theorem Stop.of_over {p : Stop} (ho : p.over = true) : p = .idle ∨ p = .done := by
  cases p with
  | idle => exact Or.inl rfl
  | done => exact Or.inr rfl
  | _ => cases ho

@[grind →]
theorem Stop.touches_of_over {p : Stop} (ho : p.over = true) : p.touches = false := by
  rcases Stop.of_over ho with rfl | rfl <;> rfl

theorem Reactor.has_of_touches {p : Reactor} (ht : p.touches = true) : p.has = true := by
  cases p with
  | drain | recv | exch | complete => rfl
  | _ => cases ht

/-! ## The queue -/

namespace Queue

variable {s s' : State} {c : Choice}

/-- Before `start` returns nothing is queued, as the callback removes only what `start` has armed; so the `add` is
alone. -/
theorem stepStart (h : Queue s) (hs : s.stepStart c = some s') : Queue s' := by
  obtain ⟨harmed, hunarmed, hkept, halone, hitems, hremove, hacked, hstopping, hout⟩ := h
  unfold State.stepStart at hs
  split at hs <;> (try split_ifs at hs) <;> cases hs
  all_goals constructor <;> grind -ring -linarith -lia

/-- The callback goes on from `armed` only after `start` has returned, so that `armed_` tells whether the operation was
queued. -/
theorem stepStop (h : Queue s) (hok : closed s (.stop c)) (hs : s.stepStop c = some s') : Queue s' := by
  obtain ⟨harmed, hunarmed, hkept, halone, hitems, hremove, hacked, hstopping, hout⟩ := h
  unfold State.stepStop at hs
  split at hs <;> (try split_ifs at hs) <;> cases hs
  all_goals constructor <;> grind -ring -linarith -lia

/-- An item that is applied is the `add`, with nothing or the `remove` behind it, or the `remove`, with nothing behind
it. -/
theorem stepReactor (h : Queue s) (hs : s.stepReactor c = some s') : Queue s' := by
  obtain ⟨harmed, hunarmed, hkept, halone, hitems, hremove, hacked, hstopping, hout⟩ := h
  unfold State.stepReactor at hs
  split at hs <;> (try split_ifs at hs) <;> cases hs
  all_goals constructor <;> grind -ring -linarith -lia

end Queue

/-! ## The right to call the receiver -/

namespace Rights

variable {s s' : State} {c : Choice}

theorem destroy (h : Rights s) (hc : s.calls ≠ []) (ht : s.stop.touches = false) : Rights s.destroy :=
  { h with
    pre := fun hp => ⟨(h.pre hp).1, rfl, (h.pre hp).2.2⟩
    early := fun hf h1 => ⟨rfl, (h.early hf h1).2⟩
    waits := fun _ _ _ h0 => absurd h0 hc
    running := fun _ => rfl
    gone := fun _ => ⟨hc, rfl, ht⟩ }

/-- `start` gets the right without the exchange before the callback is registered, later by the exchange; it completes
with it, and queues the operation only without it. -/
theorem stepStart (h : Rights s) (hq : Queue s) (hok : closed s (.start c)) (hs : s.stepStart c = some s') :
    Rights s' := by
  have hkept := hq.kept
  obtain ⟨hpre, hstart, hstop, hreactor, hcalls, hfired, hearly, hwaits, hcalled, hrunning, hgone⟩ := h
  unfold State.stepStart at hs
  split at hs <;> (try split_ifs at hs) <;> cases hs
  all_goals constructor <;> grind -ring -linarith -lia

/-- The callback gets the right by the exchange, and has it until `complete`, which it reaches only when the reactor
does not keep the operation. -/
theorem stepStop (h : Rights s) (hq : Queue s) (hok : closed s (.stop c)) (hs : s.stepStop c = some s') :
    Rights s' := by
  have hret := hq.stopping
  have hout := hq.out
  obtain ⟨hpre, hstart, hstop, hreactor, hcalls, hfired, hearly, hwaits, hcalled, hrunning, hgone⟩ := h
  unfold State.stepStop at hs
  split at hs <;> (try split_ifs at hs) <;> cases hs
  all_goals constructor <;> grind -ring -linarith -lia

/-- The reactor gets the right by the exchange, with the operation out of the registry and no `add` queued, and lets it
go when it calls the receiver or has lost the exchange. -/
theorem stepReactor (h : Rights s) (hq : Queue s) (hok : closed s (.reactor c)) (hs : s.stepReactor c = some s') :
    Rights s' := by
  have hkept := hq.kept
  have halone := hq.alone
  have hremove := hq.remove
  obtain ⟨hpre, hstart, hstop, hreactor, hcalls, hfired, hearly, hwaits, hcalled, hrunning, hgone⟩ := h
  unfold State.stepReactor at hs
  split at hs <;> (try split_ifs at hs) <;> cases hs
  all_goals constructor <;> grind -ring -linarith -lia

/-- Until the receiver is called, somebody is about to do so, or the reactor has the operation and it can be stopped. -/
theorem opened (h : Rights s) (hc : s.calls = []) : s.Open := by
  unfold State.Open
  by_cases hret : s.start = .returned
  · have howns : s.start.owns = false := by
      rw [hret]
      rfl
    cases hf : s.fired with
    | true =>
      rcases h.fired hf with ho | ho | ho | ho
      · rw [howns] at ho
        cases ho
      · exact Or.inr (Or.inl ho)
      · exact Or.inr (Or.inr (Or.inl ho))
      · exact absurd hc ho
    | false =>
      obtain ⟨hcb, hkept⟩ := h.waits (by rw [hret]; rfl) hf howns hc
      exact Or.inr (Or.inr (Or.inr ⟨hkept hret, hcb⟩))
  · exact Or.inl hret

end Rights

/-! ## Every run -/

theorem Queue.step {s s' : State} {a : Act} (h : Queue s) (hok : closed s a) (hs : s.step a = some s') : Queue s' := by
  cases a with
  | start c => exact h.stepStart hs
  | stop c => exact h.stepStop hok hs
  | reactor c => exact h.stepReactor hs
  | owner =>
    simp only [State.step] at hs
    split_ifs at hs
    cases hs
    exact { h with }

theorem Rights.step {s s' : State} {a : Act} (h : Rights s) (hq : Queue s) (hok : closed s a)
    (hs : s.step a = some s') : Rights s' := by
  cases a with
  | start c => exact h.stepStart hq hok hs
  | stop c => exact h.stepStop hq hok hs
  | reactor c => exact h.stepReactor hq hok hs
  | owner =>
    simp only [State.step] at hs
    split_ifs at hs with hd
    cases hs
    simp only [Bool.and_eq_true] at hd
    exact h.destroy (h.gone (Or.inr hd.1.1)).1 (Stop.touches_of_over hd.2)

/-- The operation before `start`; stop may have been requested. -/
structure New (s : State) : Prop where
  start : s.start = .init
  stop : s.stop.over = true
  reactor : s.reactor = .poll
  flags : s.cb = false ∧ s.armed = false ∧ s.fired = false ∧ s.reg = false ∧ s.acked = false
  ctl : s.ctl = []
  calls : s.calls = [] ∧ s.ended = false ∧ s.destroyed = false

theorem New.queue {s : State} (h : New s) : Queue s := by
  obtain ⟨hstart, hover, hreactor, hflags, hctl, hcalls⟩ := h
  constructor <;> grind -ring -linarith -lia

theorem New.rights {s : State} (h : New s) : Rights s := by
  obtain ⟨hstart, hover, hreactor, hflags, hctl, hcalls⟩ := h
  have hstop := Stop.of_over hover
  constructor <;> grind -ring -linarith -lia

/-- **The receiver is called at most once; until then somebody is about to call it, or the operation can be stopped;
after the call or the destruction nobody touches the operation.** -/
theorem completes_once {s₀ s : State} (h₀ : New s₀) {acts : List Act} (hr : Run State.step closed s₀ acts s) :
    s.calls.length ≤ 1 ∧ (s.calls = [] → s.Open) ∧
      (s.destroyed = true ∨ s.ended = true →
        s.calls ≠ [] ∧ s.start.touches = false ∧ s.stop.touches = false ∧ s.reactor.touches = false ∧ ¬s.Kept) := by
  have hinv : Queue s ∧ Rights s := hr.inv (fun s => Queue s ∧ Rights s) ⟨h₀.queue, h₀.rights⟩
    fun _ _ _ h hok hs => ⟨h.1.step hok hs, h.2.step h.1 hok hs⟩
  obtain ⟨-, hrights⟩ := hinv
  refine ⟨?_, hrights.opened, fun he => ?_⟩
  · rcases hrights.calls with hc | ⟨hc, -⟩
    · rw [hc]
      exact Nat.zero_le 1
    · exact hc.le
  · obtain ⟨hcalls, -, hstop⟩ := hrights.gone he
    obtain ⟨-, hstart, hkept⟩ := hrights.calls.resolve_left hcalls
    refine ⟨hcalls, hstart, hstop, ?_, hkept⟩
    exact Bool.eq_false_iff.mpr fun ht => hkept (Or.inr (Or.inl (Reactor.has_of_touches ht)))

/-- Before `start`, and before stop is requested. -/
def fresh : State := ⟨.init, .idle, .poll, false, false, false, false, [], false, false, [], false, false⟩

theorem fresh_new : New fresh :=
  ⟨rfl, rfl, rfl, ⟨rfl, rfl, rfl, rfl, rfl⟩, rfl, rfl, rfl, rfl⟩

/-- The operation is registered; stop is requested, and the reactor loses the exchange while the callback waits. -/
def stopActs : List Act :=
  [.start .go, .start .go, .start .go, .start (.take none), .start .go, .start .go, .reactor .go, .reactor .go,
    .stop .go, .stop .go, .stop .go, .reactor .ready, .stop .go, .reactor .go, .reactor (.take (some .message)),
    .reactor .go, .reactor .go, .reactor .go, .reactor .go, .stop .go, .stop .go, .stop .destroy, .stop .go]

theorem completes_once_stop : ∃ s, Run State.step closed fresh stopActs s ∧ s.ended = true ∧ s.calls = [.stopped] ∧
    s.start.touches = false ∧ s.stop.touches = false ∧ s.reactor.touches = false ∧ ¬s.Kept := by
  refine exists_run_imp (fun s => s.ended = true ∧ s.calls = [.stopped]) (by decide +kernel) fun s hrun hx => ?_
  exact ⟨hx.1, hx.2, ((completes_once fresh_new hrun).2.2 (Or.inr hx.1)).2⟩

/-- `start` has registered the callback; stop is requested, and the callback calls the receiver, which destroys the
operation. -/
def windowActs : List Act :=
  [.start .go, .start .go, .start .go, .stop .go, .stop .go, .stop .go, .stop .go, .stop .destroy, .stop .go]

/-- `start` receives a message and calls the receiver, which leaves the operation alive; stop is requested. -/
def lateActs : List Act :=
  [.start .go, .start .go, .start .go, .start (.take (some .message)), .start .go, .start .go, .start .go, .stop .go]

/-- **If the callback does not wait for `start`, `start` has the reactor add a destroyed operation; and the stop
callback, not taken back before the call, touches an operation that the receiver leaves alive.** -/
theorem touched_afterwards :
    (∃ s, Run State.step (fun _ _ => True) fresh windowActs s ∧ s.ended = true ∧ s.destroyed = true ∧
    s.calls = [.stopped] ∧ s.start = .recv) ∧
    (∃ s, Run State.step (fun _ _ => True) fresh (windowActs ++ [.start (.take none), .start .go, .start .go]) s ∧
      s.ended = true ∧ s.destroyed = true ∧ .add ∈ s.items) ∧
    ∃ s, Run State.step (fun _ _ => True) fresh lateActs s ∧ s.ended = true ∧ s.calls = [.value .message] ∧
    s.stop = .exch := by
  refine ⟨?_, ?_, ?_⟩
  · exact exists_run_of (by decide +kernel)
  · exact exists_run_of (by decide +kernel)
  · exact exists_run_of (by decide +kernel)

end ThothIpc.AsyncRecv
