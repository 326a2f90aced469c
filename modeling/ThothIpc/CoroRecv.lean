import ThothIpc.AsyncRecv

/-!
# A receive awaited by a coroutine

`coro_recv.h`, `recv_awaitable`, over the same reactor as `recv_op`. `await_suspend` sets `armed_` and has the reactor
add the awaitable, whose `on_ready` clears `armed_`, exchanges `done_` and resumes the coroutine. The destructor looks
at `armed_`, exchanges `done_`, and if it is the first waits until the reactor has removed it.

* `State.step` : the accesses of the awaiting thread, of the destructor and of the reactor;
* `undelivered` : the destructor does not come between the steps of `await_suspend` or `on_ready`;
* `destroyed_untouched` : under `undelivered` the reactor leaves a destroyed awaitable alone;
* `resumed_destroyed` : what happens otherwise.

A coroutine is destroyed while it is suspended, or after its awaited value was taken. What `try_recv` finds and when the
descriptor is readable is part of the actions.
-/

namespace ThothIpc.CoroRecv
open Steps
open AsyncRecv (Item Result)

/-! ## The accesses -/

/-- `await_ready` (`handle`, `recv`), then `await_resume` at once (`sync`), or `await_suspend`: `waiting_ = h`,
`armed_ = true`, `add`. -/
inductive Await where
  | handle
  | recv
  | sync
  | resumed
  | park
  | arm
  | add
  | parked
  deriving DecidableEq, Repr

/-- `~recv_awaitable`: the read of `armed_`, the exchange of `done_`, and `remove`, which waits for the reactor. -/
inductive Dtor where
  | idle
  | armed
  | exch
  | remove
  | wait
  | done
  deriving DecidableEq, Repr

/-- The reactor's thread: `process_ctl` and `dispatch`, with the awaitable out of the registry. In `value` the resumed
coroutine is in `await_resume`, in `body` it runs on. -/
inductive Reactor where
  | poll
  | apply (l : List Item)
  | drain
  | recv
  | disarm
  | exch
  | resume
  | value
  | body
  | ret (keep : Bool)
  deriving DecidableEq, Repr

/-- `reg`: the awaitable is in the registry; `acked`: the reactor has applied the `remove`; `out`: what `co_await`
gave. -/
structure State where
  await : Await
  dtor : Dtor
  reactor : Reactor
  armed : Bool
  done : Bool
  result : Result
  ctl : List Item
  reg : Bool
  acked : Bool
  out : Option Result
  deriving DecidableEq, Repr

inductive Choice where
  | go
  | invalid
  | take (r : Option Result)
  | ready
  deriving DecidableEq, Repr

inductive Act where
  | await (c : Choice)
  | dtor
  | reactor (c : Choice)
  deriving DecidableEq, Repr

def Await.readying : Await → Bool
  | handle => true
  | recv => true
  | _ => false

namespace State

def stepAwait (s : State) (c : Choice) : Option State :=
  match s.await, c with
  | .handle, .go => some { s with await := .recv }
  | .handle, .invalid => some { s with await := .sync, result := .noReadinessHandle }
  | .recv, .take none => some { s with await := .park }
  | .recv, .take (some r) => some { s with await := .sync, result := r }
  | .sync, .go => some { s with await := .resumed, out := some s.result }
  | .park, .go => some { s with await := .arm }
  | .arm, .go => some { s with await := .add, armed := true }
  | .add, .go => some { s with await := .parked, ctl := s.ctl ++ [.add] }
  | _, _ => none

def stepDtor (s : State) : Option State :=
  match s.dtor with
  | .idle => if !s.await.readying && s.reactor ≠ .value then some { s with dtor := .armed } else none
  | .armed => some { s with dtor := if s.armed then .exch else .done }
  | .exch => if s.done then some { s with dtor := .done } else some { s with dtor := .remove, done := true }
  | .remove => some { s with dtor := .wait, ctl := s.ctl ++ [.remove] }
  | .wait => if s.acked then some { s with dtor := .done } else none
  | .done => none

def stepReactor (s : State) (c : Choice) : Option State :=
  match s.reactor, c with
  | .poll, .go => some { s with reactor := .apply s.ctl, ctl := [] }
  | .apply (.add :: l), .go => some { s with reactor := .apply l, reg := true }
  | .apply (.remove :: l), .go => some { s with reactor := .apply l, reg := false, acked := true }
  | .apply [], .go => some { s with reactor := .poll }
  | .apply [], .ready =>
    if s.reg then some { s with reactor := .drain, reg := false } else some { s with reactor := .poll }
  | .drain, .go => some { s with reactor := .recv }
  | .recv, .take none => some { s with reactor := .ret true }
  | .recv, .take (some r) => some { s with reactor := .disarm, result := r }
  | .disarm, .go => some { s with reactor := .exch, armed := false }
  | .exch, .go =>
    if s.done then some { s with reactor := .ret false } else some { s with reactor := .resume, done := true }
  | .resume, .go => some { s with reactor := .value }
  | .value, .go => some { s with reactor := .body, out := some s.result }
  | .body, .go => some { s with reactor := .ret false }
  | .ret keep, .go => some { s with reactor := .poll, reg := s.reg || keep }
  | _, _ => none

def step (s : State) (a : Act) : Option State :=
  match a with
  | .await c => s.stepAwait c
  | .dtor => s.stepDtor
  | .reactor c => s.stepReactor c

end State

/-- The next step of the reactor's thread reads or writes the awaitable; in `resume` it resumes the coroutine. -/
def Reactor.touches : Reactor → Bool
  | drain => true
  | recv => true
  | disarm => true
  | exch => true
  | resume => true
  | value => true
  | _ => false

/-- `on_ready` has cleared `armed_`, and the coroutine has not yet taken its value. -/
def Reactor.delivering : Reactor → Bool
  | exch => true
  | resume => true
  | value => true
  | _ => false

/-- `on_ready` has exchanged `done_` first, and the coroutine has not yet taken its value. -/
def Reactor.resuming : Reactor → Bool
  | resume => true
  | value => true
  | _ => false

/-- The awaiting thread is inside `await_suspend` and has not queued the awaitable yet. -/
def Await.suspending : Await → Bool
  | park => true
  | arm => true
  | add => true
  | _ => false

/-- The destructor reads `armed_` after `await_suspend` has queued the awaitable and not while `on_ready` is delivering,
and does not exchange `done_` while `on_ready` is resuming. -/
def undelivered (s : State) (a : Act) : Prop :=
  match a with
  | .dtor => (s.dtor = .armed → s.await.suspending = false ∧ s.reactor.delivering = false) ∧
      (s.dtor = .exch → s.reactor.resuming = false)
  | _ => True

instance (s : State) : (a : Act) → Decidable (undelivered s a)
  | .await _ => inferInstanceAs (Decidable True)
  | .dtor => inferInstanceAs (Decidable ((_ → _) ∧ (_ → _)))
  | .reactor _ => inferInstanceAs (Decidable True)

/-! ## Who has the awaitable -/

/-- The reactor has the awaitable out of the registry, and may look at it or put it back. -/
def Reactor.has : Reactor → Bool
  | ret keep => keep
  | p => p.touches

def Reactor.taken : Reactor → List Item
  | apply l => l
  | _ => []

namespace State

def items (s : State) : List Item := s.reactor.taken ++ s.ctl

/-- The waiter is registered with the reactor: it is in the registry, taken out of it for `on_ready`, or queued for
it. -/
def Registered (s : State) : Prop := s.reg = true ∨ s.reactor.has = true ∨ .add ∈ s.items

end State

/-- While the reactor has the awaitable, it has it once, `armed_` is set unless `on_ready` is delivering, and `done_`
only if `on_ready` is resuming or the destructor is removing; no longer once the `remove` is acknowledged. -/
structure Inv (s : State) : Prop where
  parked : s.Registered → s.await = .parked
  adding : s.await = .add → s.armed = true
  begun : s.dtor ≠ .idle → s.await.readying = false
  looked : s.dtor ≠ .idle → s.dtor ≠ .armed → s.await.suspending = false
  unset : s.done = true → s.await.readying = false ∧ s.await.suspending = false
  alone : (s.reactor.has = true → s.reg = false) ∧ (s.reg = true ∨ s.reactor.has = true → .add ∉ s.items)
  items : s.items = [] ∨ s.items = [.add] ∨ s.items = [.add, .remove] ∨ s.items = [.remove]
  remove : .remove ∈ s.items ↔ s.dtor = .wait ∧ s.acked = false
  acked : s.acked = true → s.dtor = .wait ∨ s.dtor = .done
  armed : s.Registered → s.armed = true ∨ s.reactor.delivering = true
  done : s.Registered → s.done = true → s.reactor.resuming = true ∨ s.dtor = .remove ∨ s.dtor = .wait
  out : s.dtor = .done ∨ s.acked = true → ¬s.Registered

namespace Inv

variable {s s' : State}

/-! ## The awaiting thread -/

theorem not_registered (h : Inv s) (hp : s.await ≠ .parked) : ¬s.Registered := fun hr => hp (h.parked hr)

theorem awaitTo (h : Inv s) {q : Await} {b : Bool} {r : Result} {o : Option Result} (hp : s.await ≠ .parked)
    (hadd : q = .add → b = true) (hread : s.await.readying = false → q.readying = false)
    (hsusp : s.await.readying = false → s.await.suspending = false → q.suspending = false) :
    Inv { s with await := q, armed := b, result := r, out := o } := by
  have hnot := h.not_registered hp
  exact { h with
    parked := fun hr => absurd hr hnot
    adding := hadd
    begun := fun hd => hread (h.begun hd)
    looked := fun hd ha => hsusp (h.begun hd) (h.looked hd ha)
    unset := fun hd => ⟨hread (h.unset hd).1, hsusp (h.unset hd).1 (h.unset hd).2⟩
    armed := fun hr => absurd hr hnot }

theorem awaitAdds (h : Inv s) (ha : s.await = .add) : Inv { s with await := .parked, ctl := s.ctl ++ [.add] } := by
  have hnot := h.not_registered (by rw [ha]; decide)
  have hsusp : s.await.suspending = true := by rw [ha]; rfl
  have hdtor : s.dtor = .idle ∨ s.dtor = .armed := by
    by_contra hne
    rw [not_or] at hne
    rw [h.looked hne.1 hne.2] at hsusp
    cases hsusp
  have hremove : .remove ∉ s.items := by
    intro hm
    have hw := (h.remove.mp hm).1
    rcases hdtor with hd | hd <;> rw [hd] at hw <;> cases hw
  have hadd : .add ∉ s.items := fun hm => hnot (Or.inr (Or.inr hm))
  have hnil : s.items = [] := by
    rcases h.items with hi | hi | hi | hi
    · exact hi
    · exact absurd (by rw [hi]; simp) hadd
    · exact absurd (by rw [hi]; simp) hadd
    · exact absurd (by rw [hi]; simp) hremove
  have hitems : State.items { s with await := .parked, ctl := s.ctl ++ [.add] } = [.add] := by
    show s.reactor.taken ++ (s.ctl ++ [.add]) = [.add]
    rw [← List.append_assoc, show s.reactor.taken ++ s.ctl = [] from hnil]
    rfl
  have hreg : s.reg = true ∨ s.reactor.has = true → False := fun hr => hnot (hr.imp id Or.inl)
  have hack : ¬(s.dtor = .done ∨ s.acked = true) := by
    rintro (hd | hk)
    · rw [hd] at hdtor
      rcases hdtor with hd | hd <;> cases hd
    · rcases h.acked hk with hd' | hd' <;> rw [hd'] at hdtor <;> rcases hdtor with hd | hd <;> cases hd
  exact { h with
    parked := fun _ => rfl
    adding := fun hq => by cases hq
    begun := fun _ => rfl
    looked := fun _ _ => rfl
    alone := ⟨fun hh => absurd (Or.inr hh) hreg, fun hr => absurd hr hreg⟩
    items := Or.inr (Or.inl hitems)
    remove := by
      rw [hitems]
      constructor
      · intro hm
        simp at hm
      · intro hw
        exact absurd (h.remove.mpr hw) hremove
    armed := fun _ => Or.inl (h.adding ha)
    unset := fun _ => ⟨rfl, rfl⟩
    done := fun _ hd => by
      rw [(h.unset hd).2] at hsusp
      cases hsusp
    out := fun ho => absurd ho hack }

theorem stepAwait (h : Inv s) {c : Choice} (hs : s.stepAwait c = some s') : Inv s' := by
  unfold State.stepAwait at hs
  split at hs
  case h_1 hpc | h_2 hpc | h_3 hpc | h_4 hpc | h_5 hpc | h_6 hpc =>
    cases hs
    refine h.awaitTo (by rw [hpc]; decide) (fun hq => by cases hq) ?_ ?_ <;> rw [hpc] <;> decide
  case h_7 hpc =>
    cases hs
    refine h.awaitTo (by rw [hpc]; decide) (fun _ => rfl) ?_ ?_ <;> rw [hpc] <;> decide
  case h_8 hpc =>
    cases hs
    exact h.awaitAdds hpc
  case h_9 => cases hs

/-! ## The destructor -/

/-- A step of the destructor that neither exchanges `done_` first nor queues the `remove`. -/
theorem dtorTo (h : Inv s) {q : Dtor} (hs : s.dtor ≠ .remove) (hw : s.dtor = .wait → s.acked = true)
    (hq : q ≠ .wait) (hread : s.await.readying = false) (hsusp : q ≠ .armed → s.await.suspending = false)
    (hack : s.acked = true → q = .done) (hout : q = .done → ¬s.Registered) : Inv { s with dtor := q } :=
  { h with
    begun := fun _ => hread
    looked := fun _ ha => hsusp ha
    remove := by
      refine ⟨fun hm => ?_, fun hd => absurd hd.1 hq⟩
      obtain ⟨hd, hk⟩ := h.remove.mp hm
      rw [hw hd] at hk
      cases hk
    acked := fun hk => Or.inr (hack hk)
    done := fun hr hd => by
      rcases h.done hr hd with hm | hd | hd
      · exact Or.inl hm
      · exact absurd hd hs
      · exact absurd hr (h.out (Or.inr (hw hd)))
    out := by
      rintro (hd | hk)
      · exact hout hd
      · exact h.out (Or.inr hk) }

theorem acked_false (h : Inv s) (hw : s.dtor ≠ .wait) (hd : s.dtor ≠ .done) : s.acked = false := by
  rw [Bool.eq_false_iff]
  exact fun hk => (h.acked hk).elim hw hd

theorem dtorWins (h : Inv s) (hs : s.dtor = .exch) : Inv { s with dtor := .remove, done := true } := by
  have hread := h.begun (by rw [hs]; decide)
  have hsusp := h.looked (by rw [hs]; decide) (by rw [hs]; decide)
  have hack := h.acked_false (by rw [hs]; decide) (by rw [hs]; decide)
  exact { h with
    begun := fun _ => hread
    looked := fun _ _ => hsusp
    unset := fun _ => ⟨hread, hsusp⟩
    remove := by
      refine ⟨fun hm => ?_, fun hd => by cases hd.1⟩
      have hw := (h.remove.mp hm).1
      rw [hs] at hw
      cases hw
    acked := fun hk => by
      rw [hack] at hk
      cases hk
    done := fun _ _ => Or.inr (Or.inl rfl)
    out := fun ho => h.out (ho.imp (fun hd => by cases hd) id) }

theorem dtorRemoves (h : Inv s) (hs : s.dtor = .remove) : Inv { s with dtor := .wait, ctl := s.ctl ++ [.remove] } := by
  have hsusp := h.looked (by rw [hs]; decide) (by rw [hs]; decide)
  have hack := h.acked_false (by rw [hs]; decide) (by rw [hs]; decide)
  have hremove : .remove ∉ s.items := by
    intro hm
    have hw := (h.remove.mp hm).1
    rw [hs] at hw
    cases hw
  have hitems : State.items { s with dtor := .wait, ctl := s.ctl ++ [.remove] } = s.items ++ [.remove] :=
    (List.append_assoc _ _ _).symm
  have hadd : .add ∈ s.items ++ [Item.remove] ↔ .add ∈ s.items := by simp
  have hreg : State.Registered { s with dtor := .wait, ctl := s.ctl ++ [.remove] } ↔ s.Registered := by
    unfold State.Registered
    rw [hitems, hadd]
  exact { h with
    parked := fun hr => h.parked (hreg.mp hr)
    begun := fun _ => h.begun (by rw [hs]; decide)
    looked := fun _ _ => hsusp
    alone := ⟨h.alone.1, fun hh => by rw [hitems, hadd]; exact h.alone.2 hh⟩
    items := by
      rw [hitems]
      rcases h.items with hi | hi | hi | hi
      · exact Or.inr (Or.inr (Or.inr (by rw [hi]; rfl)))
      · exact Or.inr (Or.inr (Or.inl (by rw [hi]; rfl)))
      · exact absurd (by rw [hi]; simp) hremove
      · exact absurd (by rw [hi]; simp) hremove
    remove := by
      rw [hitems]
      exact ⟨fun _ => ⟨rfl, hack⟩, fun _ => by simp⟩
    acked := fun _ => Or.inl rfl
    armed := fun hr => h.armed (hreg.mp hr)
    done := fun _ _ => Or.inr (Or.inr rfl)
    out := by
      rintro (hd | hk)
      · cases hd
      · rw [show s.acked = true from hk] at hack
        cases hack }

theorem stepDtor (h : Inv s) (hok : undelivered s .dtor) (hs : s.stepDtor = some s') : Inv s' := by
  obtain ⟨hlook, hexch⟩ := hok
  unfold State.stepDtor at hs
  split at hs
  case h_1 hpc =>
    split_ifs at hs with hread
    cases hs
    rw [Bool.and_eq_true, Bool.not_eq_true'] at hread
    have hack := h.acked_false (by rw [hpc]; decide) (by rw [hpc]; decide)
    exact h.dtorTo (by rw [hpc]; decide) (fun hw => by rw [hpc] at hw; cases hw) (by decide) hread.1
      (fun hq => absurd rfl hq) (fun hk => by rw [hack] at hk; cases hk) (fun hq => by cases hq)
  case h_2 hpc =>
    have hs := Option.some.inj hs
    subst hs
    obtain ⟨hsusp, hdel⟩ := hlook hpc
    have hread := h.begun (by rw [hpc]; decide)
    have hack := h.acked_false (by rw [hpc]; decide) (by rw [hpc]; decide)
    refine h.dtorTo (by rw [hpc]; decide) (fun hw => by rw [hpc] at hw; cases hw) (by split_ifs <;> decide) hread
      (fun _ => hsusp) (fun hk => by rw [hack] at hk; cases hk) fun hq hr => ?_
    -- `armed_` was false and `on_ready` not delivering
    split_ifs at hq with harmed
    rcases h.armed hr with ha | hd
    · exact harmed ha
    · rw [hdel] at hd
      cases hd
  case h_3 hpc =>
    have hread := h.begun (by rw [hpc]; decide)
    have hsusp := h.looked (by rw [hpc]; decide) (by rw [hpc]; decide)
    split_ifs at hs with hdone <;> cases hs
    · refine h.dtorTo (by rw [hpc]; decide) (fun hw => by rw [hpc] at hw; cases hw) (by decide) hread (fun _ => hsusp)
        (fun _ => rfl) fun _ hr => ?_
      rcases h.done hr hdone with hm | hd | hd
      · rw [hexch hpc] at hm
        cases hm
      · rw [hpc] at hd
        cases hd
      · rw [hpc] at hd
        cases hd
    · exact h.dtorWins hpc
  case h_4 hpc =>
    cases hs
    exact h.dtorRemoves hpc
  case h_5 hpc =>
    split_ifs at hs with hack
    cases hs
    exact h.dtorTo (by rw [hpc]; decide) (fun _ => hack) (by decide) (h.begun (by rw [hpc]; decide))
      (fun _ => h.looked (by rw [hpc]; decide) (by rw [hpc]; decide)) (fun _ => rfl) fun _ => h.out (Or.inr hack)
  case h_6 => cases hs

/-! ## The reactor -/

theorem reactorTo (h : Inv s) {q : Reactor} {r : Result} {o : Option Result} (ht : q.taken = s.reactor.taken)
    (hh : q.has = s.reactor.has) (hdel : s.reactor.delivering = true → q.delivering = true)
    (hres : s.reactor.resuming = true → q.resuming = true) : Inv { s with reactor := q, result := r, out := o } := by
  have hitems : State.items { s with reactor := q, result := r, out := o } = s.items := by
    show q.taken ++ s.ctl = s.reactor.taken ++ s.ctl
    rw [ht]
  have hreg : State.Registered { s with reactor := q, result := r, out := o } ↔ s.Registered := by
    unfold State.Registered
    rw [hitems]
    show _ ∨ q.has = true ∨ _ ↔ _
    rw [hh]
  exact { h with
    parked := fun hr => h.parked (hreg.mp hr)
    alone := by
      rw [hitems]
      show (q.has = true → _) ∧ (_ ∨ q.has = true → _)
      rw [hh]
      exact h.alone
    items := by
      rw [hitems]
      exact h.items
    remove := by
      rw [hitems]
      exact h.remove
    armed := fun hr => (h.armed (hreg.mp hr)).imp id hdel
    done := fun hr hd => (h.done (hreg.mp hr) hd).imp hres id
    out := fun ho hr => h.out ho (hreg.mp hr) }

theorem reactorFree (h : Inv s) {q : Reactor} {l : List Item} {r a : Bool} {o : Option Result}
    (hnot : ¬State.Registered { s with reactor := q, ctl := l, reg := r, acked := a, out := o })
    (hitems : q.taken ++ l = [] ∨ q.taken ++ l = [.remove])
    (hremove : .remove ∈ q.taken ++ l ↔ s.dtor = .wait ∧ a = false)
    (hack : a = true → s.dtor = .wait ∨ s.dtor = .done) :
    Inv { s with reactor := q, ctl := l, reg := r, acked := a, out := o } :=
  { h with
    parked := fun hr => absurd hr hnot
    alone := ⟨fun hh => absurd (Or.inr (Or.inl hh)) hnot, fun hr => absurd (hr.imp id Or.inl) hnot⟩
    items := hitems.imp id fun hi => Or.inr (Or.inr hi)
    remove := hremove
    acked := hack
    armed := fun hr => absurd hr hnot
    done := fun hr => absurd hr hnot
    out := fun _ => hnot }

theorem items_of_not_add (h : Inv s) (hadd : .add ∉ s.items) : s.items = [] ∨ s.items = [.remove] := by
  rcases h.items with hi | hi | hi | hi
  · exact Or.inl hi
  · exact absurd (by rw [hi]; simp) hadd
  · exact absurd (by rw [hi]; simp) hadd
  · exact Or.inr hi

theorem reactorDrops (h : Inv s) {q : Reactor} {o : Option Result} (ht : q.taken = s.reactor.taken)
    (hhas : s.reactor.has = true) (hq : q.has = false) : Inv { s with reactor := q, out := o } := by
  have hitems : q.taken ++ s.ctl = s.items := by
    rw [ht]
    rfl
  have hadd := h.alone.2 (Or.inr hhas)
  have hnot : ¬State.Registered { s with reactor := q, out := o } := by
    rintro (hr | hr | hr)
    · have hreg := h.alone.1 hhas
      rw [show s.reg = true from hr] at hreg
      cases hreg
    · rw [show q.has = true from hr] at hq
      cases hq
    · exact hadd (hitems ▸ hr)
  exact h.reactorFree hnot (by rw [hitems]; exact h.items_of_not_add hadd) (by rw [hitems]; exact h.remove) h.acked

/-- The reactor takes what is queued, takes the awaitable out of the registry or puts it back. -/
theorem reactorHolds (h : Inv s) {q : Reactor} {l : List Item} {b : Bool} (hi : q.taken ++ l = s.items)
    (hreg : b = true ∨ q.has = true ↔ s.reg = true ∨ s.reactor.has = true) (hone : q.has = true → b = false)
    (hdel : s.reactor.delivering = false) (hres : s.reactor.resuming = false) :
    Inv { s with reactor := q, ctl := l, reg := b } := by
  have hitems : State.items { s with reactor := q, ctl := l, reg := b } = s.items := hi
  have hold : State.Registered { s with reactor := q, ctl := l, reg := b } → s.Registered := by
    unfold State.Registered
    rw [hitems, ← or_assoc, ← or_assoc]
    exact Or.imp hreg.mp id
  exact { h with
    parked := fun hr => h.parked (hold hr)
    alone := by
      rw [hitems]
      exact ⟨hone, fun hr => h.alone.2 (hreg.mp hr)⟩
    items := by
      rw [hitems]
      exact h.items
    remove := by
      rw [hitems]
      exact h.remove
    armed := fun hr => Or.inl ((h.armed (hold hr)).resolve_right (by rw [hdel]; decide))
    done := fun hr hd => Or.inr ((h.done (hold hr) hd).resolve_left (by rw [hres]; decide))
    out := fun ho hr => h.out ho (hold hr) }

theorem reactorAdds (h : Inv s) {l : List Item} (hs : s.reactor = .apply (.add :: l)) :
    Inv { s with reactor := .apply l, reg := true } := by
  have hold : s.items = .add :: (l ++ s.ctl) := by
    unfold State.items
    rw [hs]
    rfl
  have hreg : s.Registered := Or.inr (Or.inr (by rw [hold]; simp))
  have hrest : l ++ s.ctl = [] ∨ l ++ s.ctl = [.remove] := by
    have hi := h.items
    simpa [hold] using hi
  have hremove : .remove ∈ l ++ s.ctl ↔ .remove ∈ s.items := by
    rw [hold]
    simp
  exact { h with
    parked := fun _ => h.parked hreg
    alone := by
      refine ⟨(fun hh => by cases hh), fun _ hm => ?_⟩
      have hm : .add ∈ l ++ s.ctl := hm
      rcases hrest with hi | hi <;> rw [hi] at hm <;> simp at hm
    items := hrest.imp id fun hi => Or.inr (Or.inr hi)
    remove := hremove.trans h.remove
    armed := fun _ => Or.inl ((h.armed hreg).resolve_right (by rw [hs]; simp [Reactor.delivering]))
    done := fun _ hd => Or.inr ((h.done hreg hd).resolve_left (by rw [hs]; simp [Reactor.resuming]))
    out := fun ho => absurd hreg (h.out ho) }

theorem reactorRemoves (h : Inv s) {l : List Item} (hs : s.reactor = .apply (.remove :: l)) :
    Inv { s with reactor := .apply l, reg := false, acked := true } := by
  have hold : s.items = .remove :: (l ++ s.ctl) := by
    unfold State.items
    rw [hs]
    rfl
  have hnil : l ++ s.ctl = [] := by
    have hi := h.items
    simpa [hold] using hi
  have hwait := (h.remove.mp (by rw [hold]; simp)).1
  refine h.reactorFree ?_ (Or.inl hnil) ?_ fun _ => Or.inl hwait
  · rintro (hr | hr | hr)
    · cases hr
    · cases hr
    · have hr : .add ∈ l ++ s.ctl := hr
      rw [hnil] at hr
      cases hr
  · show .remove ∈ l ++ s.ctl ↔ _
    rw [hnil]
    simp

/-- `on_ready` has the awaitable in `disarm` and `exch`, and goes on to `exch` or `resume`. -/
theorem reactorDelivers (h : Inv s) {q : Reactor} {a d : Bool} (ht : q.taken = s.reactor.taken)
    (hhas : s.reactor.has = true) (hq : q.delivering = true) (hd : d = s.done ∨ q.resuming = true)
    (hres : s.reactor.resuming = false) : Inv { s with reactor := q, armed := a, done := d } := by
  have hreg : s.Registered := Or.inr (Or.inl hhas)
  have hparked := h.parked hreg
  have hitems : State.items { s with reactor := q, armed := a, done := d } = s.items := by
    show q.taken ++ s.ctl = s.reactor.taken ++ s.ctl
    rw [ht]
  exact { h with
    parked := fun _ => hparked
    adding := fun hadd => by
      rw [show s.await = .add from hadd] at hparked
      cases hparked
    unset := fun _ => by
      show s.await.readying = false ∧ s.await.suspending = false
      rw [hparked]
      exact ⟨rfl, rfl⟩
    alone := by
      rw [hitems]
      exact ⟨fun _ => h.alone.1 hhas, fun _ => h.alone.2 (Or.inr hhas)⟩
    items := by
      rw [hitems]
      exact h.items
    remove := by
      rw [hitems]
      exact h.remove
    armed := fun _ => Or.inr hq
    done := fun _ hdone => by
      rcases hd with hd | hd
      · have := h.done hreg (hd.symm.trans hdone)
        exact Or.inr (this.resolve_left (by rw [hres]; decide))
      · exact Or.inl hd
    out := fun ho => absurd hreg (h.out ho) }

theorem stepReactor (h : Inv s) {c : Choice} (hs : s.stepReactor c = some s') : Inv s' := by
  unfold State.stepReactor at hs
  split at hs
  case h_1 hpc =>
    cases hs
    refine h.reactorHolds ?_ (by rw [hpc]; rfl) (fun hh => by cases hh) (by rw [hpc]; rfl) (by rw [hpc]; rfl)
    rw [State.items, hpc]
    exact List.append_nil _
  case h_2 l hpc =>
    cases hs
    exact h.reactorAdds hpc
  case h_3 l hpc =>
    cases hs
    exact h.reactorRemoves hpc
  case h_4 hpc =>
    cases hs
    refine h.reactorTo ?_ ?_ ?_ ?_ <;> rw [hpc] <;> decide
  case h_5 hpc =>
    split_ifs at hs with hreg <;> cases hs
    · exact h.reactorHolds (by rw [State.items, hpc]; rfl) ⟨fun _ => Or.inl hreg, fun _ => Or.inr rfl⟩ (fun _ => rfl)
        (by rw [hpc]; rfl) (by rw [hpc]; rfl)
    · refine h.reactorTo ?_ ?_ ?_ ?_ <;> rw [hpc] <;> decide
  case h_6 hpc | h_7 hpc | h_8 r hpc | h_11 hpc | h_13 hpc =>
    cases hs
    refine h.reactorTo ?_ ?_ ?_ ?_ <;> rw [hpc] <;> decide
  case h_9 hpc =>
    cases hs
    exact h.reactorDelivers (by rw [hpc]; rfl) (by rw [hpc]; rfl) rfl (Or.inl rfl) (by rw [hpc]; rfl)
  case h_10 hpc =>
    split_ifs at hs <;> cases hs
    · exact h.reactorDrops (by rw [hpc]; rfl) (by rw [hpc]; rfl) rfl
    · exact h.reactorDelivers (by rw [hpc]; rfl) (by rw [hpc]; rfl) rfl (Or.inr rfl) (by rw [hpc]; rfl)
  case h_12 hpc =>
    cases hs
    exact h.reactorDrops (by rw [hpc]; rfl) (by rw [hpc]; rfl) rfl
  case h_14 keep hpc =>
    cases hs
    cases keep with
    | false =>
      rw [Bool.or_false]
      refine h.reactorTo ?_ ?_ ?_ ?_ <;> rw [hpc] <;> decide
    | true =>
      rw [Bool.or_true]
      exact h.reactorHolds (by rw [State.items, hpc]; rfl) ⟨fun _ => Or.inr (by rw [hpc]; rfl), fun _ => Or.inl rfl⟩
        (fun hh => by cases hh) (by rw [hpc]; rfl) (by rw [hpc]; rfl)
  case h_15 => cases hs

theorem step (h : Inv s) {a : Act} (hok : undelivered s a) (hs : s.step a = some s') : Inv s' := by
  cases a with
  | await c => exact h.stepAwait hs
  | dtor => exact h.stepDtor hok hs
  | reactor c => exact h.stepReactor hs

end Inv

/-! ## Destroying a suspended coroutine -/

/-- A new awaitable: `result_` is `unknown` until something is received. -/
def initial : State where
  await := .handle
  dtor := .idle
  reactor := .poll
  armed := false
  done := false
  result := .unknown
  ctl := []
  reg := false
  acked := false
  out := none

theorem inv_initial : Inv initial := by
  have hnot : ¬initial.Registered := by
    rintro (hr | hr | hr) <;> cases hr
  exact {
    parked := fun hr => absurd hr hnot
    adding := fun ha => by cases ha
    begun := fun hd => absurd rfl hd
    looked := fun hd => absurd rfl hd
    unset := fun hd => by cases hd
    alone := ⟨(fun hh => by cases hh), fun hr => absurd (hr.imp id Or.inl) hnot⟩
    items := Or.inl rfl
    remove := by decide
    acked := fun hk => by cases hk
    armed := fun hr => absurd hr hnot
    done := fun hr => absurd hr hnot
    out := fun _ => hnot }

/-- **A destroyed awaitable is left alone**: in every run of `undelivered` steps, once the destructor has returned the
reactor neither accesses nor resumes nor keeps it. -/
theorem destroyed_untouched {s : State} {acts : List Act} (hrun : Run State.step undelivered initial acts s)
    (hd : s.dtor = .done) : s.reactor.touches = false ∧ ¬s.Registered := by
  have hinv := hrun.inv Inv inv_initial fun _ _ _ h hok hs => h.step hok hs
  have hnot := hinv.out (Or.inl hd)
  refine ⟨?_, hnot⟩
  rw [Bool.eq_false_iff]
  intro ht
  refine hnot (Or.inr (Or.inl ?_))
  cases hpc : s.reactor <;> rw [hpc] at ht <;> first | rfl | cases ht

/-- The awaitable is parked and the reactor has added it. -/
def suspended : List Act :=
  [.await .go, .await (.take none), .await .go, .await .go, .await .go, .reactor .go, .reactor .go]

/-- The reactor is receiving when the destructor starts, which exchanges `done_` first. -/
def removedActs : List Act :=
  suspended ++ [Act.reactor .ready, .reactor .go, .dtor, .dtor, .reactor (.take (some .message)), .reactor .go, .dtor,
    .dtor, .reactor .go, .reactor .go, .reactor .go, .reactor .go, .dtor]

theorem destroyed_untouched_receiving : ∃ s, Run State.step undelivered initial removedActs s ∧ s.dtor = .done ∧
    s.reactor.touches = false ∧ ¬s.Registered := by
  refine exists_run_imp (fun s => s.dtor = .done) (by decide +kernel) fun s hrun hd => ?_
  exact ⟨hd, destroyed_untouched hrun hd⟩

/-- `on_ready` has received a message and cleared `armed_`, and the destructor has seen that. -/
def clearedActs : List Act :=
  suspended ++ [Act.reactor .ready, .reactor .go, .reactor (.take (some .message)), .dtor, .reactor .go, .dtor]

/-- The destructor has seen `armed_`, `on_ready` has exchanged `done_`, and the destructor has seen that. -/
def lostActs : List Act :=
  suspended ++ [Act.reactor .ready, .reactor .go, .reactor (.take (some .message)), .dtor, .dtor, .reactor .go,
    .reactor .go, .dtor]

/-- The awaitable is removed before `await_suspend` has it added. -/
def earlyActs : List Act :=
  [.await .go, .await (.take none), .await .go, .await .go, .dtor, .dtor, .dtor, .dtor, .reactor .go,
    .reactor .go, .dtor, .await .go]

/-- **A destroyed coroutine is resumed.** The destructor returns because `on_ready` has cleared `armed_`, or was the
first to exchange `done_`, and `on_ready` then resumes; or the awaitable is queued after its destruction. -/
theorem resumed_destroyed :
    (∃ s, Run State.step (fun _ _ => True) initial clearedActs s ∧ s.dtor = .done ∧ s.reactor = .exch) ∧
    (∃ s, Run State.step (fun _ _ => True) initial (clearedActs ++ [.reactor .go]) s ∧ s.dtor = .done ∧
      s.reactor = .resume) ∧
    (∃ s, Run State.step (fun _ _ => True) initial lostActs s ∧ s.dtor = .done ∧ s.reactor = .resume) ∧
    ∃ s, Run State.step (fun _ _ => True) initial earlyActs s ∧ s.dtor = .done ∧ s.Registered := by
  refine ⟨?_, ?_, ?_, ?_⟩
  · exact exists_run_of (by decide +kernel)
  · exact exists_run_of (by decide +kernel)
  · exact exists_run_of (by decide +kernel)
  · refine exists_run_imp (fun s => s.dtor = .done ∧ .add ∈ s.items) (by decide +kernel) fun s hrun hx => ?_
    exact ⟨hx.1, Or.inr (Or.inr hx.2)⟩

end ThothIpc.CoroRecv
