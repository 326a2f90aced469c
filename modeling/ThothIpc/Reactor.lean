import ThothIpc.Lib.Run

/-!
# The reactor

`reactor.cpp`, on POSIX: one thread waits for descriptors to become readable and calls the waiters registered for them.
Requests to add and remove waiters come from any thread, through a queue that the reactor thread swaps out before it
dispatches a batch of events. A waiter's `on_ready` says if it is kept.

* `State.step` : the requests, and the reactor thread's steps, one request and one waiter at a time;
* `live` : which waiters were added and neither removed nor completed, by the requests applied and the calls made;
* `disciplined` : a waiter is added only if it is not live, the requests made before included;
* `Inv` : registry, list swapped out and armed descriptors agree with `live`;
* `registered_once` : so they do between any two iterations, and `on_ready` is called on live waiters only.

Which descriptors a batch has is left open, so it may have stale ones. The descriptor of the wakeups is skipped.
-/

namespace ThothIpc.Reactor
open Function Steps

variable {φ ω : Type}

/-- `ctl_item`. -/
inductive Item (φ ω : Type) where
  | add (fd : φ) (w : ω)
  | remove (fd : φ) (w : ω)
  deriving DecidableEq, Repr

/-- What has happened: a request was applied, with its acknowledgement, or a waiter was called and is kept or not. -/
inductive Event (φ ω : Type) where
  | applied (it : Item φ ω)
  | called (w : ω) (keep : Bool)
  deriving DecidableEq, Repr

/-- Where the reactor thread is: waiting; in `process_ctl`, with the requests and events left; before the next event; in
`dispatch`, with the waiters to call and those to keep. -/
inductive Pc (φ ω : Type) where
  | idle
  | ctl (todo : List (Item φ ω)) (events : List φ)
  | events (events : List φ)
  | dispatch (fd : φ) (todo keep : List ω) (events : List φ)
  deriving DecidableEq, Repr

/-- The waiters of the descriptors that have any, and the descriptors armed. -/
structure Registry (φ ω : Type) where
  reg : φ → Option (List ω)
  armed : φ → Bool

/-- `asked` has the requests made so far. -/
structure State (φ ω : Type) where
  ctl : List (Item φ ω)
  table : Registry φ ω
  pc : Pc φ ω
  asked : List (Item φ ω)
  log : List (Event φ ω)

/-- A request, the batch of events that ends the wait, the reactor's next step, or a call of `on_ready`. -/
inductive Act (φ ω : Type) where
  | ask (it : Item φ ω)
  | wake (events : List φ)
  | go
  | ready (keep : Bool)
  deriving DecidableEq, Repr

def State.start : State φ ω := ⟨[], ⟨fun _ => none, fun _ => false⟩, .idle, [], []⟩

/-! ## The steps -/

section Step

variable [DecidableEq φ] [DecidableEq ω]

namespace Registry

def waiters (r : Registry φ ω) (fd : φ) : List ω := (r.reg fd).getD []

/-- A descriptor's waiters become `l`; without any it is disarmed and erased. -/
def set (r : Registry φ ω) (fd : φ) (l : List ω) : Registry φ ω :=
  if l = [] then ⟨update r.reg fd none, update r.armed fd false⟩
  else { r with reg := update r.reg fd (some l) }

def apply (r : Registry φ ω) (it : Item φ ω) : Registry φ ω :=
  match it with
  | .add fd w =>
    let l := r.waiters fd ++ [w]
    let r := r.set fd l
    if l.length = 1 then { r with armed := update r.armed fd true } else r
  | .remove fd w =>
    match r.reg fd with
    | some l => r.set fd (l.erase w)
    | none => r

/-- The end of `dispatch`; the registry may have the descriptor or not. -/
def finish (r : Registry φ ω) (fd : φ) (keep : List ω) : Registry φ ω :=
  if keep = [] then if r.waiters fd = [] then r.set fd [] else r
  else r.set fd (keep ++ r.waiters fd)

end Registry

def State.go (s : State φ ω) : Option (State φ ω) :=
  match s.pc with
  | .idle => none
  | .ctl (it :: todo) es =>
    some { s with table := s.table.apply it, pc := .ctl todo es, log := s.log ++ [.applied it] }
  | .ctl [] es => some { s with pc := .events es }
  | .events [] => some { s with pc := .idle }
  | .events (fd :: es) =>
    match s.table.reg fd with
    | none => some { s with pc := .events es }
    | some l =>
      some { s with
        table := { s.table with reg := update s.table.reg fd (some []) }
        pc := .dispatch fd l [] es }
  | .dispatch fd [] keep es => some { s with table := s.table.finish fd keep, pc := .events es }
  | .dispatch _ (_ :: _) _ _ => none

def State.step (s : State φ ω) (a : Act φ ω) : Option (State φ ω) :=
  match a, s.pc with
  | .ask it, _ => some { s with ctl := s.ctl ++ [it], asked := s.asked ++ [it] }
  | .wake es, .idle => some { s with ctl := [], pc := .ctl s.ctl es }
  | .go, _ => s.go
  | .ready keep, .dispatch fd (w :: todo) kept es =>
    some { s with
      pc := .dispatch fd todo (if keep then kept ++ [w] else kept) es
      log := s.log ++ [.called w keep] }
  | _, _ => none

/-! ## Which waiters are live -/

/-- The descriptor for which a waiter is live, after an event. -/
def liveAfter (m : ω → Option φ) : Event φ ω → ω → Option φ
  | .applied (.add fd w) => update m w (some fd)
  | .applied (.remove fd w) => if m w = some fd then update m w none else m
  | .called w keep => if keep then m else update m w none

/-- The waiters added and neither removed nor completed, with their descriptors. A removal names the descriptor of the
addition. -/
def live (log : List (Event φ ω)) : ω → Option φ := log.foldl liveAfter fun _ => none

/-- Requests that may be made one after the other where the live waiters are `m`. -/
def Fine (m : ω → Option φ) : List (Item φ ω) → Prop
  | [] => True
  | it :: l =>
    (match it with
      | .add _ w => m w = none
      | .remove _ _ => True) ∧ Fine (liveAfter m (.applied it)) l

/-- The requests swapped out and not applied yet. -/
def Pc.pending : Pc φ ω → List (Item φ ω)
  | ctl todo _ => todo
  | _ => []

/-- A waiter is added only if it is not live once the requests made before are applied. -/
def disciplined (s : State φ ω) : Act φ ω → Prop
  | .ask it => Fine (live s.log) (s.pc.pending ++ s.ctl ++ [it])
  | _ => True

instance Fine.decidable : (m : ω → Option φ) → (l : List (Item φ ω)) → Decidable (Fine m l)
  | _, [] => inferInstanceAs (Decidable True)
  | m, .add fd w :: l =>
    let := Fine.decidable (liveAfter m (.applied (.add fd w))) l
    inferInstanceAs (Decidable (m w = none ∧ _))
  | m, .remove fd w :: l =>
    let := Fine.decidable (liveAfter m (.applied (.remove fd w))) l
    inferInstanceAs (Decidable (True ∧ _))

instance (s : State φ ω) : (a : Act φ ω) → Decidable (disciplined s a)
  | .ask _ => inferInstanceAs (Decidable (Fine _ _))
  | .wake _ | .go | .ready _ => inferInstanceAs (Decidable True)

theorem live_snoc (log : List (Event φ ω)) (e : Event φ ω) : live (log ++ [e]) = liveAfter (live log) e := by
  rw [live, List.foldl_append]
  rfl

theorem Fine.mono {l : List (Item φ ω)} {m m' : ω → Option φ} (hle : ∀ w, m' w = m w ∨ m' w = none) (h : Fine m l) :
    Fine m' l := by
  induction l generalizing m m' with
  | nil => trivial
  | cons it l ih =>
    obtain ⟨hit, hl⟩ := h
    have hupdate : ∀ w o, ∀ x, update m' w o x = update m w o x ∨ update m' w o x = none := by
      intro w o x
      by_cases hx : x = w
      · subst hx
        rw [update_self, update_self]
        exact Or.inl rfl
      · rw [update_of_ne hx, update_of_ne hx]
        exact hle x
    cases it with
    | add fd w => exact ⟨(hle w).elim (fun he => he.trans hit) id, ih (hupdate w _) hl⟩
    | remove fd w =>
      refine ⟨trivial, ih (fun x => ?_) hl⟩
      simp only [liveAfter]
      obtain he | he := hle w
      · rw [he]
        split
        · exact hupdate w none x
        · exact hle x
      · rw [he, if_neg fun hc => by cases hc]
        split
        · by_cases hx : x = w
          · exact Or.inr (hx ▸ he)
          · rw [update_of_ne hx]
            exact hle x
        · exact hle x

/-! ## The invariant -/

/-- The waiters of a descriptor, those swapped out included. -/
def State.view (s : State φ ω) (fd : φ) : List ω :=
  match s.pc with
  | .dispatch fd' todo keep _ => if fd = fd' then keep ++ todo else s.table.waiters fd
  | _ => s.table.waiters fd

/-- Every waiter is with the descriptor for which it is live, once, and nowhere else. -/
def Views (v : φ → List ω) (m : ω → Option φ) : Prop := ∀ fd w, (v fd).count w = if m w = some fd then 1 else 0

/-- Armed are the descriptors that are in the registry. -/
def Registry.Armed (r : Registry φ ω) : Prop := ∀ fd, r.armed fd = (r.reg fd).isSome

def Event.request : Event φ ω → Option (Item φ ω)
  | applied it => some it
  | called _ _ => none

/-- The descriptor that is being dispatched. -/
def Pc.fd : Pc φ ω → Option φ
  | dispatch fd _ _ _ => some fd
  | _ => none

def CallsLive (log : List (Event φ ω)) : Prop := ∀ l₁ w keep l₂, log = l₁ ++ .called w keep :: l₂ → live l₁ w ≠ none

structure Inv (s : State φ ω) : Prop where
  views : Views s.view (live s.log)
  armed : s.table.Armed
  swapped : ∀ fd, s.table.reg fd = some [] ↔ s.pc.fd = some fd
  fine : Fine (live s.log) (s.pc.pending ++ s.ctl)
  asked : s.asked = s.log.filterMap Event.request ++ (s.pc.pending ++ s.ctl)
  calls : CallsLive s.log

theorem CallsLive.snoc {log : List (Event φ ω)} {e : Event φ ω} (h : CallsLive log)
    (he : ∀ w keep, e = .called w keep → live log w ≠ none) : CallsLive (log ++ [e]) := by
  intro l₁ w keep l₂ heq
  obtain rfl | ⟨l, e', rfl⟩ := l₂.eq_nil_or_concat
  · obtain ⟨rfl, hlast⟩ := List.append_inj' heq rfl
    exact he w keep (List.cons.inj hlast).1
  · rw [List.concat_eq_append, ← List.cons_append, ← List.append_assoc] at heq
    exact h l₁ w keep l (List.append_inj' heq rfl).1

theorem live_none {l₁ l₂ : List (Event φ ω)} {w : ω} (h : live l₁ w = none) (hadd : ∀ fd, .applied (.add fd w) ∉ l₂) :
    live (l₁ ++ l₂) w = none := by
  induction l₂ generalizing l₁ with
  | nil => rwa [List.append_nil]
  | cons e l₂ ih =>
    rw [List.append_cons]
    refine ih ?_ fun fd hmem => hadd fd (List.mem_cons_of_mem _ hmem)
    rw [live_snoc]
    cases e with
    | applied it =>
      cases it with
      | add fd w' =>
        have hne : w ≠ w' := fun he => hadd fd (he ▸ List.mem_cons_self)
        rw [liveAfter, update_of_ne hne, h]
      | remove fd w' =>
        simp only [liveAfter]
        split
        · rw [update_apply, h, ite_self]
        · exact h
    | called w' keep =>
      simp only [liveAfter]
      split
      · exact h
      · rw [update_apply, h, ite_self]

/-- A waiter that was removed, from its descriptor, is called only after it has been added again. -/
theorem CallsLive.added {log : List (Event φ ω)} (h : CallsLive log) {l₁ l₂ l₃ : List (Event φ ω)} {fd : φ} {w : ω}
    {keep : Bool} (heq : log = l₁ ++ .applied (.remove fd w) :: l₂ ++ .called w keep :: l₃)
    (hfd : ∀ fd', live l₁ w = some fd' → fd' = fd) : ∃ fd', .applied (.add fd' w) ∈ l₂ := by
  by_contra! hadd
  have hnone : live (l₁ ++ [.applied (.remove fd w)]) w = none := by
    rw [live_snoc]
    simp only [liveAfter]
    split
    · exact update_self ..
    · rename_i hne
      cases hw : live l₁ w with
      | none => rfl
      | some fd' => exact absurd (hfd fd' hw ▸ hw) hne
  refine h (l₁ ++ .applied (.remove fd w) :: l₂) w keep l₃ heq ?_
  rw [List.append_cons]
  exact live_none hnone hadd

namespace Views

variable {v : φ → List ω} {m : ω → Option φ} {fd : φ} {w : ω}

theorem mem_iff (h : Views v m) : w ∈ v fd ↔ m w = some fd := by
  rw [← List.count_pos_iff, h fd w]
  split <;> simp [*]

theorem add (h : Views v m) (hw : m w = none) {v' : φ → List ω} (hv : v' = update v fd (v fd ++ [w])) :
    Views v' (update m w (some fd)) := by
  subst hv
  intro fd' x
  have hfd := h fd' x
  by_cases hx : x = w
  · subst hx
    rw [hw, if_neg (by simp)] at hfd
    rw [update_self]
    by_cases hf : fd' = fd
    · subst hf
      rw [update_self, List.count_append, hfd, if_pos rfl, List.count_singleton_self]
    · rw [update_of_ne hf, hfd, if_neg fun hc => hf (Option.some.inj hc).symm]
  · rw [update_of_ne hx, ← hfd]
    by_cases hf : fd' = fd
    · subst hf
      rw [update_self, List.count_append, List.count_singleton, if_neg (by simpa using Ne.symm hx)]
      rfl
    · rw [update_of_ne hf]

theorem clear (h : Views v m) (hw : m w = some fd) {v' : φ → List ω}
    (hv : ∀ fd' x, (v' fd').count x = if fd' = fd then ((v fd).erase w).count x else (v fd').count x) :
    Views v' (update m w none) := by
  intro fd' x
  have hfd := h fd' x
  rw [hv]
  by_cases hx : x = w
  · subst hx
    have hnone : ¬ (none : Option φ) = some fd' := fun hc => by cases hc
    rw [update_self, if_neg hnone]
    split
    · rw [List.count_erase_self, h fd x, if_pos hw]
    · rename_i hf
      rw [hfd, if_neg fun hc => hf (Option.some.inj (hc.symm.trans hw))]
  · rw [update_of_ne hx, ← hfd]
    split
    · rename_i hf
      rw [List.count_erase_of_ne hx, hf]
    · rfl

end Views

namespace Registry

variable {r : Registry φ ω} {fd : φ} {l : List ω}

omit [DecidableEq ω] in
theorem set_reg : (r.set fd l).reg = update r.reg fd (if l = [] then none else some l) := by
  unfold set
  split <;> rfl

omit [DecidableEq ω] in
theorem set_waiters : (r.set fd l).waiters = update r.waiters fd l := by
  funext fd'
  rw [waiters, set_reg]
  by_cases hf : fd' = fd
  · subst hf
    rw [update_self, update_self]
    split <;> simp [*]
  · rw [update_of_ne hf, update_of_ne hf]
    rfl

omit [DecidableEq ω] in
theorem Armed.set (h : r.Armed) (hfd : l ≠ [] → r.armed fd = true) : (r.set fd l).Armed := by
  intro fd'
  unfold Registry.set
  by_cases hf : fd' = fd
  · subst hf
    split
    · simp only [update_self]
      rfl
    · rename_i hl
      simp only [update_self]
      exact hfd hl
  · split <;> simp only [update_of_ne hf] <;> exact h fd'

omit [DecidableEq ω] in
theorem set_ne (h : ∀ fd', fd' ≠ fd → r.reg fd' ≠ some []) (fd' : φ) : (r.set fd l).reg fd' ≠ some [] := by
  rw [set_reg]
  by_cases hf : fd' = fd
  · subst hf
    rw [update_self]
    split
    · exact fun hc => by cases hc
    · exact fun hc => ‹l ≠ []› (Option.some.inj hc)
  · rw [update_of_ne hf]
    exact h fd' hf

theorem apply_spec {it : Item φ ω} {todo : List (Item φ ω)} {m : ω → Option φ} (hv : Views r.waiters m)
    (harmed : r.Armed) (hne : ∀ fd, r.reg fd ≠ some []) (hfine : Fine m (it :: todo)) :
    Views (r.apply it).waiters (liveAfter m (.applied it)) ∧ (r.apply it).Armed ∧
      ∀ fd, (r.apply it).reg fd ≠ some [] := by
  cases it with
  | add fd w =>
    have hpush : r.waiters fd ++ [w] ≠ [] := by simp
    have hview : Views (r.set fd (r.waiters fd ++ [w])).waiters (update m w (some fd)) :=
      hv.add hfine.1 set_waiters
    have hnil := set_ne (l := r.waiters fd ++ [w]) fun fd' (_ : fd' ≠ fd) => hne fd'
    simp only [Registry.apply]
    split
    · refine ⟨hview, fun fd' => ?_, hnil⟩
      rw [Registry.set, if_neg hpush]
      by_cases hf : fd' = fd
      · subst hf
        simp only [update_self]
        rfl
      · simp only [update_of_ne hf]
        exact harmed fd'
    · rename_i hlen
      refine ⟨hview, harmed.set fun _ => ?_, hnil⟩
      -- a second waiter: the descriptor had one
      cases hr : r.reg fd with
      | none =>
        rw [waiters, hr] at hlen
        exact absurd rfl hlen
      | some l =>
        rw [harmed, hr]
        rfl
  | remove fd w =>
    simp only [Registry.apply, liveAfter]
    cases hr : r.reg fd with
    | none =>
      have hw : m w ≠ some fd := fun hm => by
        have hmem := hv.mem_iff.mpr hm
        rw [waiters, hr] at hmem
        cases hmem
      rw [if_neg hw]
      exact ⟨hv, harmed, hne⟩
    | some l =>
      have hl : r.waiters fd = l := by rw [waiters, hr]; rfl
      refine ⟨?_, harmed.set fun _ => ?_, set_ne fun fd' _ => hne fd'⟩
      · rw [set_waiters, ← hl]
        split
        · rename_i hw
          refine hv.clear hw fun fd' x => ?_
          rw [update_apply]
          split <;> rfl
        · rename_i hw
          rw [List.erase_of_not_mem fun hmem => hw (hv.mem_iff.mp hmem), update_eq_self]
          exact hv
      · rw [harmed, hr]
        rfl

end Registry

/-! ## Runs -/

namespace Inv

variable {s s' : State φ ω}

theorem start : Inv (State.start : State φ ω) where
  views _ _ := rfl
  armed _ := rfl
  swapped fd := ⟨fun h => (by cases h), fun h => (by cases h)⟩
  fine := trivial
  asked := rfl
  calls l₁ w keep l₂ h := by simp [State.start] at h

theorem reg_ne (h : Inv s) (hpc : s.pc.fd = none) (fd : φ) : s.table.reg fd ≠ some [] := fun hr => by
  rw [(h.swapped fd).mp hr] at hpc
  cases hpc

omit [DecidableEq ω] in
theorem view_eq (hpc : s.pc.fd = none) : s.view = s.table.waiters := by
  funext fd
  unfold State.view
  split
  · rename_i he
    rw [he] at hpc
    cases hpc
  · rfl

/-- The queue is swapped out, or the thread goes on, outside of `dispatch`. -/
theorem move (h : Inv s) {pc : Pc φ ω} {ctl : List (Item φ ω)} (hfd : pc.fd = none) (hfd' : s.pc.fd = none)
    (hpend : pc.pending ++ ctl = s.pc.pending ++ s.ctl) : Inv { s with pc := pc, ctl := ctl } where
  views := by
    rw [view_eq (s := { s with pc := pc, ctl := ctl }) hfd]
    exact view_eq hfd' ▸ h.views
  armed := h.armed
  swapped fd := by rw [h.swapped fd, hfd', hfd]
  fine := hpend ▸ h.fine
  asked := hpend ▸ h.asked
  calls := h.calls

theorem applied (h : Inv s) {it : Item φ ω} {todo : List (Item φ ω)} {es : List φ} (hpc : s.pc = .ctl (it :: todo) es) :
    Inv { s with table := s.table.apply it, pc := .ctl todo es, log := s.log ++ [.applied it] } := by
  have hfd : s.pc.fd = none := by rw [hpc]; rfl
  have hfine := h.fine
  have hasked := h.asked
  rw [hpc] at hfine hasked
  obtain ⟨hviews, harmed, hne⟩ := Registry.apply_spec (view_eq hfd ▸ h.views) h.armed (h.reg_ne hfd) hfine
  refine ⟨?_, harmed, fun fd => ⟨fun hr => absurd hr (hne fd), fun hr => by cases hr⟩, ?_, ?_, ?_⟩
  · rw [live_snoc]
    exact hviews
  · rw [live_snoc]
    exact hfine.2
  · rw [List.filterMap_append]
    refine hasked.trans ?_
    simp only [Pc.pending, List.cons_append, List.filterMap_cons, List.filterMap_nil, Event.request, List.append_assoc,
      List.nil_append]
  · exact h.calls.snoc fun w keep he => by cases he

theorem dispatch (h : Inv s) {fd : φ} {es : List φ} {l : List ω} (hpc : s.pc = .events (fd :: es))
    (hr : s.table.reg fd = some l) : Inv { s with
      table := { s.table with reg := update s.table.reg fd (some []) }
      pc := .dispatch fd l [] es } := by
  have hfd : s.pc.fd = none := by rw [hpc]; rfl
  have hviews := h.views
  have hfine := h.fine
  have hasked := h.asked
  rw [view_eq hfd] at hviews
  rw [hpc] at hfine hasked
  refine ⟨fun fd' w => ?_, fun fd' => ?_, fun fd' => ?_, hfine, hasked, h.calls⟩
  · rw [← hviews fd' w]
    simp only [State.view, List.nil_append]
    split
    · rename_i hf
      rw [hf, Registry.waiters, hr]
      rfl
    · rename_i hf
      simp only [Registry.waiters, update_of_ne hf]
  · have harmed := h.armed fd'
    by_cases hf : fd' = fd
    · subst hf
      simp only [update_self]
      rw [harmed, hr]
      rfl
    · simp only [update_of_ne hf]
      exact harmed
  · by_cases hf : fd' = fd
    · subst hf
      simp only [update_self, Pc.fd]
    · simp only [update_of_ne hf, Pc.fd]
      exact ⟨fun hc => absurd hc (h.reg_ne hfd fd'), fun hc => absurd (Option.some.inj hc).symm hf⟩

theorem finish (h : Inv s) {fd : φ} {keep : List ω} {es : List φ} (hpc : s.pc = .dispatch fd [] keep es) :
    Inv { s with table := s.table.finish fd keep, pc := .events es } := by
  have hviews := h.views
  have hfine := h.fine
  have hasked := h.asked
  have hr : s.table.reg fd = some [] := (h.swapped fd).mpr (by rw [hpc]; rfl)
  have hwaiters : s.table.waiters fd = [] := by rw [Registry.waiters, hr]; rfl
  have hset : s.table.finish fd keep = s.table.set fd keep := by
    rw [Registry.finish, hwaiters, if_pos rfl, List.append_nil]
    split
    · rename_i hk
      rw [hk]
    · rfl
  rw [hpc] at hfine hasked
  rw [hset]
  refine ⟨fun fd' w => ?_, h.armed.set fun _ => ?_, fun fd' => ⟨fun hc => ?_, fun hc => by cases hc⟩, hfine, hasked,
    h.calls⟩
  · rw [← hviews fd' w, view_eq (s := { s with table := s.table.set fd keep, pc := .events es }) rfl]
    simp only [State.view, hpc, Registry.set_waiters, update_apply, List.append_nil]
  · rw [h.armed, hr]
    rfl
  · refine absurd hc (Registry.set_ne (fun fd'' hf hc => hf ?_) fd')
    have hswapped := (h.swapped fd'').mp hc
    rw [hpc] at hswapped
    exact (Option.some.inj hswapped).symm

theorem ready (h : Inv s) {fd : φ} {w : ω} {todo kept : List ω} {es : List φ} (keep : Bool)
    (hpc : s.pc = .dispatch fd (w :: todo) kept es) : Inv { s with
      pc := .dispatch fd todo (if keep then kept ++ [w] else kept) es
      log := s.log ++ [.called w keep] } := by
  have hviews := h.views
  have hfine := h.fine
  have hasked := h.asked
  have hswapped := h.swapped
  have hlist : s.view fd = kept ++ w :: todo := by
    simp only [State.view, hpc, if_true]
  have hlive : live s.log w = some fd := hviews.mem_iff.mp (by rw [hlist]; simp)
  rw [hpc] at hfine hasked hswapped
  have hcalls := h.calls.snoc (e := .called w keep) fun w' keep' he => by
    cases he
    rw [hlive]
    exact fun hc => by cases hc
  have hrequests : s.asked = (s.log ++ [Event.called w keep]).filterMap Event.request ++ ([] ++ s.ctl) := by
    rw [List.filterMap_append]
    exact hasked.trans (by
      simp only [Event.request, Pc.pending, List.filterMap_cons, List.filterMap_nil, List.append_nil])
  cases keep with
  | true =>
    refine ⟨?_, h.armed, hswapped, ?_, hrequests, hcalls⟩
    · rw [live_snoc]
      intro fd' x
      refine Eq.trans ?_ (hviews fd' x)
      simp only [State.view, hpc, if_true, List.append_assoc, List.singleton_append]
    · rw [live_snoc]
      exact hfine
  | false =>
    refine ⟨?_, h.armed, hswapped, ?_, hrequests, hcalls⟩
    · rw [live_snoc]
      refine hviews.clear hlive fun fd' x => ?_
      have hcount : ((kept ++ w :: todo).erase w).count x = (kept ++ todo).count x := by
        refine List.Perm.count_eq ?_ x
        exact (List.perm_middle.erase w).trans (by rw [List.erase_cons_head])
      rw [hlist, hcount]
      simp only [State.view, hpc]
      split <;> rfl
    · rw [live_snoc]
      refine hfine.mono fun x => ?_
      by_cases hx : x = w
      · exact Or.inr (by simp [liveAfter, hx])
      · exact Or.inl (by simp [liveAfter, hx])

theorem go (h : Inv s) (hs : s.go = some s') : Inv s' := by
  unfold State.go at hs
  split at hs
  · cases hs
  · rename_i hpc
    cases hs
    exact h.applied hpc
  · rename_i hpc
    cases hs
    exact h.move rfl (by rw [hpc]; rfl) (by rw [hpc]; rfl)
  · rename_i hpc
    cases hs
    exact h.move rfl (by rw [hpc]; rfl) (by rw [hpc]; rfl)
  · rename_i hpc
    split at hs
    · cases hs
      exact h.move rfl (by rw [hpc]; rfl) (by rw [hpc]; rfl)
    · rename_i hr
      cases hs
      exact h.dispatch hpc hr
  · rename_i hpc
    cases hs
    exact h.finish hpc
  · cases hs

theorem step (h : Inv s) {a : Act φ ω} (hok : disciplined s a) (hs : s.step a = some s') : Inv s' := by
  unfold State.step at hs
  split at hs
  · cases hs
    refine ⟨h.views, h.armed, h.swapped, ?_, ?_, h.calls⟩
    · rw [← List.append_assoc]
      exact hok
    · rw [h.asked]
      simp only [List.append_assoc]
  · rename_i hpc
    cases hs
    exact h.move rfl (by rw [hpc]; rfl) (by rw [hpc, List.append_nil]; rfl)
  · exact h.go hs
  · rename_i hpc
    cases hs
    exact h.ready _ hpc
  · cases hs

end Inv

/-- **Whenever the reactor waits, the armed descriptors are those with waiters, and every live waiter is registered
once**; requests are applied in order, and `on_ready` is called on live waiters only. -/
theorem registered_once {as : List (Act φ ω)} {s : State φ ω} (h : Run State.step disciplined State.start as s) :
    (s.pc = .idle →
      (∀ fd, s.table.armed fd = true ↔ s.table.waiters fd ≠ []) ∧
      (∀ fd w, (s.table.waiters fd).count w = if live s.log w = some fd then 1 else 0) ∧
      s.asked = s.log.filterMap Event.request ++ s.ctl) ∧
    CallsLive s.log ∧
    ∀ l₁ fd w l₂ keep l₃, s.log = l₁ ++ .applied (.remove fd w) :: l₂ ++ .called w keep :: l₃ →
      (∀ fd', live l₁ w = some fd' → fd' = fd) → ∃ fd', .applied (.add fd' w) ∈ l₂ := by
  have hinv : Inv s := h.inv Inv Inv.start fun _ _ _ hi hok hs => hi.step hok hs
  refine ⟨fun hpc => ?_, hinv.calls, fun _ _ _ _ _ _ heq hfd => hinv.calls.added heq hfd⟩
  have hfd : s.pc.fd = none := by rw [hpc]; rfl
  have hasked := hinv.asked
  rw [hpc] at hasked
  refine ⟨fun fd => ?_, Inv.view_eq hfd ▸ hinv.views, hasked⟩
  have hne := hinv.reg_ne hfd fd
  rw [hinv.armed, Registry.waiters]
  cases hr : s.table.reg fd with
  | none => simp
  | some l =>
    rw [hr] at hne
    simpa using hne

end Step

theorem registered_once_two : ∃ (as : List (Act (Fin 2) (Fin 2))) (s : State (Fin 2) (Fin 2)),
    Run State.step disciplined State.start as s ∧ s.log.length = 5 ∧ s.table.armed 0 = false ∧
      s.table.waiters 0 = [] := by
  refine ⟨[.ask (.add 0 0), .ask (.add 0 1), .wake [0], .go, .go, .go, .go, .ready true, .ask (.remove 0 0),
    .ready false, .go, .go, .wake [0, 1], .go, .go, .go, .go, .go], ?_⟩
  refine exists_run_imp (fun s => s.log.length = 5 ∧ s.pc = .idle ∧ s.table.armed 0 = false) (by decide)
    fun s hrun hs => ?_
  obtain ⟨hlen, hpc, harmed⟩ := hs
  have hnot : ¬ s.table.armed 0 = true := by rw [harmed]; exact Bool.false_ne_true
  refine ⟨hlen, harmed, ?_⟩
  exact not_not.mp fun hne => hnot ((((registered_once hrun).1 hpc).1 0).mpr hne)

end ThothIpc.Reactor
