import ThothIpc.Lib.Linked
import ThothIpc.Lib.Run

/-!
# The lock-free stack

`intrusive_stack.h`: `push` stores `top_` as the node's `next` and exchanges `top_` for the node; `pop` loads the `next`
of the node on top, which another thread may have popped meanwhile, and exchanges `top_` for it.

* `Pc`, `State.step` : the accesses, of any number of threads to any number of stacks;
* `unstale` : no node goes back on a stack while a pop there still holds another `next` of it;
* `stack_sound` : under `unstale` every stack is a list of the nodes pushed on it and not popped.

`place` records where a node is: with the thread that has constructed or popped it, or on the stack it was pushed on. A
thread pushes a node that it owns.
-/

namespace ThothIpc.Mem.Stack
open Function Steps

/-! ## The accesses -/

inductive Place (τ σ : Type) where
  | unborn
  | held (t : τ)
  | on (S : σ)
  deriving DecidableEq, Repr

inductive Pc (σ ν : Type) where
  | idle
  | pushLoad (S : σ) (n : ν)
  | pushStore (S : σ) (n : ν) (oldTop : Option ν)
  | pushCas (S : σ) (n : ν) (oldTop : Option ν)
  | popLoad (S : σ)
  | popNext (S : σ) (oldTop : ν)
  | popCas (S : σ) (oldTop : ν) (next : Option ν)
  deriving DecidableEq, Repr

/-- The stacks `σ` over the nodes `ν`, and the threads `τ`. -/
structure State (τ σ ν : Type) where
  top : σ → Option ν
  next : ν → Option ν
  threads : τ → Pc σ ν
  place : ν → Place τ σ

inductive Act (τ σ ν : Type) where
  | construct (n : ν)
  | give (n : ν) (t : τ)
  | push (S : σ) (n : ν)
  | pop (S : σ)
  | go
  | fail
  deriving DecidableEq, Repr

namespace State

variable {τ σ ν : Type} [DecidableEq τ] [DecidableEq σ] [DecidableEq ν]

def setPc (s : State τ σ ν) (t : τ) (pc : Pc σ ν) : State τ σ ν := { s with threads := update s.threads t pc }

/-- The head of the loop in `pop`, with what has been found in `top_`; an empty stack gives a null pointer. -/
def found (S : σ) : Option ν → Pc σ ν
  | none => .idle
  | some n => .popNext S n

def go (s : State τ σ ν) (t : τ) : Option (State τ σ ν) :=
  match s.threads t with
  | .idle => none
  | .pushLoad S n => some (s.setPc t (.pushStore S n (s.top S)))
  | .pushStore S n old => some { s.setPc t (.pushCas S n old) with next := update s.next n old }
  | .pushCas S n old =>
    if s.top S = old then
      some { s.setPc t .idle with top := update s.top S (some n), place := update s.place n (.on S) }
    else some (s.setPc t (.pushStore S n (s.top S)))
  | .popLoad S => some (s.setPc t (found S (s.top S)))
  | .popNext S old => some (s.setPc t (.popCas S old (s.next old)))
  | .popCas S old next =>
    if s.top S = some old then
      some { s.setPc t .idle with top := update s.top S next, place := update s.place old (.held t) }
    else some (s.setPc t (found S (s.top S)))

def step (s : State τ σ ν) (a : τ × Act τ σ ν) : Option (State τ σ ν) :=
  let t := a.1
  match a.2 with
  | .construct n =>
    if s.threads t = .idle ∧ s.place n = .unborn then some { s with place := update s.place n (.held t) }
      else none
  | .give n t' =>
    if s.threads t = .idle ∧ s.place n = .held t then some { s with place := update s.place n (.held t') }
      else none
  | .push S n => if s.threads t = .idle ∧ s.place n = .held t then some (s.setPc t (.pushLoad S n)) else none
  | .pop S => if s.threads t = .idle then some (s.setPc t (.popLoad S)) else none
  | .go => s.go t
  | .fail =>
    match s.threads t with
    | .pushCas S n _ => some (s.setPc t (.pushStore S n (s.top S)))
    | .popCas S _ _ => some (s.setPc t (found S (s.top S)))
    | _ => none

end State

variable {τ σ ν : Type}

/-- A node goes on a stack only if each pop of the stack that holds it as the top has the `next` it goes there with. -/
def unstale (s : State τ σ ν) (a : τ × Act τ σ ν) : Prop :=
  match s.threads a.1, a.2 with
  | .pushCas S n old, .go => s.top S = old → ∀ t next, s.threads t = .popCas S n next → next = old
  | _, _ => True

/-! ## The invariant -/

/-- The node that a thread is about to push. -/
def Pc.pushing : Pc σ ν → Option ν
  | .pushLoad _ n => some n
  | .pushStore _ n _ => some n
  | .pushCas _ n _ => some n
  | _ => none

structure Inv (s : State τ σ ν) : Prop where
  chain : ∀ S, ∃ l, Linked s.next (s.top S) l ∧ l.Nodup ∧ ∀ n, n ∈ l ↔ s.place n = .on S
  push : ∀ t n, (s.threads t).pushing = some n → s.place n = .held t
  link : ∀ t S n old, s.threads t = .pushCas S n old → s.next n = old
  pop : ∀ t S n next, s.threads t = .popCas S n next → s.place n = .on S → s.next n = next

namespace Inv

variable {s : State τ σ ν}

/-- A pop whose exchange succeeds takes the first node of the list, and leaves its `next`. -/
theorem first (h : Inv s) {t : τ} {S : σ} {n : ν} {next : Option ν} (hpc : s.threads t = .popCas S n next)
    (htop : s.top S = some n) : s.place n = .on S ∧ s.next n = next := by
  obtain ⟨l, hl, -, hmem⟩ := h.chain S
  rw [htop] at hl
  obtain ⟨l', rfl, -⟩ := hl.of_some
  have hon := (hmem n).1 (List.mem_cons_self ..)
  exact ⟨hon, h.pop t S n next hpc hon⟩

/-- A node that nobody is pushing changes its place, and the tops of the stacks change with it. -/
theorem relocate [DecidableEq ν] (h : Inv s) {n : ν} {v : Place τ σ} {top : σ → Option ν}
    (hchain : ∀ S, ∃ l, Linked s.next (top S) l ∧ l.Nodup ∧ ∀ n', n' ∈ l ↔ update s.place n v n' = .on S)
    (hfree : ∀ t, (s.threads t).pushing ≠ some n)
    (hpop : ∀ t S next, s.threads t = .popCas S n next → v = .on S → s.next n = next) :
    Inv { s with top := top, place := update s.place n v } := by
  refine ⟨hchain, fun t n' hn' => ?_, h.link, fun t S n' next ht hon => ?_⟩
  · have hne : n' ≠ n := by
      rintro rfl
      exact hfree t hn'
    show update s.place n v n' = _
    rw [update_of_ne hne]
    exact h.push t n' hn'
  · have hon : update s.place n v n' = .on S := hon
    by_cases hne : n' = n
    · subst hne
      rw [update_self] at hon
      exact hpop t S next ht hon
    · rw [update_of_ne hne] at hon
      exact h.pop t S n' next ht hon

theorem hand [DecidableEq ν] (h : Inv s) {n : ν} {t : τ} (hon : ∀ S, s.place n ≠ .on S)
    (hfree : ∀ t', (s.threads t').pushing ≠ some n) : Inv { s with place := update s.place n (.held t) } := by
  refine h.relocate (fun S => ?_) hfree fun _ _ _ _ he => by cases he
  obtain ⟨l, hl, hnd, hmem⟩ := h.chain S
  refine ⟨l, hl, hnd, fun n' => ?_⟩
  by_cases hn : n' = n
  · subst hn
    simp only [update_self, hmem]
    exact ⟨fun he => absurd he (hon S), fun he => by cases he⟩
  · simp only [update_of_ne hn]
    exact hmem n'

variable [DecidableEq τ]

theorem move (h : Inv s) {t : τ} {pc : Pc σ ν} (hpush : ∀ n, pc.pushing = some n → s.place n = .held t)
    (hlink : ∀ S n old, pc = .pushCas S n old → s.next n = old)
    (hpop : ∀ S n next, pc = .popCas S n next → s.next n = next) : Inv (s.setPc t pc) := by
  refine ⟨h.chain, ?_, ?_, ?_⟩
  · refine (forall_update_iff _ fun t pc => ∀ n, Pc.pushing pc = some n → s.place n = .held t).2 ?_
    exact ⟨hpush, fun t' _ => h.push t'⟩
  · refine (forall_update_iff _ fun _ pc => ∀ S n old, pc = Pc.pushCas S n old → s.next n = old).2 ?_
    exact ⟨hlink, fun t' _ => h.link t'⟩
  · refine (forall_update_iff _ fun _ pc => ∀ S n next, pc = Pc.popCas S n next → s.place n = .on S →
      s.next n = next).2 ?_
    exact ⟨fun S n next he _ => hpop S n next he, fun t' _ => h.pop t'⟩

theorem rest (h : Inv s) (t : τ) : Inv (s.setPc t .idle) := h.move nofun nofun nofun

theorem not_pushing (h : Inv s) {t : τ} {n : ν} (hn : ∀ t', s.place n = .held t' → t' = t) (t' : τ) :
    ((s.setPc t .idle).threads t').pushing ≠ some n := by
  intro he
  rcases update_cases (P := fun pc => Pc.pushing pc = some n) he with ⟨-, hp⟩ | ⟨hne, hp⟩
  · cases hp
  · exact hne (hn t' (h.push t' n hp))

theorem found (h : Inv s) {t : τ} {S : σ} (o : Option ν) : Inv (s.setPc t (State.found S o)) := by
  cases o with
  | none => exact h.move (fun n hn => by cases hn) nofun nofun
  | some n => exact h.move (fun n hn => by cases hn) nofun nofun

variable [DecidableEq ν]

theorem store (h : Inv s) {t : τ} {S : σ} {n : ν} {old : Option ν} (hpc : s.threads t = .pushStore S n old) :
    Inv { s.setPc t (.pushCas S n old) with next := update s.next n old } := by
  have hn : s.place n = .held t := h.push t n (by rw [hpc]; rfl)
  have hmine : ∀ t', (s.threads t').pushing = some n → t' = t := by
    intro t' ht'
    have := h.push t' n ht'
    rw [hn] at this
    cases this
    rfl
  refine ⟨fun S' => ?_, ?_, ?_, ?_⟩
  · obtain ⟨l, hl, hnd, hmem⟩ := h.chain S'
    refine ⟨l, hl.update ?_, hnd, hmem⟩
    rw [hmem, hn]
    exact fun he => by cases he
  · refine (forall_update_iff _ fun t pc => ∀ n, Pc.pushing pc = some n → s.place n = .held t).2 ⟨?_, ?_⟩
    · intro n' he
      cases he
      exact hn
    · exact fun t' _ => h.push t'
  · refine (forall_update_iff _ fun _ pc => ∀ S' n' old', pc = Pc.pushCas S' n' old' →
      update s.next n old n' = old').2 ⟨?_, ?_⟩
    · intro S' n' old' he
      cases he
      exact update_self ..
    · intro t' ht' S' n' old' he
      have hne : n' ≠ n := by
        rintro rfl
        exact ht' (hmine t' (by rw [he]; rfl))
      rw [update_of_ne hne]
      exact h.link t' S' n' old' he
  · refine (forall_update_iff _ fun _ pc => ∀ S' n' next, pc = Pc.popCas S' n' next → s.place n' = .on S' →
      update s.next n old n' = next).2 ⟨?_, ?_⟩
    · intro S' n' next he
      cases he
    · intro t' _ S' n' next he hon
      have hne : n' ≠ n := by
        rintro rfl
        rw [hn] at hon
        cases hon
      rw [update_of_ne hne]
      exact h.pop t' S' n' next he hon

variable [DecidableEq σ]

theorem put (h : Inv s) {t : τ} {S : σ} {n : ν} {old : Option ν} (hpc : s.threads t = .pushCas S n old)
    (htop : s.top S = old) (hstale : ∀ t' next, s.threads t' = .popCas S n next → next = old) :
    Inv { s.setPc t .idle with top := update s.top S (some n), place := update s.place n (.on S) } := by
  have hn : s.place n = .held t := h.push t n (by rw [hpc]; rfl)
  have hnext := h.link t S n old hpc
  refine (h.rest t).relocate (fun S' => ?_) (h.not_pushing ?_) fun t' S' next ht' he => ?_
  · obtain ⟨l, hl, hnd, hmem⟩ := h.chain S'
    have hnl : n ∉ l := by
      rw [hmem, hn]
      exact fun he => by cases he
    by_cases hS : S' = S
    · subst hS
      refine ⟨n :: l, ?_, List.nodup_cons.2 ⟨hnl, hnd⟩, fun n' => ?_⟩
      · simp only [update_self]
        refine ⟨rfl, ?_⟩
        show Linked s.next (s.next n) l
        rw [hnext, ← htop]
        exact hl
      · by_cases hn' : n' = n
        · subst hn'
          simp [update_self]
        · simp only [update_of_ne hn', List.mem_cons, hn', false_or]
          exact hmem n'
    · refine ⟨l, ?_, hnd, fun n' => ?_⟩
      · simp only [update_of_ne hS]
        exact hl
      · by_cases hn' : n' = n
        · subst hn'
          simp only [update_self, hnl, false_iff]
          exact fun he => hS (Place.on.inj he).symm
        · simp only [update_of_ne hn']
          exact hmem n'
  · intro t' he
    rw [hn] at he
    cases he
    rfl
  · -- the pops that hold the node as the top have its `next`
    cases he
    rcases update_cases (P := fun pc => pc = Pc.popCas S n next) ht' with ⟨-, hp⟩ | ⟨-, hp⟩
    · cases hp
    · exact hnext.trans (hstale t' next hp).symm

theorem take (h : Inv s) {t : τ} {S : σ} {n : ν} {next : Option ν} (hpc : s.threads t = .popCas S n next)
    (htop : s.top S = some n) :
    Inv { s.setPc t .idle with top := update s.top S next, place := update s.place n (.held t) } := by
  obtain ⟨hon, hnext⟩ := h.first hpc htop
  refine (h.rest t).relocate (fun S' => ?_) (h.not_pushing ?_) fun _ _ _ _ he => by cases he
  · obtain ⟨l, hl, hnd, hmem⟩ := h.chain S'
    by_cases hS : S' = S
    · subst hS
      rw [htop] at hl
      obtain ⟨l', rfl, hl'⟩ := hl.of_some
      obtain ⟨hnl, hnd'⟩ := List.nodup_cons.1 hnd
      refine ⟨l', ?_, hnd', fun n' => ?_⟩
      · simp only [update_self]
        rw [← hnext]
        exact hl'
      · by_cases hn' : n' = n
        · subst hn'
          simp only [update_self, hnl, false_iff]
          exact fun he => by cases he
        · simp only [update_of_ne hn']
          show n' ∈ l' ↔ s.place n' = .on S'
          rw [← hmem n', List.mem_cons]
          simp [hn']
    · refine ⟨l, ?_, hnd, fun n' => ?_⟩
      · simp only [update_of_ne hS]
        exact hl
      · by_cases hn' : n' = n
        · subst hn'
          simp only [update_self, hmem, hon, Place.on.injEq]
          exact ⟨fun he => absurd he.symm hS, fun he => by cases he⟩
        · simp only [update_of_ne hn']
          exact hmem n'
  · intro t' he
    rw [hon] at he
    cases he

theorem go (h : Inv s) {t : τ} {s' : State τ σ ν} (hok : unstale s (t, .go)) (hs : s.go t = some s') : Inv s' := by
  unfold State.go at hs
  unfold unstale at hok
  cases hpc : s.threads t <;> simp only [hpc] at hs hok
  case idle => cases hs
  case pushLoad S n =>
    cases hs
    refine h.move (fun n' he => ?_) nofun nofun
    cases he
    exact h.push t n (by rw [hpc]; rfl)
  case pushStore S n old =>
    cases hs
    exact h.store hpc
  case pushCas S n old =>
    split at hs
    · rename_i htop
      cases hs
      exact h.put hpc htop (hok htop)
    · cases hs
      refine h.move (fun n' he => ?_) nofun nofun
      cases he
      exact h.push t n (by rw [hpc]; rfl)
  case popLoad S =>
    cases hs
    exact h.found _
  case popNext S old =>
    cases hs
    refine h.move nofun nofun fun S n next he => ?_
    cases he
    rfl
  case popCas S old next =>
    split at hs
    · rename_i htop
      cases hs
      exact h.take hpc htop
    · cases hs
      exact h.found _

theorem step (h : Inv s) {a : τ × Act τ σ ν} {s' : State τ σ ν} (hok : unstale s a) (hs : s.step a = some s') :
    Inv s' := by
  obtain ⟨t, a⟩ := a
  cases a with
  | construct n =>
    simp only [State.step] at hs
    split at hs
    · rename_i hc
      cases hs
      refine h.hand (fun S he => ?_) fun t' he => ?_
      · rw [hc.2] at he
        cases he
      · have := h.push t' n he
        rw [hc.2] at this
        cases this
    · cases hs
  | give n t' =>
    simp only [State.step] at hs
    split at hs
    · rename_i hc
      cases hs
      refine h.hand (fun S he => ?_) fun t'' he => ?_
      · rw [hc.2] at he
        cases he
      · have := h.push t'' n he
        rw [hc.2] at this
        cases this
        rw [hc.1] at he
        cases he
    · cases hs
  | push S n =>
    simp only [State.step] at hs
    split at hs
    · rename_i hc
      cases hs
      refine h.move (fun n' he => ?_) nofun nofun
      cases he
      exact hc.2
    · cases hs
  | pop S =>
    simp only [State.step] at hs
    split at hs
    · cases hs
      exact h.move nofun nofun nofun
    · cases hs
  | go => exact h.go hok hs
  | fail =>
    simp only [State.step] at hs
    split at hs
    · rename_i S n old hpc
      cases hs
      refine h.move (fun n' he => ?_) nofun nofun
      cases he
      exact h.push t n (by rw [hpc]; rfl)
    · cases hs
      exact h.found _
    · cases hs

end Inv

/-! ## Runs -/

structure State.New (s : State τ σ ν) : Prop where
  top : ∀ S, s.top S = none
  threads : ∀ t, s.threads t = .idle
  place : ∀ n, s.place n = .unborn

theorem State.New.inv {s : State τ σ ν} (h : s.New) : Inv s := by
  refine ⟨fun S => ⟨[], h.top S, List.nodup_nil, fun n => ?_⟩, fun t n he => ?_, fun t S n old he => ?_,
    fun t S n next he => ?_⟩
  · rw [h.place n]
    constructor
    · nofun
    · nofun
  · rw [h.threads t] at he
    cases he
  · rw [h.threads t] at he
    cases he
  · rw [h.threads t] at he
    cases he

variable [DecidableEq τ] [DecidableEq σ] [DecidableEq ν]

/-- **A stack holds what was pushed on it and not popped**, each node once, and a successful pop takes a node that is on
it. -/
theorem stack_sound {s₀ s : State τ σ ν} {acts : List (τ × Act τ σ ν)} (h₀ : s₀.New)
    (hr : Run State.step unstale s₀ acts s) :
    (∀ S, ∃ l, Linked s.next (s.top S) l ∧ l.Nodup ∧ ∀ n, n ∈ l ↔ s.place n = .on S) ∧
      ∀ t S n next, s.threads t = .popCas S n next → s.top S = some n → s.place n = .on S ∧ s.next n = next := by
  have hinv : Inv s := hr.inv Inv h₀.inv fun _ _ _ hu hok hst => hu.step hok hst
  exact ⟨hinv.chain, fun t S n next hpc htop => hinv.first hpc htop⟩

instance [Fintype τ] [Fintype ν] (s : State τ σ ν) (a : τ × Act τ σ ν) : Decidable (unstale s a) := by
  unfold unstale
  split <;> infer_instance

/-- One empty stack, three threads and three nodes. -/
def fresh : State (Fin 3) (Fin 1) (Fin 3) := ⟨fun _ => none, fun _ => none, fun _ => .idle, fun _ => .unborn⟩

theorem fresh_new : fresh.New := ⟨fun _ => rfl, fun _ => rfl, fun _ => rfl⟩

def pushActs (t n : Fin 3) : List (Fin 3 × Act (Fin 3) (Fin 1) (Fin 3)) := (t, .push 0 n) :: List.replicate 3 (t, .go)

def popActs (t : Fin 3) : List (Fin 3 × Act (Fin 3) (Fin 1) (Fin 3)) := (t, .pop 0) :: List.replicate 3 (t, .go)

/-- Thread 1 pushes nodes 1 and 0; thread 0 starts to pop and has loaded the top and its `next`. -/
def startActs : List (Fin 3 × Act (Fin 3) (Fin 1) (Fin 3)) :=
  [(1, .construct 0), (1, .construct 1), (1, .construct 2)] ++ pushActs 1 1 ++ pushActs 1 0 ++ (0, .pop 0) ::
    List.replicate 2 (0, .go)

/-- The node that thread 0 is about to pop is popped and pushed again where it was. -/
theorem stack_sound_reuse : ∃ s, Run State.step unstale fresh (startActs ++ popActs 1 ++ pushActs 1 0) s ∧
    s.threads 0 = .popCas 0 0 (some 1) ∧ s.place 0 = .on 0 ∧ s.next 0 = some 1 := by
  refine exists_run_imp (fun s => s.threads 0 = .popCas 0 0 (some 1) ∧ s.top 0 = some 0) (by decide +kernel)
    fun s hrun hx => ?_
  obtain ⟨hpc, htop⟩ := hx
  exact ⟨hpc, (stack_sound fresh_new hrun).2 0 0 0 (some 1) hpc htop⟩

/-- **The exchange of a pop compares the pointer only.** Thread 1 pops both nodes and pushes node 2 and node 0; thread
0's exchange succeeds with the old `next`: node 1 is on the stack though thread 1 owns it, and node 2 is lost. -/
theorem popped_while_owned : ∃ s, Run State.step (fun _ _ => True) fresh
    (startActs ++ popActs 1 ++ popActs 1 ++ pushActs 1 2 ++ pushActs 1 0 ++
    (0, .go) :: (2, .pop 0) :: List.replicate 2 (2, .go)) s ∧
      s.threads 2 = .popCas 0 1 none ∧ s.top 0 = some 1 ∧ s.place 1 = .held 1 ∧
      Linked s.next (s.top 0) [1] ∧ s.place 2 = .on 0 := by
  refine exists_run_imp (fun s => s.threads 2 = .popCas 0 1 none ∧ s.top 0 = some 1 ∧ s.place 1 = .held 1 ∧
    s.next 1 = none ∧ s.place 2 = .on 0) (by decide +kernel) fun s hrun hx => ?_
  obtain ⟨hpc, htop, hheld, hnext, hon⟩ := hx
  exact ⟨hpc, htop, hheld, ⟨htop, hnext⟩, hon⟩

end ThothIpc.Mem.Stack
