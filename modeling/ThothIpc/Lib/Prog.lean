import Mathlib

/-!
# Programs that ask their environment

A program with a state whose system calls, and whatever other threads and processes do between two of its accesses, are
answers of an environment. A run is given by the list of these answers.

* `Prog σ ε α` : programs over states `σ` and answers `ε`; `ask` takes the next answer, `untilSome` is a loop;
* `After F p s Q` : if `p`, started in `s`, ends, and all answers meet `F`, then its result and its last state meet `Q`;
* `After.bind`, `After.ask`, `After.untilSome`, `After.forM` : the rules for `After`, by which a proof follows the
  program's text.

A program that runs out of answers, or gets one that cannot occur where it asks, has no result.
-/

/-- A program with states in `σ` that asks for answers in `ε`. -/
abbrev Prog (σ ε α : Type) := StateT σ (StateT (List ε) Option) α

namespace Prog

variable {σ ε α β : Type}

/-- The program's result and last state, if it ends with the last of the answers. -/
def result (p : Prog σ ε α) (s : σ) (es : List ε) : Option (α × σ) :=
  match (p.run s).run es with
  | some (r, []) => some r
  | _ => none

/-- The next answer. -/
def ask : Prog σ ε ε := fun s es =>
  match es with
  | [] => none
  | e :: es => some ((e, s), es)

/-- An answer that cannot occur here. -/
def impossible : Prog σ ε α := fun _ _ => none

/-- `body` again and again, until it gives a result; at most `n` times. -/
def untilSome (body : Prog σ ε (Option α)) : Nat → Prog σ ε α
  | 0 => impossible
  | n + 1 => do
      match ← body with
      | some a => pure a
      | none => untilSome body n

/-- If the program, started in `s`, ends, and all answers meet `F`, then its result and its last state meet `Q`. -/
def After (F : ε → Prop) (p : Prog σ ε α) (s : σ) (Q : α → σ → Prop) : Prop :=
  ∀ es, (∀ e ∈ es, F e) → ∀ a s' es', (p.run s).run es = some ((a, s'), es') → Q a s' ∧ ∀ e ∈ es', F e

namespace After

variable {F : ε → Prop} {p : Prog σ ε α} {s : σ} {Q Q' : α → σ → Prop}

theorem pure {a : α} (h : Q a s) : After F (Pure.pure a) s Q := by
  rintro es hes a' s' es' hr
  obtain ⟨⟨rfl, rfl⟩, rfl⟩ := hr
  exact ⟨h, hes⟩

theorem bind {f : α → Prog σ ε β} {Q : β → σ → Prop} (h : After F p s fun a s' => After F (f a) s' Q) :
    After F (p >>= f) s Q := by
  intro es hes b s' es' hr
  rw [StateT.run_bind, StateT.run_bind, Option.bind_eq_bind, Option.bind_eq_some_iff] at hr
  obtain ⟨⟨⟨a, s₁⟩, es₁⟩, hp, hf⟩ := hr
  obtain ⟨hq, hes₁⟩ := h es hes a s₁ es₁ hp
  exact hq es₁ hes₁ b s' es' hf

theorem mono (h : After F p s Q) (hq : ∀ a s', Q a s' → Q' a s') : After F p s Q' := by
  intro es hes a s' es' hr
  obtain ⟨h₁, h₂⟩ := h es hes a s' es' hr
  exact ⟨hq a s' h₁, h₂⟩

theorem ask {Q : ε → σ → Prop} (h : ∀ e, F e → Q e s) : After F Prog.ask s Q := by
  intro es hes e s' es' hr
  cases es with
  | nil => cases hr
  | cons e₁ es =>
    cases hr
    exact ⟨h e (hes e (List.mem_cons_self ..)), fun e' he' => hes e' (List.mem_cons_of_mem _ he')⟩

theorem impossible : After F (Prog.impossible : Prog σ ε α) s Q := by
  rintro es - a s' es' hr
  cases hr

theorem get {Q : σ → σ → Prop} (h : Q s s) : After F (MonadState.get : Prog σ ε σ) s Q := by
  rintro es hes a s' es' hr
  obtain ⟨⟨rfl, rfl⟩, rfl⟩ := hr
  exact ⟨h, hes⟩

theorem set {t : σ} {Q : PUnit → σ → Prop} (h : Q ⟨⟩ t) : After F (MonadStateOf.set t : Prog σ ε PUnit) s Q := by
  rintro es hes a s' es' hr
  obtain ⟨⟨rfl, rfl⟩, rfl⟩ := hr
  exact ⟨h, hes⟩

theorem modify {f : σ → σ} {Q : PUnit → σ → Prop} (h : Q ⟨⟩ (f s)) : After F (modify f : Prog σ ε PUnit) s Q := by
  rintro es hes a s' es' hr
  obtain ⟨⟨rfl, rfl⟩, rfl⟩ := hr
  exact ⟨h, hes⟩

/-- A loop: what holds before every turn, and what a last turn leaves. -/
theorem untilSome {body : Prog σ ε (Option α)} {n : Nat} (I : σ → Prop) (h0 : I s)
    (hb : ∀ t, I t → After F body t fun r t' => r.elim (I t') (Q · t')) : After F (Prog.untilSome body n) s Q := by
  induction n generalizing s with
  | zero => exact impossible
  | succ n ih =>
    refine bind ((hb s h0).mono ?_)
    intro r t hr
    cases r with
    | none => exact ih hr
    | some a => exact pure hr

theorem forM {f : β → Prog σ ε PUnit} (I : List β → σ → Prop) {l : List β} (h0 : I l s)
    (hf : ∀ x l t, I (x :: l) t → After F (f x) t fun _ t' => I l t') : After F (l.forM f) s fun _ t => I [] t := by
  induction l generalizing s with
  | nil => exact pure h0
  | cons x l ih => exact bind ((hf x l s h0).mono fun _ t ht => ih ht)

theorem result (h : After F p s Q) {es : List ε} {r : α × σ} (hes : ∀ e ∈ es, F e) (hr : p.result s es = some r) :
    Q r.1 r.2 := by
  unfold Prog.result at hr
  split at hr
  next r' heq =>
    cases hr
    exact (h es hes r.1 r.2 [] heq).1
  next => cases hr

end After

end Prog
