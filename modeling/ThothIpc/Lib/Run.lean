import Mathlib

/-!
# Runs of a partial step function

A system of interleaved threads is a state, a set of actions (which thread moves, and how its free choices fall) and a
partial function `step`. `Run step ok s as t` : the actions `as` lead from `s` to `t`, and each is taken in a state that
meets `ok`, by which a run can be restricted.

* `Run.inv` : what every allowed step preserves holds after every run;
* `Run.transfer` : a run of one step function is a run of another that agrees with it where the invariant holds;
* `Run.mono`, `Run.trans`, `Run.uncons` : weakening the condition, joining runs, taking the first step off;
* `exec` evaluates a list of actions; `run_of_exec`, `exists_run`, `exists_run_of` make a run of it;
* `forall_update`, `update_cases`, `view_update` : what is known of the threads after one has moved;
* the numerals of `Fin 1` to `Fin 4`, by which concrete runs name their threads, rest on one instance each.
-/

namespace Steps
open Function

instance neZeroOne : NeZero 1 := ⟨one_ne_zero⟩

instance neZeroTwo : NeZero 2 := ⟨two_ne_zero⟩

instance neZeroThree : NeZero 3 := ⟨three_ne_zero⟩

instance neZeroFour : NeZero 4 := ⟨four_ne_zero⟩

variable {σ α : Type*}

/-- The runs of `step` from `s` in which every action is taken in a state that meets `ok`. -/
inductive Run (step : σ → α → Option σ) (ok : σ → α → Prop) (s : σ) : List α → σ → Prop
  | nil : Run step ok s [] s
  | snoc {as : List α} {t : σ} {a : α} {u : σ} :
      Run step ok s as t → ok t a → step t a = some u → Run step ok s (as ++ [a]) u

variable {step : σ → α → Option σ} {ok ok' : σ → α → Prop} {s t u : σ} {as bs : List α}

/-- **The invariant rule.** -/
theorem Run.inv (h : Run step ok s as t) (I : σ → Prop) (h0 : I s)
    (hs : ∀ t a u, I t → ok t a → step t a = some u → I u) : I t := by
  induction h with
  | nil => exact h0
  | snoc _ hok hst ih => exact hs _ _ _ ih hok hst

/-- A run of one step function is a run of another that agrees with it wherever the invariant holds. -/
theorem Run.transfer {step' : σ → α → Option σ} (h : Run step ok s as t) (I : σ → Prop) (h0 : I s)
    (hs : ∀ t a u, I t → ok t a → step t a = some u → step' t a = some u ∧ I u) : Run step' ok s as t ∧ I t := by
  induction h with
  | nil => exact ⟨.nil, h0⟩
  | snoc _ hok hst ih =>
    obtain ⟨hst', hI⟩ := hs _ _ _ ih.2 hok hst
    exact ⟨.snoc ih.1 hok hst', hI⟩

theorem Run.mono (h : Run step ok s as t) (hok : ∀ t a, ok t a → ok' t a) : Run step ok' s as t := by
  induction h with
  | nil => exact .nil
  | snoc _ ho hst ih => exact .snoc ih (hok _ _ ho) hst

theorem Run.trans (h : Run step ok s as t) (h' : Run step ok t bs u) : Run step ok s (as ++ bs) u := by
  induction h' with
  | nil => simpa using h
  | snoc _ ho hst ih =>
    rw [← List.append_assoc]
    exact .snoc ih ho hst

theorem Run.one {a : α} (ho : ok s a) (hst : step s a = some t) : Run step ok s [a] t :=
  .snoc .nil ho hst

theorem Run.head {a : α} (ho : ok s a) (hst : step s a = some t) (h : Run step ok t as u) : Run step ok s (a :: as) u :=
  (Run.one ho hst).trans h

theorem Run.eq_of_nil (h : Run step ok s as t) (he : as = []) : t = s := by
  cases h with
  | nil => rfl
  | snoc _ _ _ => simp at he

theorem Run.uncons {a : α} (h : Run step ok s (a :: as) t) : ∃ u, ok s a ∧ step s a = some u ∧ Run step ok u as t := by
  generalize hl : a :: as = l at h
  induction h generalizing as with
  | nil => cases hl
  | @snoc bs v b u hrun ho hst ih =>
    cases bs with
    | nil =>
      cases hl
      obtain rfl := hrun.eq_of_nil rfl
      exact ⟨u, ho, hst, .nil⟩
    | cons c bs =>
      cases hl
      obtain ⟨w, hw, hsw, hrest⟩ := ih rfl
      exact ⟨w, hw, hsw, .snoc hrest ho hst⟩

/-- The state a list of actions leads to, if each of them is enabled and taken in a state that meets `ok`. -/
def exec (step : σ → α → Option σ) (ok : σ → α → Prop) [∀ s a, Decidable (ok s a)] (s : σ) : List α → Option σ
  | [] => some s
  | a :: as => if ok s a then (step s a).bind fun t => exec step ok t as else none

theorem run_of_exec [∀ s a, Decidable (ok s a)] (h : exec step ok s as = some t) : Run step ok s as t := by
  induction as generalizing s with
  | nil =>
    simp only [exec, Option.some.injEq] at h
    subst h
    exact .nil
  | cons a as ih =>
    simp only [exec] at h
    split at h
    · rename_i ho
      obtain ⟨v, hv, h⟩ := Option.bind_eq_some_iff.mp h
      exact Run.head ho hv (ih h)
    · cases h

/-- A run found by evaluation, with what a projection `f` of its last state evaluates to. -/
theorem exists_run {β : Type*} {x : β} (step : σ → α → Option σ) (ok : σ → α → Prop) [∀ s a, Decidable (ok s a)] (s : σ)
    (as : List α) (f : σ → β)
    (h : (exec step ok s as).map f = some x) : ∃ t, Run step ok s as t ∧ f t = x := by
  obtain ⟨t, ht, hx⟩ := Option.map_eq_some_iff.mp h
  exact ⟨t, run_of_exec ht, hx⟩

/-- A run found by evaluation, and what follows from a property of its last state that is decided with it. -/
theorem exists_run_imp {q : σ → Prop} (p : σ → Prop) [DecidablePred p] [∀ s a, Decidable (ok s a)]
    (h : (exec step ok s as).any (fun t => decide (p t)) = true) (hq : ∀ t, Run step ok s as t → p t → q t) :
    ∃ t, Run step ok s as t ∧ q t := by
  obtain ⟨t, ht, hp⟩ := (Option.any_eq_true _ _).mp h
  exact ⟨t, run_of_exec ht, hq t (run_of_exec ht) (of_decide_eq_true hp)⟩

theorem exists_run_of {p : σ → Prop} [DecidablePred p] [∀ s a, Decidable (ok s a)]
    (h : (exec step ok s as).any (fun t => decide (p t)) = true) : ∃ t, Run step ok s as t ∧ p t :=
  exists_run_imp p h fun _ _ hp => hp

/-! ## One thread moves -/

section Family
variable {τ β γ : Type*} [DecidableEq τ] {f : τ → β} {i j : τ} {x : β}

/-- What every thread knows, after `i` has moved: `i` by its new place, the others as before. -/
theorem forall_update {P : β → Prop} (hi : P x) (ho : ∀ j, j ≠ i → P (f j)) (j : τ) : P (update f i x j) :=
  (forall_update_iff f fun _ y => P y).mpr ⟨hi, ho⟩ j

theorem update_cases {P : β → Prop} (h : P (update f i x j)) : j = i ∧ P x ∨ j ≠ i ∧ P (f j) := by
  by_cases hj : j = i
  · subst hj
    rw [update_self] at h
    exact Or.inl ⟨rfl, h⟩
  · rw [update_of_ne hj] at h
    exact Or.inr ⟨hj, h⟩

theorem view_update {F : β → γ} (h : F x = F (f i)) (j : τ) : F (update f i x j) = F (f j) :=
  (forall_update_iff f fun j y => F y = F (f j)).mpr ⟨h, fun _ _ => rfl⟩ j

end Family

end Steps
