import Mathlib

/-!
# Linked lists in memory

`Linked next start l` : the links `next` lead from `start` through the nodes of `l`, in this order, to the end. Links of
nodes outside the list may change (`Linked.update`).
-/

variable {α : Type*}

/-- The nodes of `l` follow each other from `start` to the end. -/
def Linked (next : α → Option α) : Option α → List α → Prop
  | start, [] => start = none
  | start, a :: l => start = some a ∧ Linked next (next a) l

namespace Linked

variable {next : α → Option α} {start : Option α} {a : α} {l : List α}

theorem of_some (h : Linked next (some a) l) : ∃ l', l = a :: l' ∧ Linked next (next a) l' := by
  cases l with
  | nil => cases h
  | cons b l' =>
    obtain ⟨hb, hl⟩ := h
    cases hb
    exact ⟨l', rfl, hl⟩

theorem update [DecidableEq α] {b : Option α} (ha : a ∉ l) (h : Linked next start l) :
    Linked (Function.update next a b) start l := by
  induction l generalizing start with
  | nil => exact h
  | cons c l ih =>
    obtain ⟨rfl, hl⟩ := h
    rw [List.mem_cons, not_or] at ha
    refine ⟨rfl, ?_⟩
    rw [Function.update_of_ne (Ne.symm ha.1)]
    exact ih ha.2 hl

end Linked
