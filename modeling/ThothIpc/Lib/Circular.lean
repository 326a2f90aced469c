import Mathlib

/-!
# Doubly linked lists in memory

A list whose nodes have a link to the next and one to the previous node, and whose last node leads back to the head.
Nobody uses the head's link to a previous node.

* `Strand next prev a l b` : the links lead from `a` through the nodes of `l` to `b`, and those of `l` lead back;
* `Circular next prev h l` : the list with the head `h` has the nodes `l`, each once;
* `Circular.push`, `Circular.unlink` : what the stores of adding a node at the front and of taking one out make of it;
* `Circular.congr` : links of other nodes may change.
-/

variable {α : Type*}

/-- From `a` through the nodes of `l` to `b`; each node of `l` has the link back to the one before it. -/
def Strand (next prev : α → α) : α → List α → α → Prop
  | a, [], b => next a = b
  | a, c :: l, b => next a = c ∧ prev c = a ∧ Strand next prev c l b

namespace Strand
open Function

variable {next prev next' prev' : α → α} {a b c : α} {l l₁ l₂ : List α}

theorem congr (hn : ∀ x ∈ a :: l, next' x = next x) (hp : ∀ x ∈ l, prev' x = prev x) (h : Strand next prev a l b) :
    Strand next' prev' a l b := by
  induction l generalizing a with
  | nil => exact (hn a (List.mem_cons_self ..)).trans h
  | cons c l ih =>
    obtain ⟨hac, hca, hl⟩ := h
    refine ⟨(hn a (List.mem_cons_self ..)).trans hac, (hp c (List.mem_cons_self ..)).trans hca, ?_⟩
    exact ih (fun x hx => hn x (List.mem_cons_of_mem _ hx)) (fun x hx => hp x (List.mem_cons_of_mem _ hx)) hl

/-- The path through a node: up to it, the link back, and on from it. -/
theorem split (h : Strand next prev a (l₁ ++ c :: l₂) b) :
    Strand next prev a l₁ c ∧ prev c = (a :: l₁).getLast (List.cons_ne_nil _ _) ∧ Strand next prev c l₂ b := by
  induction l₁ generalizing a with
  | nil => exact ⟨h.1, h.2.1, h.2.2⟩
  | cons d l₁ ih =>
    obtain ⟨had, hda, hl⟩ := h
    obtain ⟨h₁, hc, h₂⟩ := ih hl
    refine ⟨⟨had, hda, h₁⟩, ?_, h₂⟩
    rw [hc, List.getLast_cons (List.cons_ne_nil _ _)]

theorem join (h₁ : Strand next prev a l₁ c) (hc : prev c = (a :: l₁).getLast (List.cons_ne_nil _ _))
    (h₂ : Strand next prev c l₂ b) : Strand next prev a (l₁ ++ c :: l₂) b := by
  induction l₁ generalizing a with
  | nil => exact ⟨h₁, hc, h₂⟩
  | cons d l₁ ih =>
    obtain ⟨had, hda, hl⟩ := h₁
    refine ⟨had, hda, ih hl ?_⟩
    rw [hc, List.getLast_cons (List.cons_ne_nil _ _)]

theorem redirect [DecidableEq α] (h : Strand next prev a l c) (hd : (a :: l).Nodup) :
    Strand (update next ((a :: l).getLast (List.cons_ne_nil _ _)) b) prev a l b := by
  induction l generalizing a with
  | nil => exact update_self ..
  | cons d l ih =>
    obtain ⟨had, hda, hl⟩ := h
    obtain ⟨hnot, hd'⟩ := List.nodup_cons.mp hd
    rw [List.getLast_cons (List.cons_ne_nil _ _)]
    refine ⟨?_, hda, ih hl hd'⟩
    rw [update_of_ne, had]
    intro e
    exact hnot (e ▸ List.getLast_mem _)

end Strand

/-- The list with the head `h` has the nodes `l`. -/
structure Circular (next prev : α → α) (h : α) (l : List α) : Prop where
  path : Strand next prev h l h
  nodup : (h :: l).Nodup

namespace Circular
open Function

variable {next prev next' prev' : α → α} {h a : α} {l : List α}

theorem nil (hn : next h = h) : Circular next prev h [] := ⟨hn, List.nodup_singleton h⟩

theorem congr (hc : Circular next prev h l) (hn : ∀ x ∈ h :: l, next' x = next x) (hp : ∀ x ∈ l, prev' x = prev x) :
    Circular next' prev' h l :=
  ⟨hc.path.congr hn hp, hc.nodup⟩

variable [DecidableEq α]

/-- **A node in front**: its links, the head's link to it, and the link of the node that was the first. -/
theorem push (hc : Circular next prev h l) (ha : a ∉ h :: l)
    (hn : next' = update (update next a (next h)) h a)
    (hp : prev' = if next h = h then update prev a h
      else update (update prev a h) (next h) a) : Circular next' prev' h (a :: l) := by
  obtain ⟨hpath, hd⟩ := hc
  have hah : a ≠ h := fun e => ha (e ▸ List.mem_cons_self ..)
  have hla : a ∉ l := fun h' => ha (List.mem_cons_of_mem _ h')
  obtain ⟨hhl, hdl⟩ := List.nodup_cons.mp hd
  refine ⟨?_, ?_⟩
  · have hna : next' a = next h := by
      rw [hn, update_of_ne hah, update_self]
    have hnl : ∀ x ∈ l, next' x = next x := by
      intro x hx
      have hxh : x ≠ h := fun e => hhl (e ▸ hx)
      have hxa : x ≠ a := fun e => hla (e ▸ hx)
      rw [hn, update_of_ne hxh, update_of_ne hxa]
    cases l with
    | nil =>
      refine ⟨by rw [hn, update_self], ?_, hna.trans hpath⟩
      have hhh : next h = h := hpath
      rw [hp, if_pos hhh, update_self]
    | cons c l =>
      obtain ⟨hhc, hch, hcl⟩ := hpath
      have hne : next h ≠ h := fun e => hhl (by rw [← e, hhc]; exact List.mem_cons_self ..)
      have hac : a ≠ c := fun e => hla (e ▸ List.mem_cons_self ..)
      rw [if_neg hne, hhc] at hp
      refine ⟨by rw [hn, update_self], ?_, hna.trans hhc, ?_, ?_⟩
      · rw [hp, update_of_ne hac, update_self]
      · rw [hp, update_self]
      · refine hcl.congr hnl fun x hx => ?_
        have hxc : x ≠ c := fun e => (List.nodup_cons.mp hdl).1 (e ▸ hx)
        have hxa : x ≠ a := fun e => hla (e ▸ List.mem_cons_of_mem _ hx)
        rw [hp, update_of_ne hxc, update_of_ne hxa]
  · refine List.nodup_cons.mpr ⟨?_, List.nodup_cons.mpr ⟨hla, hdl⟩⟩
    rw [List.mem_cons, not_or]
    exact ⟨Ne.symm hah, hhl⟩

/-- **A node less**: the node before it and the one after it are linked to each other. -/
theorem unlink (hc : Circular next prev h l) (ha : a ∈ l)
    (hn : next' = update next (prev a) (next a))
    (hp : prev' = if next a = h then prev else update prev (next a) (prev a)) :
    Circular next' prev' h (l.erase a) := by
  obtain ⟨hpath, hd⟩ := hc
  obtain ⟨l₁, l₂, rfl⟩ := List.append_of_mem ha
  obtain ⟨h₁, hpa, h₂⟩ := hpath.split
  have hd' : ((h :: l₁) ++ a :: l₂).Nodup := hd
  obtain ⟨hd₁, hda, hdis⟩ := List.nodup_append.mp hd'
  have hal : a ∉ l₁ := fun e => hdis a (List.mem_cons_of_mem _ e) a (List.mem_cons_self ..) rfl
  rw [List.erase_append_right _ hal, List.erase_cons_head]
  refine ⟨?_, ?_⟩
  · -- up to the node before `a`, only that node's link has changed
    have hfront : ∀ b, next a = b → (b = h ∨ b ∈ l₂) → Strand next' prev' h l₁ b := by
      intro b hb hbm
      have hr : Strand (update next ((h :: l₁).getLast (List.cons_ne_nil _ _)) b) prev h l₁ b :=
        h₁.redirect hd₁
      rw [← hpa, ← hb] at hr
      rw [← hb]
      refine hr.congr (fun x _ => by rw [hn]) fun x hx => ?_
      rw [hp]
      split
      next => rfl
      next hne =>
        rw [update_of_ne]
        rintro rfl
        rcases hbm with e | e
        · exact hne (hb.trans e)
        · exact hdis _ (List.mem_cons_of_mem _ hx) _ (List.mem_cons_of_mem _ (hb ▸ e)) rfl
    cases l₂ with
    | nil =>
      rw [List.append_nil]
      exact hfront h h₂ (.inl rfl)
    | cons c l₂ =>
      obtain ⟨hac, hca, hcl⟩ := h₂
      have hch : c ≠ h := fun e => hdis h (List.mem_cons_self ..) c
        (List.mem_cons_of_mem _ (List.mem_cons_self ..)) e.symm
      rw [hac, if_neg hch] at hp
      have hlast : ∀ x ∈ c :: l₂, x ≠ prev a := by
        intro x hx e
        rw [hpa] at e
        exact hdis _ (List.getLast_mem _) _ (List.mem_cons_of_mem _ hx) e.symm
      refine (hfront c hac (.inr (List.mem_cons_self ..))).join ?_ (hcl.congr ?_ ?_)
      · rw [hp, update_self, hpa]
      · intro x hx
        rw [hn, update_of_ne (hlast x hx)]
      · intro x hx
        have hxc : x ≠ c := fun e => (List.nodup_cons.mp (List.nodup_cons.mp hda).2).1 (e ▸ hx)
        rw [hp, update_of_ne hxc]
  · exact hd.sublist (((List.sublist_cons_self ..).append_left l₁).cons_cons h)

end Circular
