import ThothIpc.Lib.Bits

/-!
# One bit's marks on the ring

The ring as one connection bit sees it: the marks on the slots, how many positions have been stamped, the commit index,
and what the writers in the claim loop have loaded. A step of the channel does one of five things to it.

* `View` : that, with `View.load`, `View.stamp`, `View.store`, `View.unmark` : what a step can do;
* `Floor v b σ` : no mark of the bit is, or will be, on a position before `σ`;
* `Guard v b m` : every position from `m` on carries the bit's mark, and the ring is not lapped.
-/

namespace ThothIpc.Channel

/-- What a bit depends on. `loaded` is the connection mask a writer in the claim loop works from, and the commit index
it has loaded after it. -/
structure View (ω : Type) where
  marks : BitVec 8 → BitVec 32
  top : Nat
  index : Nat
  loaded : ω → Option (BitVec 32 × Option Nat)

variable {ω : Type}

namespace View

/-- The slot of position `p` carries the mark of bit `b`. -/
def Marked (v : View ω) (p b : Nat) : Prop := (v.marks (BitVec.ofNat 8 p)).getLsbD b = true

variable [DecidableEq ω]

/-- A writer loads, or leaves the claim loop. -/
def load (v : View ω) (w : ω) (x : Option (BitVec 32 × Option Nat)) : View ω :=
  { v with loaded := Function.update v.loaded w x }

def stamp (v : View ω) (w : ω) (cc : BitVec 32) : View ω :=
  { v.load w none with marks := Function.update v.marks (BitVec.ofNat 8 v.top) cc, top := v.top + 1 }

/-- The commit index moves on. -/
def store (v : View ω) : View ω := { v with index := v.index + 1 }

/-- A mark comes off. -/
def unmark (v : View ω) (x : BitVec 8) (bit : BitVec 32) : View ω :=
  { v with marks := Function.update v.marks x (v.marks x &&& ~~~bit) }

end View

/-- Bit `b` has been claimed after the commit index was `σ`: its marks are on positions from `σ` on. -/
structure Floor (v : View ω) (b σ : Nat) : Prop where
  le : σ ≤ v.index
  marks : ∀ p, p < v.top → v.top ≤ p + 256 → v.Marked p b → σ ≤ p
  loop : ∀ w cc ct, v.loaded w = some (cc, some ct) → cc.getLsbD b = true → σ ≤ ct

/-- The owner of bit `b` has still to read every position from `m` on, and each carries its mark. -/
structure Guard (v : View ω) (b m : Nat) : Prop where
  le : m ≤ v.top
  lap : v.top ≤ m + 256
  marks : ∀ p, m ≤ p → p < v.top → v.Marked p b

variable {v : View ω} {b m σ : Nat}

theorem ofNat_slot_ne {p q : Nat} (h : p < q) (hd : q < p + 256) : BitVec.ofNat 8 p ≠ BitVec.ofNat 8 q := by
  rw [ne_eq, Bits.ofNat_inj_close (by omega) (by omega)]
  omega

/-! ## Marks that come off -/

theorem View.marked_unmark_of {x : BitVec 8} {bit : BitVec 32} {p : Nat} (h : v.Marked p b)
    (hne : BitVec.ofNat 8 p ≠ x ∨ bit.getLsbD b = false) : (v.unmark x bit).Marked p b := by
  simp only [View.Marked, View.unmark, Function.update_apply] at h ⊢
  split
  · rename_i hx
    have hb : b < 32 := by
      by_contra hb
      rw [BitVec.getLsbD_of_ge _ _ (by omega)] at h
      cases h
    rw [← hx, BitVec.getLsbD_and, BitVec.getLsbD_not, h, hne.resolve_left (fun hn => hn hx)]
    simp [hb]
  · exact h

theorem Guard.unmark (h : Guard v b m) {x : BitVec 8} {bit : BitVec 32} (hb : bit.getLsbD b = false) :
    Guard (v.unmark x bit) b m :=
  ⟨h.le, h.lap, fun p h1 h2 => View.marked_unmark_of (h.marks p h1 h2) (Or.inr hb)⟩

theorem Guard.release (h : Guard v b m) {bit : BitVec 32} (hm : m < v.top) :
    Guard (v.unmark (BitVec.ofNat 8 m) bit) b (m + 1) := by
  have hlap := h.lap
  refine ⟨hm, by simp only [View.unmark]; omega, fun p h1 h2 => ?_⟩
  simp only [View.unmark] at h2
  exact View.marked_unmark_of (h.marks p (by omega) h2) (Or.inl (ofNat_slot_ne (by omega) (by omega)).symm)

/-! ## The writers -/

theorem Floor.store (h : Floor v b σ) : Floor v.store b σ := ⟨Nat.le_succ_of_le h.le, h.marks, h.loop⟩

theorem Guard.store (h : Guard v b m) : Guard v.store b m := ⟨h.le, h.lap, h.marks⟩

section Writer
variable [DecidableEq ω] {w : ω} {x : Option (BitVec 32 × Option Nat)} {cc : BitVec 32}

theorem Floor.load (h : Floor v b σ) (hx : ∀ cc ct, x = some (cc, some ct) → cc.getLsbD b = true → σ ≤ ct) :
    Floor (v.load w x) b σ := by
  refine ⟨h.le, h.marks, fun u cc ct hu hcc => ?_⟩
  simp only [View.load, Function.update_apply] at hu
  split at hu
  · exact hx cc ct hu hcc
  · exact h.loop u cc ct hu hcc

theorem Guard.load (h : Guard v b m) : Guard (v.load w x) b m := ⟨h.le, h.lap, h.marks⟩

theorem View.marked_stamp {p : Nat} (hp : p < v.top + 1) (hle : v.top + 1 ≤ p + 256) :
    (v.stamp w cc).Marked p b ↔ p = v.top ∧ cc.getLsbD b = true ∨ p < v.top ∧ v.Marked p b := by
  by_cases he : p = v.top
  · subst he
    simp [View.Marked, View.stamp]
  · have hlt : p < v.top := by omega
    have hne := ofNat_slot_ne hlt (by omega)
    simp [View.Marked, View.stamp, View.load, hne, he, hlt]

theorem Floor.stamp (h : Floor v b σ) (hcc : cc.getLsbD b = true → σ ≤ v.top) : Floor (v.stamp w cc) b σ := by
  refine ⟨h.le, fun p hp hle hm => ?_, (h.load (w := w) (x := none) nofun).loop⟩
  rcases (View.marked_stamp hp hle).mp hm with ⟨rfl, hb⟩ | ⟨hlt, hm⟩
  · exact hcc hb
  · simp only [View.stamp] at hle
    exact h.marks p hlt (by omega) hm

theorem Guard.stamp (h : Guard v b m) (hcc : cc.getLsbD b = true) (hfree : ¬v.Marked v.top b) :
    Guard (v.stamp w cc) b m := by
  have hle := h.le
  have hlap : v.top + 1 ≤ m + 256 := by
    have := h.lap
    by_contra hno
    -- the slot would be that of `m`
    have htop : v.top = m + 256 := by omega
    have hm := h.marks m (Nat.le_refl m) (by omega)
    refine hfree ?_
    rw [View.Marked] at hm ⊢
    rwa [htop, show BitVec.ofNat 8 (m + 256) = BitVec.ofNat 8 m from BitVec.eq_of_toNat_eq (by simp)]
  refine ⟨Nat.le_succ_of_le hle, hlap, fun p h1 h2 => ?_⟩
  simp only [View.stamp] at h2
  rw [View.marked_stamp h2 (by omega)]
  by_cases he : p = v.top
  · exact Or.inl ⟨he, hcc⟩
  · exact Or.inr ⟨by omega, h.marks p h1 (by omega)⟩

end Writer

/-! ## Adopting a cursor -/

/-- From the commit index on, if the position on the way to it has the bit. -/
theorem Guard.begin (h1 : v.index ≤ v.top) (h2 : v.top ≤ v.index + 1) (hm : v.top = v.index + 1 → v.Marked v.index b) :
    Guard v b v.index := by
  refine ⟨h1, by omega, fun p hp hlt => ?_⟩
  obtain rfl : p = v.index := by omega
  exact hm (by omega)

theorem Guard.back (h : Guard v b (m + 1)) (hm : v.Marked m b) (hlap : v.top ≤ m + 256) : Guard v b m := by
  have hle := h.le
  refine ⟨by omega, hlap, fun p h1 h2 => ?_⟩
  rcases Nat.eq_or_lt_of_le h1 with rfl | h1
  · exact hm
  · exact h.marks p h1 h2

end ThothIpc.Channel
