import Mathlib

/-!
# Conversion of strings

`codecvt.cpp`: the conversions between UTF-8, UTF-16 and UTF-32. Each takes a character from the source as a 32-bit
value and puts it to the destination in the other format; between units of one size the string is copied.

* `get8`, `get16`, `get32` : the next character, with the number of units it takes;
* `put8`, `put16`, `put32` : the units of a character, and what is stored of them into the `dlen` units that are left;
* `cvtCstr` : the conversion of a string, the length it reports and what it stores where;
* `inside_iff` : it stores within the buffer unless a character begins in UTF-8 where the buffer has ended.

`des` says if there is a buffer. The source is the list of its units; a source that is null is the empty one.
-/

namespace ThothIpc.Codecvt

inductive Ufmt where
  | utf8
  | utf16
  | utf32
  deriving DecidableEq, Repr

abbrev Ufmt.bits : Ufmt → Nat
  | utf8 => 8
  | utf16 => 16
  | utf32 => 32

/-- Units stored, with their offsets. -/
abbrev Stores (g : Ufmt) := List (Nat × BitVec g.bits)

/-! ## Characters -/

/-- The loop over the units after the first, and what it makes of the character. -/
def more : Nat → List (BitVec 8) → Nat → Option Nat
  | 0, _, c => some c
  | _ + 1, [], _ => none
  | n + 1, b :: src, c =>
    if b.toNat < 0x80 ∨ 0xBF < b.toNat then none else more n src ((c <<< 6) + (b.toNat &&& 0x3F))

def get8 : List (BitVec 8) → Option (Nat × Nat)
  | [] => none
  | b :: src =>
    let b := b.toNat
    let long := fun len c => (more (len - 1) src c).map fun c => (len, c)
    if b = 0 then none
    else if b < 0x80 then some (1, b)
    else if b < 0xC0 ∨ 0xFD < b then none
    else if b < 0xE0 then long 2 (b &&& 0x1F)
    else if b < 0xF0 then long 3 (b &&& 0x0F)
    else if b < 0xF8 then long 4 (b &&& 0x07)
    else if b < 0xFC then long 5 (b &&& 0x03)
    else long 6 (b &&& 0x01)

def get16 : List (BitVec 16) → Option (Nat × Nat)
  | [] => none
  | w1 :: src =>
    let w1 := w1.toNat
    if w1 = 0 then none
    else if 0xD800 ≤ w1 ∧ w1 ≤ 0xDFFF then
      match src with
      | [] => none
      | w2 :: _ =>
        let w2 := w2.toNat
        if w1 < 0xDC00 ∧ 0xDC00 ≤ w2 ∧ w2 ≤ 0xDFFF then some (2, (w2 &&& 0x3FF) + (((w1 &&& 0x3FF) + 0x40) <<< 10))
        else none
    else some (1, w1)

/-- A unit of UTF-32, which is signed if it is a `wchar_t`. -/
def get32 (signed : Bool) : List (BitVec 32) → Option (Nat × Int)
  | [] => none
  | c :: _ => some (1, if signed then c.toInt else c.toNat)

/-- The loop that stores the units of a character from the last to the second, and what is left for the first. -/
def trail : Nat → Nat → Stores .utf8 × Nat
  | 0, src => ([], src)
  | i + 1, src =>
    let r := trail i (src >>> 6)
    ((i + 1, BitVec.ofNat 8 ((src &&& 0x3F) ||| 0x80)) :: r.1, r.2)

def lead : List Nat := [0x00, 0xC0, 0xE0, 0xF0, 0xF8, 0xFC]

def codeup : List Nat := [0x80, 0x800, 0x10000, 0x200000, 0x4000000, 0x80000000]

/-- The first unit is stored even if no unit is left. -/
def put8 (src : Nat) (des : Bool) (dlen : Nat) : Nat × Stores .utf8 :=
  let i := codeup.findIdx fun up => src < up
  if src = 0 ∨ i = codeup.length then (0, [])
  else
    let r := if i < dlen then trail i src else ([], src)
    (i + 1, if des then r.1 ++ [(0, BitVec.ofNat 8 (r.2 ||| lead.getD i 0))] else [])

def put16 (src : Int) (des : Bool) (dlen : Nat) : Nat × Stores .utf16 :=
  if src = 0 then (0, [])
  else if src ≤ 0xFFFF then (1, if des ∧ dlen ≠ 0 then [(0, BitVec.ofInt 16 src)] else [])
  else if src ≤ 0xEFFFF then
    let high := 0xD800 + (src.toNat >>> 10) - 0x40
    let low := 0xDC00 + (src.toNat &&& 0x3FF)
    (2, if des ∧ 1 < dlen then [(0, BitVec.ofNat 16 high), (1, BitVec.ofNat 16 low)] else [])
  else (0, [])

def put32 (src : Nat) (des : Bool) (dlen : Nat) : Nat × Stores .utf32 :=
  (1, if des ∧ 0 < dlen then [(0, BitVec.ofNat 32 src)] else [])

def get (signed : Bool) : (f : Ufmt) → List (BitVec f.bits) → Option (Nat × Int)
  | .utf8, src => (get8 src).map fun r => (r.1, r.2)
  | .utf16, src => (get16 src).map fun r => (r.1, r.2)
  | .utf32, src => get32 signed src

/-- UTF-8 and UTF-32 take the character as a `std::uint32_t`. -/
def put : (g : Ufmt) → Int → Bool → Nat → Nat × Stores g
  | .utf8, src, des, dlen => put8 (src % 2 ^ 32).toNat des dlen
  | .utf16, src, des, dlen => put16 src des dlen
  | .utf32, src, des, dlen => put32 (src % 2 ^ 32).toNat des dlen

/-! ## Strings -/

/-- The loops of `cvt_cstr_utf`; `off` is how far `des` has moved, not behind the buffer in the loop to UTF-32. -/
def loop (signed : Bool) (f g : Ufmt) (des : Bool) : Nat → List (BitVec f.bits) → (dlen off num : Nat) → Nat × Stores g
  | 0, _, _, _, num => (num, [])
  | fuel + 1, src, dlen, off, num =>
    if src.headD 0 = 0 then (num, [])
    else
      match get signed f src with
      | none => (0, [])
      | some (len, c) =>
        let w := put g c des dlen
        if w.1 = 0 then (0, [])
        else
          let r := loop signed f g des fuel (src.drop len) (dlen - w.1) (off + w.1) (num + w.1)
          (r.1, w.2.map (fun x => (off + x.1, x.2)) ++ r.2)

/-- Between units of one size. -/
def copy {w : Nat} (src : List (BitVec w)) (des : Bool) (dlen : Nat) : Nat × List (Nat × BitVec w) :=
  if ¬ des ∨ dlen = 0 then (src.length, [])
  else (min src.length dlen, (List.range (min src.length dlen)).map fun i => (i, src.getD i 0))

def cvtCstr (signed : Bool) : (f g : Ufmt) → List (BitVec f.bits) → Bool → Nat → Nat × Stores g
  | .utf8, .utf8, src, des, dlen => copy src des dlen
  | .utf16, .utf16, src, des, dlen => copy src des dlen
  | .utf32, .utf32, src, des, dlen => copy src des dlen
  | f, g, src, des, dlen => loop signed f g des src.length src dlen 0 0

/-- Where in the destination the characters begin. -/
def starts (signed : Bool) (f g : Ufmt) : Nat → List (BitVec f.bits) → Nat → List Nat
  | 0, _, _ => []
  | fuel + 1, src, off =>
    if src.headD 0 = 0 then []
    else
      match get signed f src with
      | none => []
      | some (len, c) =>
        let n := (put g c false 0).1
        if n = 0 then [] else off :: starts signed f g fuel (src.drop len) (off + n)

/-! ## Within the buffer -/

theorem trail_offset {i src : Nat} {x : Nat × BitVec 8} (hx : x ∈ (trail i src).1) : x.1 ≤ i := by
  induction i generalizing src with
  | zero => cases hx
  | succ i ih =>
    cases hx with
    | head => exact le_rfl
    | tail _ hx => exact (ih hx).trans (Nat.le_succ i)

theorem put_length (g : Ufmt) (c : Int) (des : Bool) (dlen : Nat) : (put g c des dlen).1 = (put g c false 0).1 := by
  cases g with
  | utf8 =>
    simp only [put, put8]
    split <;> rfl
  | utf16 =>
    simp only [put, put16]
    split
    · rfl
    · split
      · rfl
      · split <;> rfl
  | utf32 => rfl

theorem put_offset {g : Ufmt} {c : Int} {des : Bool} {dlen : Nat} {x : Nat × BitVec g.bits}
    (hx : x ∈ (put g c des dlen).2) : x.1 < dlen ∨ g = .utf8 ∧ des = true ∧ x.1 = 0 := by
  cases g with
  | utf8 =>
    simp only [put, put8] at hx
    split at hx
    · cases hx
    · cases des with
      | false => cases hx
      | true =>
        rw [if_pos rfl, List.mem_append] at hx
        obtain hx | hx := hx
        · split at hx
          · exact Or.inl (lt_of_le_of_lt (trail_offset hx) ‹_›)
          · cases hx
        · rw [List.mem_singleton] at hx
          exact Or.inr ⟨rfl, rfl, by rw [hx]⟩
  | utf16 =>
    simp only [put, put16] at hx
    split_ifs at hx with _ _ h1 _ h2
    · cases hx
    · rw [List.mem_singleton] at hx
      rw [hx]
      exact Or.inl (Nat.pos_of_ne_zero h1.2)
    · cases hx
    · simp only [List.mem_cons, List.not_mem_nil, or_false] at hx
      obtain rfl | rfl := hx
      · exact Or.inl (Nat.lt_of_succ_lt h2.2)
      · exact Or.inl h2.2
    · cases hx
    · cases hx
  | utf32 =>
    simp only [put, put32] at hx
    split at hx
    · rw [List.mem_singleton] at hx
      rw [hx]
      exact Or.inl (‹_ ∧ _›).2
    · cases hx

theorem put8_first {c : Int} (dlen : Nat) (h : (put .utf8 c true dlen).1 ≠ 0) :
    ∃ v, (0, v) ∈ (put .utf8 c true dlen).2 := by
  simp only [put, put8] at h ⊢
  split
  · rw [if_pos ‹_›] at h
    exact absurd rfl h
  · exact ⟨_, List.mem_append_right _ (List.mem_singleton_self _)⟩

/-- The stores of a loop that has come to `off` in a buffer of `n` units. -/
theorem loop_inside (signed : Bool) (f g : Ufmt) (des : Bool) (n fuel : Nat) (src : List (BitVec f.bits))
    (off num : Nat) :
    (∀ x ∈ (loop signed f g des fuel src (n - off) off num).2, x.1 < n) ↔
      (g = .utf8 → des = true → ∀ o ∈ starts signed f g fuel src off, o < n) := by
  induction fuel generalizing src off num with
  | zero => exact ⟨fun _ _ _ o ho => (by cases ho), fun _ x hx => (by cases hx)⟩
  | succ fuel ih =>
    simp only [loop, starts]
    split
    · exact ⟨fun _ _ _ o ho => (by cases ho), fun _ x hx => (by cases hx)⟩
    · cases get signed f src with
      | none => exact ⟨fun _ _ _ o ho => (by cases ho), fun _ x hx => (by cases hx)⟩
      | some r =>
        obtain ⟨len, c⟩ := r
        simp only [put_length g c des (n - off)]
        split
        · exact ⟨fun _ _ _ o ho => (by cases ho), fun _ x hx => (by cases hx)⟩
        · rename_i hlen
          have hrest := ih (src.drop len) (off + (put g c false 0).1) (num + (put g c false 0).1)
          rw [← Nat.sub_sub] at hrest
          simp only [List.mem_append, List.mem_map, List.mem_cons]
          constructor
          · rintro h hg hdes o (rfl | ho)
            · subst hg hdes
              obtain ⟨v, hv⟩ := put8_first (n - o) (by rwa [put_length])
              exact h (o + 0, v) (Or.inl ⟨_, hv, rfl⟩)
            · exact hrest.mp (fun x hx => h x (Or.inr hx)) hg hdes o ho
          · rintro h x (⟨y, hy, rfl⟩ | hx)
            · obtain hlt | ⟨hg, hdes, hzero⟩ := put_offset hy
              · exact Nat.add_lt_of_lt_sub' hlt
              · have hstart := h hg hdes off (Or.inl rfl)
                change off + y.1 < n
                rw [hzero]
                exact hstart
            · exact hrest.mpr (fun hg hdes o ho => h hg hdes o (Or.inr ho)) x hx

theorem copy_inside {w : Nat} {src : List (BitVec w)} {des : Bool} {dlen : Nat} {x : Nat × BitVec w}
    (hx : x ∈ (copy src des dlen).2) : x.1 < dlen := by
  unfold copy at hx
  split at hx
  · cases hx
  · obtain ⟨i, hi, rfl⟩ := List.mem_map.mp hx
    rw [List.mem_range] at hi
    exact lt_of_lt_of_le hi (Nat.min_le_right _ _)

/-- **Where the conversions store**: within the buffer if the units are of one size, the result is not UTF-8 or there is
no buffer; otherwise exactly if every character begins within it. -/
theorem inside_iff (signed : Bool) (f g : Ufmt) (src : List (BitVec f.bits)) (des : Bool) (dlen : Nat) :
    (∀ x ∈ (cvtCstr signed f g src des dlen).2, x.1 < dlen) ↔
      (f ≠ g → g = .utf8 → des = true → ∀ o ∈ starts signed f g src.length src 0, o < dlen) := by
  have hloop := loop_inside signed f g des dlen src.length src 0 0
  cases f <;> cases g
  case utf8.utf8 => exact ⟨fun _ hne => absurd rfl hne, fun _ x hx => copy_inside hx⟩
  case utf16.utf16 => exact ⟨fun _ hne => absurd rfl hne, fun _ x hx => copy_inside hx⟩
  case utf32.utf32 => exact ⟨fun _ hne => absurd rfl hne, fun _ x hx => copy_inside hx⟩
  all_goals
    rw [forall_prop_of_true (by decide)]
    exact hloop

/-- **A store behind the buffer**: two letters converted to UTF-8 into a buffer of one byte. -/
theorem store_outside : (1, 0x42) ∈ (cvtCstr false .utf32 .utf8 [0x41, 0x42] true 1).2 := by decide

end ThothIpc.Codecvt
