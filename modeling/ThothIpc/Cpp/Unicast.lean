import ThothIpc.Lib.Run

/-!
# The unicast ring of one writer and one reader

`prod_cons.h`, `prod_cons_impl<wr<single, single, unicast>>`: 256 elements, addressed by the low 8 bits of two 32-bit
indices. `push` fails if the element of the write index is the one before that of the read index, `pop` if the two are
one; otherwise they copy and add one to their index.

* `State.step` : the loads with their comparisons, the copies cell by cell in any order, the increments;
* `Inv` : the indices are the words of the numbers of elements pushed and popped, and the elements between are in place;
* `pops_in_order` : it is a queue of 255 elements.

`pushed` and `popped` are the elements whose call has returned true.
-/

namespace ThothIpc.Unicast
open Function Steps

abbrev Elem (n : Nat) (β : Type) := Fin n → β

def indexOf (c : BitVec 32) : BitVec 8 := c.setWidth 8

/-- `push`, with what it has loaded; `copy` has the cells that are copied. -/
inductive Push (n : Nat) (β : Type) where
  | idle
  | loadWt (x : Elem n β)
  | loadRd (x : Elem n β) (cur : BitVec 8)
  | copy (x : Elem n β) (cur : BitVec 8) (done : Fin n → Bool)
  | ret (ok : Bool)

/-- `pop`, with what it has loaded; `copy` has the caller's element, and which of its cells are copied. -/
inductive Pop (n : Nat) (β : Type) where
  | idle
  | loadRd (out : Elem n β)
  | loadWt (out : Elem n β) (cur : BitVec 8)
  | copy (out : Elem n β) (cur : BitVec 8) (done : Fin n → Bool)
  | ret (ok : Bool)

structure State (n : Nat) (β : Type) where
  rd : BitVec 32
  wt : BitVec 32
  elems : BitVec 8 → Elem n β
  push : Push n β
  pop : Pop n β
  pushed : List (Elem n β)
  popped : List (Elem n β)

/-- A call, the next load or increment of the call under way, or the copy of a cell. -/
inductive Act (n : Nat) (β : Type) where
  | push (x : Elem n β)
  | writer
  | fill (c : Fin n)
  | pop (out : Elem n β)
  | reader
  | drain (c : Fin n)

variable {n : Nat} {β : Type}

namespace State

/-- The indices of a new ring are 0; what its elements hold does not matter. -/
def fresh (elems : BitVec 8 → Elem n β) : State n β := ⟨0, 0, elems, .idle, .idle, [], []⟩

def writer (s : State n β) : Option (State n β) :=
  match s.push with
  | .loadWt x => some { s with push := .loadRd x (indexOf s.wt) }
  | .loadRd x cur =>
    some { s with push := if cur = indexOf (s.rd - 1) then .ret false else .copy x cur fun _ => false }
  | .copy x _ done =>
    if ∀ c, done c = true then some { s with wt := s.wt + 1, pushed := s.pushed ++ [x], push := .ret true } else none
  | _ => none

def reader (s : State n β) : Option (State n β) :=
  match s.pop with
  | .loadRd out => some { s with pop := .loadWt out (indexOf s.rd) }
  | .loadWt out cur => some { s with pop := if cur = indexOf s.wt then .ret false else .copy out cur fun _ => false }
  | .copy out _ done =>
    if ∀ c, done c = true then some { s with rd := s.rd + 1, popped := s.popped ++ [out], pop := .ret true } else none
  | _ => none

def step (s : State n β) (a : Act n β) : Option (State n β) :=
  match a, s.push, s.pop with
  | .push x, .idle, _ => some { s with push := .loadWt x }
  | .push x, .ret _, _ => some { s with push := .loadWt x }
  | .writer, _, _ => s.writer
  | .fill c, .copy x cur done, _ =>
    some { s with
      elems := update s.elems cur (update (s.elems cur) c (x c))
      push := .copy x cur (update done c true) }
  | .pop out, _, .idle => some { s with pop := .loadRd out }
  | .pop out, _, .ret _ => some { s with pop := .loadRd out }
  | .reader, _, _ => s.reader
  | .drain c, _, .copy out cur done =>
    some { s with pop := .copy (update out c (s.elems cur c)) cur (update done c true) }
  | _, _, _ => none

end State

/-! ## Indices -/

/-- The element of position `p`. -/
def place (p : Nat) : BitVec 8 := indexOf (BitVec.ofNat 32 p)

theorem place_toNat (p : Nat) : (place p).toNat = p % 256 := by
  rw [place, indexOf, BitVec.toNat_setWidth, BitVec.toNat_ofNat]
  exact Nat.mod_mod_of_dvd p (by decide)

theorem place_ne {p q : Nat} (hlt : p < q) (hle : q < p + 256) : place p ≠ place q := by
  intro h
  have hmod := congrArg BitVec.toNat h
  rw [place_toNat, place_toNat] at hmod
  omega

theorem indexOf_pred (p : Nat) : indexOf (BitVec.ofNat 32 p - 1) = place (p + 255) := by
  apply BitVec.eq_of_toNat_eq
  have hone : (1 : BitVec 32).toNat = 1 := rfl
  rw [place_toNat, indexOf, BitVec.toNat_setWidth, BitVec.toNat_sub, BitVec.toNat_ofNat, hone]
  omega

theorem ofNat_succ (p : Nat) : BitVec.ofNat 32 p + 1 = BitVec.ofNat 32 (p + 1) := (BitVec.ofNat_add p 1).symm

/-! ## The invariant -/

/-- What `push` has loaded is current, there is room for its copy, and the copied cells are in place. -/
def PushOk (s : State n β) : Prop :=
  match s.push with
  | .loadRd _ cur => cur = place s.pushed.length
  | .copy x cur done => cur = place s.pushed.length ∧ s.pushed.length < s.popped.length + 255 ∧
      ∀ c, done c = true → s.elems cur c = x c
  | _ => True

/-- What `pop` has loaded is current, there is an element to read, and the copied cells are its. -/
def PopOk (s : State n β) : Prop :=
  match s.pop with
  | .loadWt _ cur => cur = place s.popped.length
  | .copy out cur done => cur = place s.popped.length ∧
      ∃ x, s.pushed[s.popped.length]? = some x ∧ ∀ c, done c = true → out c = x c
  | _ => True

structure Inv (s : State n β) : Prop where
  wt : s.wt = BitVec.ofNat 32 s.pushed.length
  rd : s.rd = BitVec.ofNat 32 s.popped.length
  front : s.popped <+: s.pushed
  room : s.pushed.length ≤ s.popped.length + 255
  unread : ∀ p x, s.popped.length ≤ p → s.pushed[p]? = some x → s.elems (place p) = x
  push : PushOk s
  pop : PopOk s

namespace Inv

variable {s s' : State n β}

theorem fresh (elems : BitVec 8 → Elem n β) : Inv (State.fresh elems) :=
  ⟨rfl, rfl, List.prefix_refl _, Nat.zero_le _, fun p x _ h => by simp [State.fresh] at h, trivial, trivial⟩

theorem full (h : Inv s) (hf : place s.pushed.length = indexOf (s.rd - 1)) :
    s.pushed.length = s.popped.length + 255 := by
  have hroom := h.room
  have hle := h.front.length_le
  rw [h.rd, indexOf_pred] at hf
  by_contra hne
  exact place_ne (by omega) (by omega) hf

theorem empty (h : Inv s) (he : place s.popped.length = indexOf s.wt) : s.pushed.length = s.popped.length := by
  have hroom := h.room
  have hle := h.front.length_le
  rw [h.wt] at he
  by_contra hne
  exact place_ne (by omega) (by omega) he

theorem pushed (h : Inv s) {x : Elem n β} {cur : BitVec 8} {done : Fin n → Bool} (hp : s.push = .copy x cur done)
    (hall : ∀ c, done c = true) : Inv { s with wt := s.wt + 1, pushed := s.pushed ++ [x], push := .ret true } := by
  have hpush := h.push
  have hle := h.front.length_le
  rw [PushOk, hp] at hpush
  obtain ⟨rfl, hlt, hcells⟩ := hpush
  refine ⟨?_, h.rd, h.front.trans (List.prefix_append _ _), ?_, fun p y hge hy => ?_, trivial, ?_⟩
  · change s.wt + 1 = _
    rw [h.wt, ofNat_succ, List.length_append, List.length_singleton]
  · simp only [List.length_append, List.length_singleton]
    omega
  · change (s.pushed ++ [x])[p]? = some y at hy
    by_cases hp : p < s.pushed.length
    · rw [List.getElem?_append_left hp] at hy
      exact h.unread p y hge hy
    · rw [List.getElem?_append_right (by omega), List.getElem?_singleton] at hy
      split at hy
      · obtain rfl := Option.some.inj hy
        obtain rfl : p = s.pushed.length := by omega
        exact funext fun c => hcells c (hall c)
      · cases hy
  · have hpop := h.pop
    unfold PopOk at hpop ⊢
    dsimp only
    split at hpop
    · exact hpop
    · obtain ⟨hcur, y, hy, hcells⟩ := hpop
      obtain ⟨hlt, -⟩ := List.getElem?_eq_some_iff.mp hy
      exact ⟨hcur, y, by rw [List.getElem?_append_left hlt, hy], hcells⟩
    · trivial

theorem fill (h : Inv s) {x : Elem n β} {cur : BitVec 8} {done : Fin n → Bool} (hp : s.push = .copy x cur done)
    (c : Fin n) : Inv { s with
      elems := update s.elems cur (update (s.elems cur) c (x c))
      push := .copy x cur (update done c true) } := by
  have hpush := h.push
  have hle := h.front.length_le
  rw [PushOk, hp] at hpush
  obtain ⟨rfl, hlt, hcells⟩ := hpush
  refine ⟨h.wt, h.rd, h.front, h.room, fun p y hge hy => ?_, ⟨rfl, hlt, fun d hd => ?_⟩, h.pop⟩
  · obtain ⟨hplt, -⟩ := List.getElem?_eq_some_iff.mp hy
    change s.popped.length ≤ p at hge
    have hne : place p ≠ place s.pushed.length := place_ne hplt (by omega)
    change update s.elems _ _ (place p) = y
    rw [update_of_ne hne]
    exact h.unread p y hge hy
  · change update s.elems _ _ _ d = x d
    rw [update_self]
    obtain ⟨rfl, -⟩ | ⟨hne, hd⟩ := update_cases (P := (· = true)) hd
    · rw [update_self]
    · rw [update_of_ne hne]
      exact hcells d hd

theorem popped (h : Inv s) {out : Elem n β} {cur : BitVec 8} {done : Fin n → Bool} (hp : s.pop = .copy out cur done)
    (hall : ∀ c, done c = true) : Inv { s with rd := s.rd + 1, popped := s.popped ++ [out], pop := .ret true } := by
  have hpop := h.pop
  rw [PopOk, hp] at hpop
  obtain ⟨rfl, x, hx, hcells⟩ := hpop
  obtain rfl : out = x := funext fun c => hcells c (hall c)
  obtain ⟨hlt, hget⟩ := List.getElem?_eq_some_iff.mp hx
  have hroom := h.room
  refine ⟨h.wt, ?_, ?_, ?_, fun p y hge hy => ?_, ?_, trivial⟩
  · change s.rd + 1 = _
    rw [h.rd, ofNat_succ, List.length_append, List.length_singleton]
  · have htake : s.popped ++ [out] = s.pushed.take (s.popped.length + 1) := by
      rw [List.take_add_one, hx, ← List.prefix_iff_eq_take.mp h.front]
      rfl
    change s.popped ++ [out] <+: s.pushed
    rw [htake]
    exact List.take_prefix _ _
  · simp only [List.length_append, List.length_singleton]
    omega
  · simp only [List.length_append, List.length_singleton] at hge
    exact h.unread p y (by omega) hy
  · have hpush := h.push
    unfold PushOk at hpush ⊢
    dsimp only
    split at hpush
    · exact hpush
    · obtain ⟨hcur, hlt, hcells⟩ := hpush
      refine ⟨hcur, ?_, hcells⟩
      rw [List.length_append, List.length_singleton]
      omega
    · trivial

theorem drain (h : Inv s) {out : Elem n β} {cur : BitVec 8} {done : Fin n → Bool} (hp : s.pop = .copy out cur done)
    (c : Fin n) :
    Inv { s with pop := .copy (update out c (s.elems cur c)) cur (update done c true) } := by
  have hpop := h.pop
  rw [PopOk, hp] at hpop
  obtain ⟨rfl, x, hx, hcells⟩ := hpop
  refine ⟨h.wt, h.rd, h.front, h.room, h.unread, h.push, rfl, x, hx, fun d hd => ?_⟩
  obtain ⟨rfl, -⟩ | ⟨hne, hd⟩ := update_cases (P := (· = true)) hd
  · rw [update_self, h.unread _ x le_rfl hx]
  · rw [update_of_ne hne]
    exact hcells d hd

theorem writer (h : Inv s) (hs : s.writer = some s') : Inv s' := by
  have hpush := h.push
  unfold State.writer at hs
  split at hs
  · cases hs
    exact { h with push := congrArg indexOf h.wt }
  · rename_i x cur hp
    cases hs
    rw [PushOk, hp] at hpush
    subst hpush
    refine { h with push := ?_ }
    unfold PushOk
    dsimp only
    by_cases hf : place s.pushed.length = indexOf (s.rd - 1)
    · rw [if_pos hf]
      trivial
    · rw [if_neg hf]
      refine ⟨rfl, lt_of_le_of_ne h.room fun he => hf ?_, fun _ hc => by cases hc⟩
      rw [h.rd, indexOf_pred, he]
  · rename_i hp
    split at hs
    · rename_i hall
      cases hs
      exact h.pushed hp hall
    · cases hs
  · cases hs

theorem reader (h : Inv s) (hs : s.reader = some s') : Inv s' := by
  have hpop := h.pop
  unfold State.reader at hs
  split at hs
  · cases hs
    exact { h with pop := congrArg indexOf h.rd }
  · rename_i out cur hp
    cases hs
    rw [PopOk, hp] at hpop
    subst hpop
    refine { h with pop := ?_ }
    unfold PopOk
    dsimp only
    by_cases he : place s.popped.length = indexOf s.wt
    · rw [if_pos he]
      trivial
    · rw [if_neg he]
      have hne : s.popped.length ≠ s.pushed.length := fun hl => he (by rw [h.wt, hl]; rfl)
      have hlt : s.popped.length < s.pushed.length := lt_of_le_of_ne h.front.length_le hne
      exact ⟨rfl, _, List.getElem?_eq_getElem hlt, fun _ hc => by cases hc⟩
  · rename_i hp
    split at hs
    · rename_i hall
      cases hs
      exact h.popped hp hall
    · cases hs
  · cases hs

theorem step (h : Inv s) {a : Act n β} (hs : s.step a = some s') : Inv s' := by
  unfold State.step at hs
  split at hs
  · cases hs
    exact { h with push := trivial }
  · cases hs
    exact { h with push := trivial }
  · exact h.writer hs
  · rename_i hp
    cases hs
    exact h.fill hp _
  · cases hs
    exact { h with pop := trivial }
  · cases hs
    exact { h with pop := trivial }
  · exact h.reader hs
  · rename_i hp
    cases hs
    exact h.drain hp _
  · cases hs

end Inv

theorem writer_fails {s s' : State n β} (hs : s.writer = some s') (hret : s'.push = .ret false) :
    ∃ x, s.push = .loadRd x (indexOf (s.rd - 1)) := by
  unfold State.writer at hs
  split at hs
  · cases hs
    cases hret
  · rename_i x cur hp
    cases hs
    dsimp only at hret
    split at hret
    · rename_i hf
      exact ⟨x, hf ▸ hp⟩
    · cases hret
  · split at hs
    · cases hs
      cases hret
    · cases hs
  · cases hs

theorem reader_fails {s s' : State n β} (hs : s.reader = some s') (hret : s'.pop = .ret false) :
    ∃ out, s.pop = .loadWt out (indexOf s.wt) := by
  unfold State.reader at hs
  split at hs
  · cases hs
    cases hret
  · rename_i out cur hp
    cases hs
    dsimp only at hret
    split at hret
    · rename_i he
      exact ⟨out, he ▸ hp⟩
    · cases hret
  · split at hs
    · cases hs
      cases hret
    · cases hs
  · cases hs

/-- **The ring is a queue of 255 elements.** What is popped is a prefix of what is pushed, at most 255 are unread, and a
`push` or `pop` that fails has found 255 unread or none. -/
theorem pops_in_order {elems : BitVec 8 → Elem n β} {acts : List (Act n β)} {s : State n β}
    (h : Run State.step (fun _ _ => True) (State.fresh elems) acts s) :
    s.popped <+: s.pushed ∧ s.pushed.length ≤ s.popped.length + 255 ∧
    (∀ s', s.step .writer = some s' → s'.push = .ret false → s.pushed.length = s.popped.length + 255) ∧
    ∀ s', s.step .reader = some s' → s'.pop = .ret false → s.pushed.length = s.popped.length := by
  have hinv : Inv s := h.inv Inv (Inv.fresh elems) fun _ _ _ hi _ hs => hi.step hs
  refine ⟨hinv.front, hinv.room, fun s' hs hret => ?_, fun s' hs hret => ?_⟩
  · obtain ⟨x, hp⟩ := writer_fails hs hret
    have hpush := hinv.push
    rw [PushOk, hp] at hpush
    exact hinv.full hpush.symm
  · obtain ⟨out, hp⟩ := reader_fails hs hret
    have hpop := hinv.pop
    rw [PopOk, hp] at hpop
    exact hinv.empty hpop.symm

theorem pops_in_order_two : ∃ (acts : List (Act 2 Nat)) (s : State 2 Nat),
    Run State.step (fun _ _ => True) (State.fresh fun _ _ => 0) acts s ∧ s.popped.map List.ofFn = [[7, 8]] ∧
      s.popped <+: s.pushed := by
  refine ⟨[.push ![7, 8], .writer, .writer, .fill 1, .fill 0, .writer, .pop ![0, 0], .reader, .reader, .drain 0,
    .drain 1, .reader], ?_⟩
  exact exists_run_imp (fun s => s.popped.map List.ofFn = [[7, 8]]) (by decide)
    fun s hrun hs => ⟨hs, (pops_in_order hrun).1⟩

end ThothIpc.Unicast
