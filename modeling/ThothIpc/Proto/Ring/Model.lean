import ThothIpc.Lib.Run

/-!
# The ring of one producer and one consumer

`shm_ring.rs` and `shm_ring.h`. The producer copies its item into the slot of the write index and adds one to that
index; if the ring is full, `write` fails and `write_overwrite` first adds one to the read index it has loaded. The
consumer copies the slot of the read index out and adds one to that index.

* `State.step` : the loads, the copies cell by cell in any order, the stores; `Does` has its cases;
* `apart` : the producer does not set the read index back, it copies into no cell that the consumer is still to read,
  and the consumer adds one to the read index only below the write index;
* `Inv` : what every step under `apart` preserves, `Inv.step`.

The capacity is `2 ^ k`, an item is `m` cells. The indices are counted without bound, and the words the code compares
are their remainders modulo `2 ^ 64`. `wrote` has the items in the order of their positions, `got` what was read and
from which position.
-/

namespace ThothIpc.ShmRing
open Function Steps

/-! ## The accesses -/

abbrev Item (m : Nat) (β : Type) := Fin m → β

/-- `write` and `write_overwrite` (`ov`), with what they have loaded. `drop` is about to store the read index, `copy`
has the cells that are copied. -/
inductive Producer (m : Nat) (β : Type) where
  | idle
  | loadW (x : Item m β) (ov : Bool)
  | loadR (x : Item m β) (ov : Bool) (w : Nat)
  | drop (x : Item m β) (w r : Nat)
  | copy (x : Item m β) (w : Nat) (done : Fin m → Bool)
  | ret (ok : Bool)

/-- `read`, with what it has loaded. `copy` has the caller's item, and which of its cells are copied. -/
inductive Consumer (m : Nat) (β : Type) where
  | idle
  | loadR (out : Item m β)
  | loadW (out : Item m β) (r : Nat)
  | copy (out : Item m β) (r : Nat) (done : Fin m → Bool)
  | ret (ok : Bool)

structure State (m : Nat) (β : Type) where
  writeIdx : Nat
  readIdx : Nat
  slots : Nat → Item m β
  prod : Producer m β
  cons : Consumer m β
  wrote : List (Item m β)
  got : List (Nat × Item m β)

/-- A call, the next load or store of one side, or the copy of one cell. -/
inductive Act (m : Nat) (β : Type) where
  | write (x : Item m β)
  | overwrite (x : Item m β)
  | producer
  | fill (c : Fin m)
  | read (out : Item m β)
  | consumer
  | drain (c : Fin m)

/-- What an index is in memory. -/
def word (idx : Nat) : BitVec 64 := BitVec.ofNat 64 idx

/-- The slot of an index, in a ring of capacity `2 ^ k`. -/
def slot (k idx : Nat) : Nat := (word idx &&& BitVec.ofNat 64 (2 ^ k - 1)).toNat

variable {m : Nat} {β : Type}

/-- No call is under way. -/
def Producer.free : Producer m β → Bool
  | idle => true
  | ret _ => true
  | _ => false

/-- No call is under way. -/
def Consumer.free : Consumer m β → Bool
  | idle => true
  | ret _ => true
  | _ => false

namespace State

/-- A ring just constructed, over any contents of the slots. -/
def fresh (slots : Nat → Item m β) : State m β := ⟨0, 0, slots, .idle, .idle, [], []⟩

def setCell (s : State m β) (i : Nat) (c : Fin m) (v : β) : State m β :=
  { s with slots := update s.slots i (update (s.slots i) c v) }

variable (k : Nat)

def stepProducer (s : State m β) : Option (State m β) :=
  match s.prod with
  | .loadW x ov => some { s with prod := .loadR x ov s.writeIdx }
  | .loadR x ov w =>
    -- the load and the comparison; a full ring ends `write`
    if 2 ^ k ≤ (word w - word s.readIdx).toNat then
      some { s with prod := if ov then .drop x w s.readIdx else .ret false }
    else some { s with prod := .copy x w fun _ => false }
  | .drop x w r => some { s with readIdx := r + 1, prod := .copy x w fun _ => false }
  | .copy x _ done =>
    if ∀ c, done c = true then
      some { s with writeIdx := s.writeIdx + 1, wrote := s.wrote ++ [x], prod := .ret true }
    else none
  | _ => none

def stepConsumer (s : State m β) : Option (State m β) :=
  match s.cons with
  | .loadR out => some { s with cons := .loadW out s.readIdx }
  | .loadW out r =>
    -- the words are compared as numbers
    some { s with cons := if word s.writeIdx ≤ word r then .ret false else .copy out r fun _ => false }
  | .copy out r done =>
    if ∀ c, done c = true then
      some { s with readIdx := s.readIdx + 1, got := s.got ++ [(r, out)], cons := .ret true }
    else none
  | _ => none

def step (s : State m β) (a : Act m β) : Option (State m β) :=
  match a with
  | .write x => if s.prod.free then some { s with prod := .loadW x false } else none
  | .overwrite x => if s.prod.free then some { s with prod := .loadW x true } else none
  | .producer => s.stepProducer k
  | .fill c =>
    match s.prod with
    | .copy x w done =>
      if done c then none
      else some { s.setCell (slot k w) c (x c) with prod := .copy x w (update done c true) }
    | _ => none
  | .read out => if s.cons.free then some { s with cons := .loadR out } else none
  | .consumer => s.stepConsumer
  | .drain c =>
    match s.cons with
    | .copy out r done =>
      if done c then none
      else some { s with
        cons := .copy (update out c (s.slots (slot k r) c)) r (update done c true) }
    | _ => none

end State

/-! ## What a step can do -/

/-- The steps, each with what it needs and where it leads. -/
inductive Does (k : Nat) (s : State m β) : Act m β → State m β → Prop
  | write (x : Item m β) : s.prod.free = true → Does k s (.write x) { s with prod := .loadW x false }
  | overwrite (x : Item m β) : s.prod.free = true → Does k s (.overwrite x) { s with prod := .loadW x true }
  | loadW {x : Item m β} {ov : Bool} : s.prod = .loadW x ov →
      Does k s .producer { s with prod := .loadR x ov s.writeIdx }
  | full {x : Item m β} {w : Nat} : s.prod = .loadR x false w → 2 ^ k ≤ (word w - word s.readIdx).toNat →
      Does k s .producer { s with prod := .ret false }
  | oldest {x : Item m β} {w : Nat} : s.prod = .loadR x true w → 2 ^ k ≤ (word w - word s.readIdx).toNat →
      Does k s .producer { s with prod := .drop x w s.readIdx }
  | room {x : Item m β} {ov : Bool} {w : Nat} : s.prod = .loadR x ov w → (word w - word s.readIdx).toNat < 2 ^ k →
      Does k s .producer { s with prod := .copy x w fun _ => false }
  | drop {x : Item m β} {w r : Nat} : s.prod = .drop x w r →
      Does k s .producer { s with readIdx := r + 1, prod := .copy x w fun _ => false }
  | fill {x : Item m β} {w : Nat} {done : Fin m → Bool} {c : Fin m} : s.prod = .copy x w done → done c = false →
      Does k s (.fill c) { s.setCell (slot k w) c (x c) with prod := .copy x w (update done c true) }
  | publish {x : Item m β} {w : Nat} {done : Fin m → Bool} : s.prod = .copy x w done → (∀ c, done c = true) →
      Does k s .producer { s with writeIdx := s.writeIdx + 1, wrote := s.wrote ++ [x], prod := .ret true }
  | read (out : Item m β) : s.cons.free = true → Does k s (.read out) { s with cons := .loadR out }
  | loadR {out : Item m β} : s.cons = .loadR out → Does k s .consumer { s with cons := .loadW out s.readIdx }
  | empty {out : Item m β} {r : Nat} : s.cons = .loadW out r → word s.writeIdx ≤ word r →
      Does k s .consumer { s with cons := .ret false }
  | item {out : Item m β} {r : Nat} : s.cons = .loadW out r → ¬word s.writeIdx ≤ word r →
      Does k s .consumer { s with cons := .copy out r fun _ => false }
  | drain {out : Item m β} {r : Nat} {done : Fin m → Bool} {c : Fin m} : s.cons = .copy out r done → done c = false →
      Does k s (.drain c) { s with
        cons := .copy (update out c (s.slots (slot k r) c)) r (update done c true) }
  | consume {out : Item m β} {r : Nat} {done : Fin m → Bool} : s.cons = .copy out r done → (∀ c, done c = true) →
      Does k s .consumer { s with readIdx := s.readIdx + 1, got := s.got ++ [(r, out)], cons := .ret true }

theorem State.does_producer {k : Nat} {s s' : State m β} (hs : s.stepProducer k = some s') : Does k s .producer s' := by
  unfold stepProducer at hs
  split at hs
  case h_1 x ov hp =>
    cases hs
    exact .loadW hp
  case h_2 x ov w hp =>
    split at hs
    · rename_i hfull
      cases hs
      cases ov with
      | true => exact .oldest hp hfull
      | false => exact .full hp hfull
    · rename_i hroom
      cases hs
      exact .room hp (Nat.lt_of_not_le hroom)
  case h_3 x w r hp =>
    cases hs
    exact .drop hp
  case h_4 x w done hp =>
    split at hs
    · rename_i hall
      cases hs
      exact .publish hp hall
    · cases hs
  case h_5 => cases hs

theorem State.does_consumer {k : Nat} {s s' : State m β} (hs : s.stepConsumer = some s') : Does k s .consumer s' := by
  unfold stepConsumer at hs
  split at hs
  case h_1 out hc =>
    cases hs
    exact .loadR hc
  case h_2 out r hc =>
    cases hs
    split
    · rename_i hw
      exact .empty hc hw
    · rename_i hw
      exact .item hc hw
  case h_3 out r done hc =>
    split at hs
    · rename_i hall
      cases hs
      exact .consume hc hall
    · cases hs
  case h_4 => cases hs

theorem State.does_step {k : Nat} {s s' : State m β} {a : Act m β} (hs : s.step k a = some s') : Does k s a s' := by
  unfold step at hs
  split at hs
  case h_1 x =>
    split at hs
    · rename_i hf
      cases hs
      exact .write x hf
    · cases hs
  case h_2 x =>
    split at hs
    · rename_i hf
      cases hs
      exact .overwrite x hf
    · cases hs
  case h_3 => exact does_producer hs
  case h_4 c =>
    split at hs
    · rename_i x w done hp
      split at hs
      · cases hs
      · rename_i hd
        cases hs
        exact .fill hp (Bool.eq_false_iff.mpr hd)
    · cases hs
  case h_5 out =>
    split at hs
    · rename_i hf
      cases hs
      exact .read out hf
    · cases hs
  case h_6 => exact does_consumer hs
  case h_7 c =>
    split at hs
    · rename_i out r done hc
      split at hs
      · cases hs
      · rename_i hd
        cases hs
        exact .drain hc (Bool.eq_false_iff.mpr hd)
    · cases hs

theorem Does.step {k : Nat} {s s' : State m β} {a : Act m β} (h : Does k s a s') : s.step k a = some s' := by
  cases h with
  | write x hf => exact if_pos hf
  | overwrite x hf => exact if_pos hf
  | loadW hp => simp only [State.step, State.stepProducer, hp]
  | full hp hfull => simp only [State.step, State.stepProducer, hp, if_pos hfull, Bool.false_eq_true, if_false]
  | oldest hp hfull => simp only [State.step, State.stepProducer, hp, if_pos hfull, if_true]
  | room hp hroom => simp only [State.step, State.stepProducer, hp, if_neg (Nat.not_le_of_lt hroom)]
  | drop hp => simp only [State.step, State.stepProducer, hp]
  | fill hp hd => simp only [State.step, hp, hd, Bool.false_eq_true, if_false]
  | publish hp hall => simp only [State.step, State.stepProducer, hp, if_pos hall]
  | read out hf => exact if_pos hf
  | loadR hc => simp only [State.step, State.stepConsumer, hc]
  | empty hc hw => simp only [State.step, State.stepConsumer, hc, if_pos hw]
  | item hc hw => simp only [State.step, State.stepConsumer, hc, if_neg hw]
  | drain hc hd => simp only [State.step, hc, hd, Bool.false_eq_true, if_false]
  | consume hc hall => simp only [State.step, State.stepConsumer, hc, if_pos hall]

/-! ## Staying apart -/

/-- The read index that the producer has loaded and is about to store the successor of. -/
def Producer.drops : Producer m β → Option Nat
  | drop _ _ r => some r
  | _ => none

/-- The position that the producer is copying to. -/
def Producer.fills : Producer m β → Option Nat
  | copy _ w _ => some w
  | _ => none

/-- The position whose cell `c` the consumer has yet to copy. -/
def Consumer.pending (c : Fin m) : Consumer m β → Option Nat
  | loadW _ r => some r
  | copy _ r done => if done c then none else some r
  | _ => none

def Consumer.copying : Consumer m β → Bool
  | copy _ _ _ => true
  | _ => false

/-- The producer's store of the read index does not set it back. The producer copies into no cell that the consumer has
yet to copy for an earlier position. In a ring of one slot, the consumer adds one to a read index below the write index.
-/
def apart (k : Nat) (s : State m β) : Act m β → Prop
  | .producer => ∀ r ∈ s.prod.drops, s.readIdx ≤ r + 1
  | .fill c => ∀ w ∈ s.prod.fills, ∀ r ∈ s.cons.pending c, r < w → slot k r ≠ slot k w
  | .consumer => s.cons.copying = true → 0 < k ∨ s.readIdx < s.writeIdx
  | _ => True

instance (k : Nat) (s : State m β) : (a : Act m β) → Decidable (apart k s a)
  | .producer => inferInstanceAs (Decidable (∀ r ∈ s.prod.drops, s.readIdx ≤ r + 1))
  | .fill c => inferInstanceAs (Decidable (∀ w ∈ s.prod.fills, ∀ r ∈ s.cons.pending c, r < w → slot k r ≠ slot k w))
  | .consumer => inferInstanceAs (Decidable (s.cons.copying = true → 0 < k ∨ s.readIdx < s.writeIdx))
  | .write _ => inferInstanceAs (Decidable True)
  | .overwrite _ => inferInstanceAs (Decidable True)
  | .read _ => inferInstanceAs (Decidable True)
  | .drain _ => inferInstanceAs (Decidable True)

/-! ## Words and slots -/

theorem slot_eq {k : Nat} (hk : k < 64) (idx : Nat) : slot k idx = idx % 2 ^ k := by
  have hpow : 2 ^ k < 2 ^ 64 := Nat.pow_lt_pow_right (by norm_num) hk
  rw [slot, word, BitVec.toNat_and, BitVec.toNat_ofNat, BitVec.toNat_ofNat,
    Nat.mod_eq_of_lt (by omega : 2 ^ k - 1 < 2 ^ 64),
    Nat.and_two_pow_sub_one_eq_mod, Nat.mod_mod_of_dvd _ (Nat.pow_dvd_pow 2 hk.le)]

theorem slot_ne {k p q : Nat} (hk : k < 64) (hlt : p < q) (hle : q < p + 2 ^ k) : slot k p ≠ slot k q := by
  rw [slot_eq hk, slot_eq hk]
  intro h
  have hdvd : 2 ^ k ∣ q - p := (Nat.modEq_iff_dvd' hlt.le).mp h
  have := Nat.le_of_dvd (by omega) hdvd
  omega

theorem word_sub {k w r : Nat} (hk : k < 64) (hle : r ≤ w) (hfit : w ≤ r + 2 ^ k) : (word w - word r).toNat = w - r := by
  have hpow : 2 ^ k < 2 ^ 64 := Nat.pow_lt_pow_right (by norm_num) hk
  rw [word, word, BitVec.toNat_sub, BitVec.toNat_ofNat, BitVec.toNat_ofNat]
  omega

namespace State

theorem setCell_slots (s : State m β) (i : Nat) (c : Fin m) (v : β) (j : Nat) (d : Fin m) :
    (s.setCell i c v).slots j d = if j = i ∧ d = c then v else s.slots j d := by
  simp only [setCell, update_apply]
  split
  · rename_i h
    subst h
    simp only [update_apply, true_and]
  · rename_i h
    rw [if_neg fun hc => h hc.1]

theorem setCell_slots_ne (s : State m β) {i j : Nat} (c : Fin m) (v : β) (h : j ≠ i) :
    (s.setCell i c v).slots j = s.slots j := by
  funext d
  rw [setCell_slots, if_neg fun hc => h hc.1]

end State

/-! ## The invariant -/

/-- What the producer has loaded is current, there is room for its copy, and the copied cells are in the slot. -/
def Producer.Ok (k : Nat) (s : State m β) : Producer m β → Prop
  | loadR _ _ w => w = s.writeIdx
  | drop _ w r => w = s.writeIdx ∧ s.writeIdx = r + 2 ^ k
  | copy x w done => w = s.writeIdx ∧ s.writeIdx < s.readIdx + 2 ^ k ∧ ∀ c, done c = true → s.slots (slot k w) c = x c
  | _ => True

/-- The item at the position that the consumer has loaded is in its slot, or in the cells that are copied. The read
index is still the one loaded, or the producer has stored it. -/
def Consumer.Ok (k : Nat) (s : State m β) : Consumer m β → Prop
  | loadW _ r => r ≤ s.readIdx ∧ (s.readIdx = r ∨ s.readIdx < s.writeIdx ∨ k = 0) ∧
      (r < s.writeIdx → s.wrote[r]? = some (s.slots (slot k r)))
  | copy out r done => r ≤ s.readIdx ∧ (s.readIdx < s.writeIdx ∨ k = 0) ∧
      ∃ x, s.wrote[r]? = some x ∧ ∀ c, (if done c then out c else s.slots (slot k r) c) = x c
  | _ => True

def Consumer.next (readIdx : Nat) : Consumer m β → Nat
  | loadW _ r => r
  | copy _ r _ => r
  | _ => readIdx

/-- Every item written and not read is in its slot, and what was read is what was written, in the order of positions. -/
structure Inv (k : Nat) (s : State m β) : Prop where
  length : s.wrote.length = s.writeIdx
  le : s.readIdx ≤ s.writeIdx
  fit : s.writeIdx ≤ s.readIdx + 2 ^ k
  unread : ∀ p, s.readIdx ≤ p → p < s.writeIdx → s.wrote[p]? = some (s.slots (slot k p))
  prod : s.prod.Ok k s
  cons : s.cons.Ok k s
  sorted : (s.got.map Prod.fst).Pairwise (· < ·)
  below : ∀ x ∈ s.got, x.1 < s.cons.next s.readIdx
  item : ∀ x ∈ s.got, s.wrote[x.1]? = some x.2

variable {k : Nat} {s s' : State m β}

theorem inv_fresh (slots : Nat → Item m β) : Inv k (State.fresh slots) where
  length := rfl
  le := Nat.le_refl _
  fit := Nat.zero_le _
  unread := fun p _ h => by simp [State.fresh] at h
  prod := trivial
  cons := trivial
  sorted := List.Pairwise.nil
  below := by simp [State.fresh]
  item := by simp [State.fresh]

namespace Inv

theorem producerTo (h : Inv k s) {p : Producer m β} (hp : p.Ok k s) : Inv k { s with prod := p } :=
  { h with
    prod := by cases p <;> exact hp
    cons := by
      have := h.cons
      revert this
      cases s.cons <;> exact id }

/-- Only the consumer's place changes, and what it is to read next does not go back. -/
theorem consumerTo (h : Inv k s) {c : Consumer m β} (hc : c.Ok k s) (hn : s.cons.next s.readIdx ≤ c.next s.readIdx) :
    Inv k { s with cons := c } :=
  { h with
    prod := by
      have := h.prod
      revert this
      cases s.prod <;> exact id
    cons := by cases c <;> exact hc
    below := fun x hx => Nat.lt_of_lt_of_le (h.below x hx) hn }

theorem next_le (h : Inv k s) : s.cons.next s.readIdx ≤ s.readIdx := by
  have hc := h.cons
  cases hs : s.cons with
  | loadW out r =>
    rw [hs] at hc
    exact hc.1
  | copy out r done =>
    rw [hs] at hc
    exact hc.1
  | _ => exact Nat.le_refl _

theorem drop (h : Inv k s) {x : Item m β} {w r : Nat} (hs : s.prod = .drop x w r) (hle : s.readIdx ≤ r + 1) :
    Inv k { s with readIdx := r + 1, prod := .copy x w fun _ => false } := by
  have hp := h.prod
  rw [hs] at hp
  obtain ⟨hw, hr⟩ := hp
  have hpos : 0 < 2 ^ k := Nat.two_pow_pos k
  exact { h with
    le := by
      show r + 1 ≤ s.writeIdx
      omega
    fit := by
      show s.writeIdx ≤ r + 1 + 2 ^ k
      omega
    unread := fun p h1 h2 => h.unread p (Nat.le_trans hle h1) h2
    prod := ⟨hw, by show s.writeIdx < r + 1 + 2 ^ k; omega, fun c hc => by cases hc⟩
    cons := by
      -- with two slots or more, the stored index is below the write index
      have hlt : r + 1 < s.writeIdx ∨ k = 0 := by
        rcases Nat.eq_zero_or_pos k with hk | hk
        · exact .inr hk
        · have := Nat.pow_le_pow_right (n := 2) (by norm_num) hk
          exact .inl (by omega)
      have hc := h.cons
      revert hc
      cases s.cons with
      | loadW out q => exact fun hc => ⟨Nat.le_trans hc.1 hle, .inr hlt, hc.2.2⟩
      | copy out q done => exact fun hc => ⟨Nat.le_trans hc.1 hle, hlt, hc.2.2⟩
      | _ => exact fun _ => trivial
    below := fun y hy => by
      refine Nat.lt_of_lt_of_le (h.below y hy) ?_
      cases s.cons with
      | loadW out q => exact Nat.le_refl _
      | copy out q done => exact Nat.le_refl _
      | _ => exact hle }

theorem fill (hk : k < 64) (h : Inv k s) {x : Item m β} {w : Nat} {done : Fin m → Bool} {c : Fin m}
    (hs : s.prod = .copy x w done) (ha : ∀ r ∈ s.cons.pending c, r < w → slot k r ≠ slot k w) :
    Inv k { s.setCell (slot k w) c (x c) with prod := .copy x w (update done c true) } := by
  have hp := h.prod
  rw [hs] at hp
  obtain ⟨hw, hroom, hdone⟩ := hp
  refine { h with unread := fun p h1 h2 => ?_, prod := ⟨hw, hroom, fun d hd => ?_⟩, cons := ?_ }
  · have hne : slot k p ≠ slot k w := slot_ne hk (hw ▸ h2) (by
      show w < p + 2 ^ k
      have : s.readIdx ≤ p := h1
      omega)
    show s.wrote[p]? = some ((s.setCell (slot k w) c (x c)).slots (slot k p))
    rw [s.setCell_slots_ne _ _ hne]
    exact h.unread p h1 h2
  · show (s.setCell (slot k w) c (x c)).slots (slot k w) d = x d
    rw [s.setCell_slots]
    split
    · rename_i hcd
      rw [hcd.2]
    · rename_i hcd
      rw [update_of_ne fun he => hcd ⟨rfl, he⟩] at hd
      exact hdone d hd
  · show s.cons.Ok k _
    have hc := h.cons
    cases hcons : s.cons with
    | loadW out r =>
      rw [hcons] at hc ha
      refine ⟨hc.1, hc.2.1, fun hr => ?_⟩
      show s.wrote[r]? = some ((s.setCell (slot k w) c (x c)).slots (slot k r))
      have hr : r < s.writeIdx := hr
      rw [s.setCell_slots_ne _ _ (ha r rfl (by omega))]
      exact hc.2.2 hr
    | copy out r dr =>
      rw [hcons] at hc ha
      obtain ⟨hle, hlt, y, hy, hcell⟩ := hc
      refine ⟨hle, hlt, y, hy, fun d => ?_⟩
      show (if dr d then out d else (s.setCell (slot k w) c (x c)).slots (slot k r) d) = y d
      rw [← hcell d]
      split
      · rfl
      · rename_i hd
        -- the consumer has yet to copy this cell, so it is not the one stored
        rw [s.setCell_slots, if_neg]
        rintro ⟨hslot, rfl⟩
        refine ha r (by simp [Consumer.pending, hd]) ?_ hslot
        have := (List.getElem?_eq_some_iff.mp hy).1
        rw [hw, ← h.length]
        exact this
    | _ => trivial

theorem publish (h : Inv k s) {x : Item m β} {w : Nat} {done : Fin m → Bool} (hs : s.prod = .copy x w done)
    (hall : ∀ c, done c = true) :
    Inv k { s with writeIdx := s.writeIdx + 1, wrote := s.wrote ++ [x], prod := .ret true } := by
  have hp := h.prod
  rw [hs] at hp
  obtain ⟨rfl, hroom, hdone⟩ := hp
  have hslot : s.slots (slot k s.writeIdx) = x := funext fun c => hdone c (hall c)
  -- an item that was there is still there, and the new one is in the slot of its position
  have hold {p : Nat} {y : Item m β} (hy : s.wrote[p]? = some y) : (s.wrote ++ [x])[p]? = some y := by
    rw [List.getElem?_append_left (List.getElem?_eq_some_iff.mp hy).1]
    exact hy
  have hnew : (s.wrote ++ [x])[s.writeIdx]? = some (s.slots (slot k s.writeIdx)) := by
    rw [← h.length, List.getElem?_concat_length, h.length, hslot]
  have hat {p : Nat} (hp : p < s.writeIdx + 1) (ho : p < s.writeIdx → s.wrote[p]? = some (s.slots (slot k p))) :
      (s.wrote ++ [x])[p]? = some (s.slots (slot k p)) := by
    rcases Nat.lt_or_eq_of_le (Nat.lt_succ_iff.mp hp) with hlt | rfl
    · exact hold (ho hlt)
    · exact hnew
  exact { h with
    length := by simp [h.length]
    le := Nat.le_succ_of_le h.le
    fit := hroom
    unread := fun p h1 h2 => hat h2 (h.unread p h1)
    prod := trivial
    cons := by
      have hc := h.cons
      revert hc
      cases s.cons with
      | loadW out r =>
        rintro ⟨hle, hlt, hr⟩
        exact ⟨hle, hlt.imp_right (Or.imp_left Nat.lt_succ_of_lt), fun h2 => hat h2 hr⟩
      | copy out r dr =>
        rintro ⟨hle, hlt, y, hy, hcell⟩
        exact ⟨hle, hlt.imp_left Nat.lt_succ_of_lt, y, hold hy, hcell⟩
      | _ => exact fun _ => trivial
    item := fun y hy => hold (h.item y hy) }

theorem compare (hk : k < 64) (h : Inv k s) {x : Item m β} {ov : Bool} {w : Nat} (hs : s.prod = .loadR x ov w) :
    w = s.writeIdx ∧ (word w - word s.readIdx).toNat = s.writeIdx - s.readIdx := by
  have hp := h.prod
  rw [hs] at hp
  obtain rfl : w = s.writeIdx := hp
  exact ⟨rfl, word_sub hk h.le h.fit⟩

theorem consume (h : Inv k s) {out : Item m β} {r : Nat} {done : Fin m → Bool} (hs : s.cons = .copy out r done)
    (hall : ∀ c, done c = true) (ha : 0 < k ∨ s.readIdx < s.writeIdx) :
    Inv k { s with readIdx := s.readIdx + 1, got := s.got ++ [(r, out)], cons := .ret true } := by
  have hc := h.cons
  have hbelow := h.below
  rw [hs] at hc hbelow
  obtain ⟨hle, hlt, x, hx, hcell⟩ := hc
  have hlt : s.readIdx < s.writeIdx := by omega
  have hout : out = x := funext fun c => by
    have := hcell c
    rwa [if_pos (hall c)] at this
  subst hout
  have hfit := h.fit
  refine { h with
    le := hlt
    fit := by show s.writeIdx ≤ s.readIdx + 1 + 2 ^ k; omega
    unread := fun p h1 h2 => h.unread p (Nat.le_of_succ_le h1) h2
    prod := ?_, cons := trivial, sorted := ?_, below := ?_, item := ?_ }
  · have hp := h.prod
    revert hp
    cases s.prod with
    | copy y w dw =>
      rintro ⟨hw, hroom, hd⟩
      exact ⟨hw, by show s.writeIdx < s.readIdx + 1 + 2 ^ k; omega, hd⟩
    | _ => exact id
  · simp only [List.map_append, List.map_cons, List.map_nil, List.pairwise_append]
    refine ⟨h.sorted, List.pairwise_singleton _ _, fun p hp q hq => ?_⟩
    obtain ⟨y, hy, rfl⟩ := List.mem_map.mp hp
    rw [List.mem_singleton.mp hq]
    exact hbelow y hy
  · intro y hy
    show y.1 < s.readIdx + 1
    rcases List.mem_append.mp hy with hy | hy
    · have : y.1 < r := hbelow y hy
      omega
    · rw [List.mem_singleton.mp hy]
      omega
  · intro y hy
    rcases List.mem_append.mp hy with hy | hy
    · exact h.item y hy
    · rw [List.mem_singleton.mp hy]
      exact hx

theorem found (h : Inv k s) {out : Item m β} {r : Nat} (hs : s.cons = .loadW out r) (hw : ¬word s.writeIdx ≤ word r) :
    Inv k { s with cons := .copy out r fun _ => false } := by
  have hc := h.cons
  rw [hs] at hc
  obtain ⟨hle, hlt, hr⟩ := hc
  -- different words, so different indices
  have hlt' : r < s.writeIdx := by
    rcases Nat.lt_or_eq_of_le (Nat.le_trans hle h.le) with hlt' | rfl
    · exact hlt'
    · exact absurd (BitVec.le_refl _) hw
  refine h.consumerTo ⟨hle, ?_, _, hr hlt', fun c => rfl⟩ (by rw [hs]; exact Nat.le_refl _)
  rcases hlt with heq | hlt
  · exact .inl (heq ▸ hlt')
  · exact hlt

theorem drain (h : Inv k s) {out : Item m β} {r : Nat} {done : Fin m → Bool} {c : Fin m} (hs : s.cons = .copy out r done)
    (hd : done c = false) : Inv k { s with
      cons := .copy (update out c (s.slots (slot k r) c)) r (update done c true) } := by
  have hc := h.cons
  rw [hs] at hc
  obtain ⟨hle, hlt, x, hx, hcell⟩ := hc
  refine h.consumerTo ⟨hle, hlt, x, hx, fun d => ?_⟩ (by rw [hs]; exact Nat.le_refl _)
  rw [← hcell d]
  by_cases hdc : d = c
  · subst hdc
    rw [hd, update_self, update_self]
    rfl
  · rw [update_of_ne hdc, update_of_ne hdc]

/-- **One step.** -/
theorem step (hk : k < 64) (h : Inv k s) {a : Act m β} (ha : apart k s a) (hs : s.step k a = some s') : Inv k s' := by
  have hle := h.le
  have hfit := h.fit
  cases State.does_step hs with
  | write x _ => exact h.producerTo trivial
  | overwrite x _ => exact h.producerTo trivial
  | loadW _ => exact h.producerTo rfl
  | full _ _ => exact h.producerTo trivial
  | oldest hp hfull =>
    obtain ⟨hw, hsub⟩ := h.compare hk hp
    exact h.producerTo ⟨hw, by omega⟩
  | room hp hroom =>
    obtain ⟨hw, hsub⟩ := h.compare hk hp
    exact h.producerTo ⟨hw, by omega, fun c hc => by cases hc⟩
  | drop hp => exact h.drop hp (ha _ (by rw [hp]; rfl))
  | fill hp _ => exact h.fill hk hp (ha _ (by rw [hp]; rfl))
  | publish hp hall => exact h.publish hp hall
  | read out _ => exact h.consumerTo trivial h.next_le
  | loadR hc => exact h.consumerTo ⟨Nat.le_refl _, .inl rfl, h.unread _ (Nat.le_refl _)⟩ h.next_le
  | empty _ _ => exact h.consumerTo trivial h.next_le
  | item hc hw => exact h.found hc hw
  | drain hc hd => exact h.drain hc hd
  | consume hc hall => exact h.consume hc hall (ha (by rw [hc]; rfl))

end Inv

end ThothIpc.ShmRing
