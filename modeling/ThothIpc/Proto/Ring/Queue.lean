import ThothIpc.Proto.Ring.Model

/-!
# The ring, one call at a time

`shm_ring.rs` used by one thread: every call runs to its end before the next.

* `Seq.call` : the calls, on the two indices and the slots;
* `queueCall` : the queue that the ring is to be, which refuses an item or drops its oldest one when it is full;
* `Seq.Holds` : the slots from the read index to the write index are the queue; `Holds.call` : every call keeps this
  and returns what the queue does;
* `queue_refined` : so does every sequence of calls in which no `read` finds a write index below the read index.
-/

namespace ThothIpc.ShmRing

/-- The calls; `read` has the item that it overwrites. -/
inductive Call (T : Type) where
  | write (item : T)
  | writeOverwrite (item : T)
  | read (out : T)
  | available
  | isEmpty
  | isFull
  deriving DecidableEq, Repr

def Call.isRead {T : Type} : Call T → Bool
  | read _ => true
  | _ => false

/-- What they return; `read` with the caller's item afterwards. -/
inductive Ret (T : Type) where
  | unit
  | bool (b : Bool)
  | read (ok : Bool) (out : T)
  | count (n : Nat)
  deriving DecidableEq, Repr

/-- The indices, counted without bound, and the slots. -/
structure Seq (T : Type) where
  writeIdx : Nat
  readIdx : Nat
  slots : Nat → T

variable {T : Type}

namespace Seq

def fresh (slots : Nat → T) : Seq T := ⟨0, 0, slots⟩

/-- `w.wrapping_sub(r)` of the two words. -/
def available (s : Seq T) : Nat := (word s.writeIdx - word s.readIdx).toNat

/-- The copy into the slot of the write index, and `write_commit`. -/
def put (k : Nat) (s : Seq T) (item : T) : Seq T :=
  { s with slots := Function.update s.slots (slot k s.writeIdx) item, writeIdx := s.writeIdx + 1 }

def write (k : Nat) (s : Seq T) (item : T) : Seq T × Bool :=
  if 2 ^ k ≤ s.available then (s, false) else (s.put k item, true)

def writeOverwrite (k : Nat) (s : Seq T) (item : T) : Seq T :=
  if 2 ^ k ≤ s.available then { s with readIdx := s.readIdx + 1 }.put k item else s.put k item

/-- `read_slot` compares the words as numbers. -/
def read (k : Nat) (s : Seq T) (out : T) : Seq T × Bool × T :=
  if word s.writeIdx ≤ word s.readIdx then (s, false, out)
  else ({ s with readIdx := s.readIdx + 1 }, true, s.slots (slot k s.readIdx))

def call (k : Nat) (s : Seq T) : Call T → Seq T × Ret T
  | .write item => ((s.write k item).1, .bool (s.write k item).2)
  | .writeOverwrite item => (s.writeOverwrite k item, .unit)
  | .read out => ((s.read k out).1, .read (s.read k out).2.1 (s.read k out).2.2)
  | .available => (s, .count s.available)
  | .isEmpty => (s, .bool (s.available = 0))
  | .isFull => (s, .bool (2 ^ k ≤ s.available))

def calls (k : Nat) : Seq T → List (Call T) → List (Ret T)
  | _, [] => []
  | s, c :: cs => (s.call k c).2 :: (s.call k c).1.calls k cs

/-- Every `read` finds the word of the write index not below that of the read index. -/
def ordered (k : Nat) : Seq T → List (Call T) → Bool
  | _, [] => true
  | s, c :: cs => (!c.isRead || word s.readIdx ≤ word s.writeIdx) && (s.call k c).1.ordered k cs

end Seq

/-! ## The queue -/

/-- The calls on a queue of capacity `cap`, the oldest item first. -/
def queueCall (cap : Nat) (q : List T) : Call T → List T × Ret T
  | .write item => if q.length = cap then (q, .bool false) else (q ++ [item], .bool true)
  | .writeOverwrite item => (if q.length = cap then q.tail ++ [item] else q ++ [item], .unit)
  | .read out =>
    match q with
    | [] => ([], .read false out)
    | x :: q => (q, .read true x)
  | .available => (q, .count q.length)
  | .isEmpty => (q, .bool q.isEmpty)
  | .isFull => (q, .bool (q.length = cap))

def queueCalls (cap : Nat) : List T → List (Call T) → List (Ret T)
  | _, [] => []
  | q, c :: cs => (queueCall cap q c).2 :: queueCalls cap (queueCall cap q c).1 cs

/-! ## The refinement -/

namespace Seq

/-- The slots from the read index to the write index are `q`. -/
structure Holds (k : Nat) (s : Seq T) (q : List T) : Prop where
  writeIdx : s.writeIdx = s.readIdx + q.length
  room : q.length ≤ 2 ^ k
  items : ∀ i x, q[i]? = some x → s.slots (slot k (s.readIdx + i)) = x

namespace Holds

variable {k : Nat} {s : Seq T} {q : List T}

theorem start (slots : Nat → T) : Holds k (Seq.fresh slots) [] := ⟨rfl, Nat.zero_le _, fun i x h => by simp at h⟩

theorem available_eq (hk : k < 64) (h : Holds k s q) : s.available = q.length := by
  have hroom := h.room
  rw [available, h.writeIdx, word_sub hk (Nat.le_add_right ..) (by omega), Nat.add_sub_cancel_left]

theorem put (hk : k < 64) (h : Holds k s q) (hlt : q.length < 2 ^ k) (x : T) : Holds k (s.put k x) (q ++ [x]) where
  writeIdx := by
    rw [List.length_append, List.length_singleton, ← Nat.add_assoc]
    exact congrArg (· + 1) h.writeIdx
  room := by
    rw [List.length_append, List.length_singleton]
    exact hlt
  items i y hy := by
    change Function.update s.slots (slot k s.writeIdx) x (slot k (s.readIdx + i)) = y
    rw [h.writeIdx]
    by_cases hi : i < q.length
    · rw [List.getElem?_append_left hi] at hy
      have hne := slot_ne hk (Nat.add_lt_add_left hi s.readIdx) (by omega)
      rw [Function.update_of_ne hne]
      exact h.items i y hy
    · obtain ⟨hi', -⟩ := List.getElem?_eq_some_iff.mp hy
      rw [List.length_append, List.length_singleton] at hi'
      obtain rfl : i = q.length := by omega
      rw [List.getElem?_concat_length] at hy
      rw [Function.update_self]
      exact Option.some.inj hy

theorem advance {x : T} (h : Holds k s (x :: q)) : Holds k { s with readIdx := s.readIdx + 1 } q where
  writeIdx := by
    have hw := h.writeIdx
    rw [List.length_cons] at hw
    change s.writeIdx = s.readIdx + 1 + q.length
    omega
  room := (Nat.le_succ _).trans h.room
  items i y hy := by
    change s.slots (slot k (s.readIdx + 1 + i)) = y
    rw [Nat.add_assoc, Nat.add_comm 1 i]
    exact h.items (i + 1) y hy

theorem write (hk : k < 64) (h : Holds k s q) (x : T) :
    Holds k (s.write k x).1 (queueCall (2 ^ k) q (.write x)).1 ∧
      Ret.bool (s.write k x).2 = (queueCall (2 ^ k) q (.write x)).2 := by
  have hroom := h.room
  rw [Seq.write, h.available_eq hk, queueCall]
  by_cases hfull : q.length = 2 ^ k
  · rw [if_pos (by omega), if_pos hfull]
    exact ⟨h, rfl⟩
  · rw [if_neg (by omega), if_neg hfull]
    exact ⟨h.put hk (by omega) x, rfl⟩

theorem writeOverwrite (hk : k < 64) (h : Holds k s q) (x : T) :
    Holds k (s.writeOverwrite k x) (queueCall (2 ^ k) q (.writeOverwrite x)).1 := by
  have hroom := h.room
  have hpos : 0 < 2 ^ k := Nat.two_pow_pos k
  rw [Seq.writeOverwrite, h.available_eq hk, queueCall]
  by_cases hfull : q.length = 2 ^ k
  · rw [if_pos (by omega), if_pos hfull]
    cases q with
    | nil => simp only [List.length_nil] at hfull; omega
    | cons y q => exact h.advance.put hk (by simp only [List.length_cons] at hfull; omega) x
  · rw [if_neg (by omega), if_neg hfull]
    exact h.put hk (by omega) x

theorem read (h : Holds k s q) (hk : k < 64) (hord : word s.readIdx ≤ word s.writeIdx) (out : T) :
    Holds k (s.read k out).1 (queueCall (2 ^ k) q (.read out)).1 ∧
      Ret.read (s.read k out).2.1 (s.read k out).2.2 = (queueCall (2 ^ k) q (.read out)).2 := by
  have havail := h.available_eq hk
  rw [Seq.available] at havail
  cases q with
  | nil =>
    have hw : word s.writeIdx ≤ word s.readIdx := by rw [h.writeIdx]; exact BitVec.le_refl _
    rw [Seq.read, if_pos hw]
    exact ⟨h, rfl⟩
  | cons x q =>
    -- equal words would make the ring empty
    have hne : ¬ word s.writeIdx ≤ word s.readIdx := fun hle => by
      rw [BitVec.le_antisymm hle hord, BitVec.sub_self] at havail
      cases havail
    rw [Seq.read, if_neg hne]
    exact ⟨h.advance, congrArg (Ret.read true) (h.items 0 x rfl)⟩

theorem call (hk : k < 64) (h : Holds k s q) (c : Call T)
    (hord : c.isRead = true → word s.readIdx ≤ word s.writeIdx) :
    Holds k (s.call k c).1 (queueCall (2 ^ k) q c).1 ∧ (s.call k c).2 = (queueCall (2 ^ k) q c).2 := by
  have havail := h.available_eq hk
  have hroom := h.room
  cases c with
  | write x => exact h.write hk x
  | writeOverwrite x => exact ⟨h.writeOverwrite hk x, rfl⟩
  | read out => exact h.read hk (hord rfl) out
  | available => exact ⟨h, congrArg Ret.count havail⟩
  | isEmpty =>
    refine ⟨h, congrArg Ret.bool ?_⟩
    rw [havail]
    cases q <;> rfl
  | isFull =>
    refine ⟨h, congrArg Ret.bool ?_⟩
    rw [havail]
    exact decide_eq_decide.mpr ⟨fun hle => le_antisymm hroom hle, fun he => he.ge⟩

theorem calls (hk : k < 64) (cs : List (Call T)) (h : Holds k s q) (hord : s.ordered k cs = true) :
    s.calls k cs = queueCalls (2 ^ k) q cs := by
  induction cs generalizing s q with
  | nil => rfl
  | cons c cs ih =>
    rw [ordered, Bool.and_eq_true] at hord
    obtain ⟨hc, hcs⟩ := hord
    obtain ⟨hnext, hret⟩ := h.call hk c fun hread => by simpa [hread] using hc
    rw [Seq.calls, queueCalls, hret, ih hnext hcs]

end Holds

/-- **The ring is a drop-oldest queue** of capacity `2 ^ k`, if the write index is not below the read index when `read`
compares them. -/
theorem queue_refined {k : Nat} (hk : k < 64) (slots : Nat → T) (cs : List (Call T))
    (hord : (fresh slots).ordered k cs = true) : (fresh slots).calls k cs = queueCalls (2 ^ k) [] cs :=
  (Holds.start slots).calls hk cs hord

theorem queue_refined_two :
    (fresh fun _ => 0).calls 1 [.write 5, .write 6, .write 7, .writeOverwrite 8, .read 0, .read 0, .read 0] =
        queueCalls 2 [] [.write 5, .write 6, .write 7, .writeOverwrite 8, .read 0, .read 0, .read 0] ∧
      queueCalls 2 [] [.write 5, .write 6, .write 7, .writeOverwrite 8, .read 0, .read 0, .read 0] =
        [.bool true, .bool true, .bool false, .unit, .read true 6, .read true 8, .read false 0] :=
  ⟨queue_refined (by decide) _ _ (by decide), by decide⟩

/-! ## The words wrap round -/

/-- An item is written and read, `n + 1` times. -/
def pairs : Nat → List (Call Nat)
  | 0 => [.write 1, .read 0]
  | n + 1 => .write 1 :: .read 0 :: pairs n

theorem write_empty {s : Seq Nat} (hs : s.writeIdx = s.readIdx) : s.write 1 1 = (s.put 1 1, true) := by
  rw [write, available, hs, BitVec.sub_self]
  rfl

theorem pairs_ne (n : Nat) {s : Seq Nat} (hs : s.writeIdx = s.readIdx) (hn : s.readIdx + n + 1 = 2 ^ 64) :
    s.calls 1 (pairs n) ≠ queueCalls 2 [] (pairs n) := by
  intro h
  induction n generalizing s with
  | zero =>
    have hle : word (s.put 1 1).writeIdx ≤ word (s.put 1 1).readIdx := by
      have hzero : word (s.writeIdx + 1) = 0 := by
        rw [hs, hn]
        decide
      change word (s.writeIdx + 1) ≤ _
      rw [hzero, BitVec.le_def]
      exact Nat.zero_le _
    simp [pairs, calls, call, write_empty hs, read, if_pos hle, queueCalls, queueCall] at h
  | succ n ih =>
    have hlt : ¬ word (s.put 1 1).writeIdx ≤ word (s.put 1 1).readIdx := by
      change ¬ word (s.writeIdx + 1) ≤ word s.readIdx
      rw [hs, BitVec.le_def, word, word, BitVec.toNat_ofNat, BitVec.toNat_ofNat, Nat.mod_eq_of_lt (by omega),
        Nat.mod_eq_of_lt (by omega)]
      omega
    have hslot : (s.put 1 1).slots (slot 1 (s.put 1 1).readIdx) = 1 := by
      change Function.update s.slots (slot 1 s.writeIdx) 1 (slot 1 s.readIdx) = 1
      rw [hs, Function.update_self]
    simp only [pairs, calls, call, write_empty hs, read, if_neg hlt, hslot, queueCalls, queueCall] at h
    refine ih (congrArg (· + 1) hs) ?_ (by simpa using h)
    change s.readIdx + 1 + n + 1 = 2 ^ 64
    omega

/-- **An item that cannot be read**: after `2 ^ 64 - 1` items written and read, one more is written, and `read` takes
the ring for empty. -/
theorem queue_unread : ∃ n, (fresh fun _ => 0).calls 1 (pairs n) ≠ queueCalls 2 [] (pairs n) :=
  ⟨2 ^ 64 - 1, pairs_ne _ rfl (by rfl)⟩

end Seq
end ThothIpc.ShmRing
