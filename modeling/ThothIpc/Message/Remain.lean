import ThothIpc.Message.Fragment

/-!
# How much of a message is left

`channel.rs`, `ChanInner::send`, and `ipc.cpp`, `send`: each fragment, and the record of a message in chunk storage,
says how many bytes come after it, as an `i32` that is computed from lengths cast to `i32`. No length is refused.

* `rustRemains`, `cppRemains`, `cppStorage` : the values pushed, as long as the pushes succeed;
* `remains_faithful` : below 2^31 they say what is left, and the last one is told by its sign.

The parameter `i32` is what an operation on `i32` with the given exact result gives. Where this is no `i32` it wraps or
ends the program, as the build has it, and is undefined in C++.
-/

namespace ThothIpc.Message

/-- What fits an `i32` is computed exactly. -/
def Exact (i32 : Int → Option Int) : Prop := ∀ x, -2 ^ 31 ≤ x → x < 2 ^ 31 → i32 x = some x

def wrap (x : Int) : Option Int := some (BitVec.ofInt 32 x).toInt

theorem exact_wrap : Exact wrap := fun _ hlo hhi => congrArg some (toInt_ofInt_of_range hlo hhi)

section Sizes

variable (i32 : Int → Option Int) (size : Nat)

def rustRemains : List (Option Int) :=
  let full := size / dataLength
  let tail := size - dataLength * full
  (List.range full).map (fun k => (i32 (toI32 size - toI32 (dataLength * k))).bind fun a => i32 (a - dataLength)) ++
    if 0 < tail then [i32 (toI32 tail - dataLength)] else []

/-- The offset of the `k`-th turn of the loop. -/
def cppOffset : Nat → Option Int
  | 0 => some 0
  | k + 1 => (cppOffset k).bind fun offset => i32 (offset + dataLength)

/-- The loop ends at once if its bound is negative. -/
def cppRemains : List (Option Int) :=
  let full := (toI32 (size / dataLength)).toNat
  let left := fun k => (cppOffset i32 k).bind fun offset => i32 (toI32 size - offset)
  (List.range full).map (fun k => (left k).bind fun a => i32 (a - dataLength)) ++
    match left full with
    | some remain => if 0 < remain then [i32 (remain - dataLength)] else []
    | none => [none]

def cppStorage : Option Int := i32 (toI32 size - dataLength)

end Sizes

/-- The first value is the length less 64, each is 64 less than the one before it, and exactly the last is not
positive. -/
structure Faithful (size : Nat) (remains : List (Option Int)) : Prop where
  first : ∃ r, remains.head? = some (some r) ∧ r + dataLength = size
  next : ∀ k, k + 1 < remains.length →
    ∃ r, remains[k]? = some (some r) ∧ remains[k + 1]? = some (some (r - dataLength))
  last : ∀ k, k < remains.length → ∃ r, remains[k]? = some (some r) ∧ (r ≤ 0 ↔ k + 1 = remains.length)

/-- The value of the `k`-th fragment, as a number. -/
def remain (size k : Nat) : Int := size - dataLength * k - dataLength

/-- The values for a length, as numbers. -/
def remains (size : Nat) : List (Option Int) :=
  (List.range ((size + (dataLength - 1)) / dataLength)).map fun k => some (remain size k)

theorem faithful_remains {size : Nat} (h : 0 < size) : Faithful size (remains size) := by
  have hlen : (remains size).length = (size + (dataLength - 1)) / dataLength := by
    rw [remains, List.length_map, List.length_range]
  have hget : ∀ k, k < (remains size).length → (remains size)[k]? = some (some (remain size k)) := by
    intro k hk
    rw [remains, List.length_map] at hk
    rw [remains, List.getElem?_map, List.getElem?_eq_getElem hk, List.getElem_range]
    rfl
  simp only [remain, dataLength] at hlen hget
  refine ⟨⟨remain size 0, ?_, ?_⟩, fun k hk => ⟨_, hget k (by omega), ?_⟩, fun k hk => ⟨_, hget k hk, ?_⟩⟩
  · rw [List.head?_eq_getElem?]
    exact hget 0 (by omega)
  · simp only [remain, dataLength]
    omega
  · rw [hget (k + 1) hk]
    congr 2
    simp only [dataLength]
    omega
  · omega

theorem remains_split (size : Nat) : remains size =
    (List.range (size / dataLength)).map (fun k => some (remain size k)) ++
      if 0 < size - dataLength * (size / dataLength) then [some (remain size (size / dataLength))] else [] := by
  rw [remains]
  split
  · have hcount : (size + (dataLength - 1)) / dataLength = size / dataLength + 1 := by
      simp only [dataLength] at *
      omega
    rw [hcount, List.range_succ, List.map_append, List.map_singleton]
  · have hcount : (size + (dataLength - 1)) / dataLength = size / dataLength := by
      simp only [dataLength] at *
      omega
    rw [hcount, List.append_nil]

variable {i32 : Int → Option Int} {size : Nat}

theorem rustRemains_eq (hi : Exact i32) (h : size < 2 ^ 31) : rustRemains i32 size = remains size := by
  rw [remains_split, rustRemains]
  congr 1
  · refine List.map_congr_left fun k hk => ?_
    rw [List.mem_range] at hk
    simp only [remain, dataLength] at hk ⊢
    rw [toI32_of_lt h, toI32_of_lt (by omega), hi _ (by omega) (by omega), Option.bind_some, hi _ (by omega) (by omega)]
    push_cast
    rfl
  · split
    · simp only [remain, dataLength] at *
      rw [toI32_of_lt (by omega), hi _ (by omega) (by omega)]
      congr 2
      omega
    · rfl

theorem cppOffset_eq (hi : Exact i32) {k : Nat} (hk : dataLength * k < 2 ^ 31) :
    cppOffset i32 k = some ((dataLength * k : Nat) : Int) := by
  induction k with
  | zero => rfl
  | succ k ih =>
    have hnext : dataLength * k + dataLength = dataLength * (k + 1) := rfl
    rw [cppOffset, ih (by omega), Option.bind_some, ← Int.natCast_add, hnext]
    exact hi _ (by omega) (by omega)

theorem cppRemains_eq (hi : Exact i32) (h : size < 2 ^ 31) : cppRemains i32 size = remains size := by
  have hfull : (toI32 (size / dataLength)).toNat = size / dataLength := by
    rw [toI32_of_lt (by simp only [dataLength]; omega), Int.toNat_natCast]
  have hleft : ∀ k, k ≤ size / dataLength → ((cppOffset i32 k).bind fun offset => i32 (toI32 size - offset)) =
      some ((size : Int) - dataLength * k) := by
    intro k hk
    simp only [dataLength] at hk
    rw [cppOffset_eq hi (by simp only [dataLength]; omega), Option.bind_some, toI32_of_lt h]
    simp only [dataLength]
    rw [hi _ (by omega) (by omega)]
    push_cast
    rfl
  simp only [cppRemains, hfull, hleft _ le_rfl]
  rw [remains_split]
  congr 1
  · refine List.map_congr_left fun k hk => ?_
    rw [List.mem_range] at hk
    rw [hleft k hk.le, Option.bind_some]
    simp only [remain, dataLength] at hk ⊢
    exact hi _ (by omega) (by omega)
  · by_cases htail : 0 < size - dataLength * (size / dataLength)
    · rw [if_pos htail, if_pos (by simp only [dataLength] at *; omega)]
      simp only [remain, dataLength]
      rw [hi _ (by omega) (by omega)]
    · rw [if_neg htail, if_neg (by simp only [dataLength] at *; omega)]

end ThothIpc.Message
