import ThothIpc.Codecvt.Model

/-!
# Conversions of well-formed strings

* `enc` : the standard encodings of a character, UTF-8 as the library of Lean has it;
* `get_enc`, `put_enc` : the characters are taken and put in these encodings, in UTF-16 up to U+EFFFF;
* `cvtSstr_enc` : `cvt_sstr` converts the encodings of a string into each other;
* `round_trips` : this for the six conversions;
* `plane15_refused` : U+F0000 is not converted to UTF-16.
-/

namespace ThothIpc.Codecvt

def stored {g : Ufmt} (m : Nat → BitVec g.bits) (off : Nat) (ws : Stores g) : Nat → BitVec g.bits :=
  ws.foldl (fun m x => Function.update m (off + x.1) x.2) m

/-- `cvt_sstr`: a null pass for the length, then a pass over a string of that length. -/
def cvtSstr (signed : Bool) (f g : Ufmt) (src : List (BitVec f.bits)) : List (BitVec g.bits) :=
  let dlen := (cvtCstr signed f g src false 0).1
  (List.range dlen).map (stored (fun _ => 0) 0 (cvtCstr signed f g src true dlen).2)

def enc : (f : Ufmt) → Char → List (BitVec f.bits)
  | .utf8, c => (String.utf8EncodeChar c).map UInt8.toBitVec
  | .utf16, c =>
    if c.toNat < 0x10000 then [BitVec.ofNat 16 c.toNat]
    else [BitVec.ofNat 16 (0xD800 + (c.toNat - 0x10000) / 0x400),
    BitVec.ofNat 16 (0xDC00 + (c.toNat - 0x10000) % 0x400)]
  | .utf32, c => [BitVec.ofNat 32 c.toNat]

/-! ## Stores into memory -/

section Memory

variable {α : Type*}

/-- Memory in which `us` stands from `off` on. -/
def fill (m : Nat → α) (off : Nat) (us : List α) (j : Nat) : α := if off ≤ j then (us[j - off]?).getD (m j) else m j

theorem fill_nil (m : Nat → α) (off : Nat) : fill m off [] = m := by
  funext j
  simp [fill]

theorem fill_cons (m : Nat → α) (off : Nat) (u : α) (us : List α) :
    fill m off (u :: us) = Function.update (fill m (off + 1) us) off u := by
  funext j
  unfold fill
  by_cases hj : j = off
  · subst hj
    rw [Function.update_self, if_pos le_rfl, Nat.sub_self]
    rfl
  · rw [Function.update_of_ne hj]
    by_cases hlt : off ≤ j
    · rw [if_pos hlt, if_pos (by omega), show j - off = j - (off + 1) + 1 by omega]
      rfl
    · rw [if_neg hlt, if_neg (by omega)]

theorem fill_append (m : Nat → α) (off : Nat) (us vs : List α) :
    fill (fill m off us) (off + us.length) vs = fill m off (us ++ vs) := by
  funext j
  unfold fill
  by_cases hle : off + us.length ≤ j
  · rw [if_pos hle, if_pos (by omega), if_pos (by omega), List.getElem?_append_right (by omega),
      List.getElem?_eq_none (l := us) (by omega), Nat.sub_sub]
    rfl
  · rw [if_neg hle]
    by_cases hoff : off ≤ j
    · rw [if_pos hoff, if_pos hoff, List.getElem?_append_left (by omega)]
    · rw [if_neg hoff, if_neg hoff]

theorem range_fill (m : Nat → α) (us : List α) : (List.range us.length).map (fill m 0 us) = us := by
  apply List.ext_getElem
  · rw [List.length_map, List.length_range]
  · intro i _ hi
    rw [List.getElem_map, List.getElem_range, fill, if_pos (Nat.zero_le i), Nat.sub_zero, List.getElem?_eq_getElem hi]
    rfl

end Memory

/-! ## Characters -/

theorem toNat_valid (c : Char) : c.toNat < 0xD800 ∨ 0xDFFF < c.toNat ∧ c.toNat < 0x110000 := c.valid

theorem toNat_ne_zero {c : Char} (h : c ≠ '\x00') : c.toNat ≠ 0 := fun h0 =>
  h (Char.ext (UInt32.toNat_inj.mp h0))

theorem enc8_cases (c : Char) :
    (c.toNat < 0x80 ∧ enc .utf8 c = [BitVec.ofNat 8 c.toNat]) ∨
    (0x80 ≤ c.toNat ∧ c.toNat < 0x800 ∧
      enc .utf8 c = [BitVec.ofNat 8 (c.toNat / 64 % 32 + 192), BitVec.ofNat 8 (c.toNat % 64 + 128)]) ∨
    (0x800 ≤ c.toNat ∧ c.toNat < 0x10000 ∧
      enc .utf8 c = [BitVec.ofNat 8 (c.toNat / 4096 % 16 + 224), BitVec.ofNat 8 (c.toNat / 64 % 64 + 128),
        BitVec.ofNat 8 (c.toNat % 64 + 128)]) ∨
    (0x10000 ≤ c.toNat ∧ c.toNat < 0x110000 ∧
      enc .utf8 c = [BitVec.ofNat 8 (c.toNat / 262144 % 8 + 240), BitVec.ofNat 8 (c.toNat / 4096 % 64 + 128),
        BitVec.ofNat 8 (c.toNat / 64 % 64 + 128), BitVec.ofNat 8 (c.toNat % 64 + 128)]) := by
  have hv := toNat_valid c
  have henc : enc .utf8 c = (String.utf8EncodeChar c).map UInt8.toBitVec := rfl
  unfold String.utf8EncodeChar at henc
  change c.toNat < _ ∨ _ at hv
  have hval : c.val.toNat = c.toNat := rfl
  simp only [hval] at henc
  split_ifs at henc with h1 h2 h3
  · exact Or.inl ⟨by omega, henc⟩
  · exact Or.inr (Or.inl ⟨by omega, by omega, henc⟩)
  · exact Or.inr (Or.inr (Or.inl ⟨by omega, by omega, henc⟩))
  · exact Or.inr (Or.inr (Or.inr ⟨by omega, by omega, henc⟩))

theorem more_unit (k : Nat) (src : List (BitVec 8)) (c x : Nat) :
    more (k + 1) (BitVec.ofNat 8 (x % 64 + 128) :: src) c = more k src (c * 64 + x % 64) := by
  have hb : (BitVec.ofNat 8 (x % 64 + 128)).toNat = x % 64 + 128 := by
    rw [BitVec.toNat_ofNat]
    omega
  have hand : x % 64 + 128 &&& 0x3F = x % 64 := by
    rw [show 0x3F = 2 ^ 6 - 1 from rfl, Nat.and_two_pow_sub_one_eq_mod]
    omega
  rw [more, hb, if_neg (by omega), hand, Nat.shiftLeft_eq]

theorem get8_enc {c : Char} (h : c.toNat ≠ 0) (src : List (BitVec 8)) :
    get8 (enc .utf8 c ++ src) = some ((enc .utf8 c).length, c.toNat) := by
  have hmask : ∀ n k, n &&& 2 ^ k - 1 = n % 2 ^ k := Nat.and_two_pow_sub_one_eq_mod
  obtain ⟨hlt, he⟩ | ⟨hge, hlt, he⟩ | ⟨hge, hlt, he⟩ | ⟨hge, hlt, he⟩ := enc8_cases c
  all_goals
    rw [he]
    simp only [List.cons_append, List.nil_append, get8, BitVec.toNat_ofNat]
  · rw [Nat.mod_eq_of_lt (by omega), if_neg h, if_pos hlt]
    rfl
  · rw [Nat.mod_eq_of_lt (by omega), if_neg (by omega), if_neg (by omega), if_neg (by omega), if_pos (by omega),
      show 0x1F = 2 ^ 5 - 1 from rfl, hmask, more_unit, more]
    simp only [Option.map_some, List.length_cons, List.length_nil]
    congr 2
    omega
  · rw [Nat.mod_eq_of_lt (by omega), if_neg (by omega), if_neg (by omega), if_neg (by omega), if_neg (by omega),
      if_pos (by omega), show 0x0F = 2 ^ 4 - 1 from rfl, hmask, more_unit, more_unit, more]
    simp only [Option.map_some, List.length_cons, List.length_nil]
    congr 2
    omega
  · rw [Nat.mod_eq_of_lt (by omega), if_neg (by omega), if_neg (by omega), if_neg (by omega), if_neg (by omega),
      if_neg (by omega), if_pos (by omega), show 0x07 = 2 ^ 3 - 1 from rfl, hmask, more_unit, more_unit, more_unit,
      more]
    simp only [Option.map_some, List.length_cons, List.length_nil]
    congr 2
    omega

theorem get16_enc {c : Char} (h : c.toNat ≠ 0) (src : List (BitVec 16)) :
    get16 (enc .utf16 c ++ src) = some ((enc .utf16 c).length, c.toNat) := by
  have hmask : ∀ n, n &&& 0x3FF = n % 2 ^ 10 := fun n => Nat.and_two_pow_sub_one_eq_mod n 10
  have hv := toNat_valid c
  simp only [enc]
  split
  · simp only [List.cons_append, List.nil_append, get16, BitVec.toNat_ofNat]
    rw [Nat.mod_eq_of_lt (by omega), if_neg h, if_neg (by omega)]
    rfl
  · simp only [List.cons_append, List.nil_append, get16, BitVec.toNat_ofNat]
    rw [Nat.mod_eq_of_lt (by omega), Nat.mod_eq_of_lt (by omega), if_neg (by omega), if_pos (by omega),
      if_pos (by omega), hmask, hmask, Nat.shiftLeft_eq]
    simp only [List.length_cons, List.length_nil]
    congr 2
    omega

theorem get_enc {c : Char} (h : c.toNat ≠ 0) (signed : Bool) (f : Ufmt) (src : List (BitVec f.bits)) :
    get signed f (enc f c ++ src) = some ((enc f c).length, (c.toNat : Int)) := by
  have hv := toNat_valid c
  cases f with
  | utf8 => rw [get, get8_enc h, Option.map_some]
  | utf16 => rw [get, get16_enc h, Option.map_some]
  | utf32 =>
    have hn : (BitVec.ofNat 32 c.toNat).toNat = c.toNat := by
      rw [BitVec.toNat_ofNat]
      omega
    have hi : (BitVec.ofNat 32 c.toNat).toInt = c.toNat := by
      rw [BitVec.toInt_eq_toNat_of_lt (by omega), hn]
    cases signed
    · exact congrArg (fun x : Nat => some (1, (x : Int))) hn
    · exact congrArg (fun x : Int => some (1, x)) hi

theorem enc_head {c : Char} (h : c.toNat ≠ 0) (f : Ufmt) (src : List (BitVec f.bits)) :
    (enc f c ++ src).headD 0 ≠ 0 := by
  have hv := toNat_valid c
  have hget := get_enc h false f src
  intro hz
  cases f with
  | utf32 =>
    have hn := congrArg BitVec.toNat (show BitVec.ofNat 32 c.toNat = 0 from hz)
    rw [BitVec.toNat_ofNat] at hn
    change c.toNat % 2 ^ 32 = 0 at hn
    omega
  | utf8 =>
    rw [get] at hget
    generalize enc .utf8 c ++ src = l at hget hz
    cases l with
    | nil => cases hget
    | cons b l =>
      obtain rfl : b = 0 := hz
      cases hget
  | utf16 =>
    rw [get] at hget
    generalize enc .utf16 c ++ src = l at hget hz
    cases l with
    | nil => cases hget
    | cons b l =>
      obtain rfl : b = 0 := hz
      cases hget

theorem trail_succ (i n : Nat) :
    trail (i + 1) n = ((i + 1, BitVec.ofNat 8 (n % 64 + 128)) :: (trail i (n / 64)).1, (trail i (n / 64)).2) := by
  have hor : n % 64 ||| 0x80 = n % 64 + 128 := by
    have h := Nat.two_pow_add_eq_or_of_lt (show n % 64 < 2 ^ 7 by omega) 1
    rw [Nat.or_comm, Nat.add_comm]
    exact h.symm
  have hand : n &&& 0x3F = n % 64 := Nat.and_two_pow_sub_one_eq_mod n 6
  rw [trail, hand, hor, Nat.shiftRight_eq_div_pow]

theorem trail_zero (n : Nat) : trail 0 n = ([], n) := rfl

theorem or_lead {n i k l : Nat} (hn : n < 2 ^ i) (hl : l = 2 ^ i * k) : n ||| l = n + l := by
  rw [hl, Nat.or_comm, Nat.add_comm]
  exact (Nat.two_pow_add_eq_or_of_lt hn k).symm

theorem put8_eq {n i dlen : Nat} (h : n ≠ 0) (hi : (codeup.findIdx fun up => decide (n < up)) = i) (hlt : i < 6)
    (hroom : i < dlen) : put8 n true dlen =
      (i + 1, (trail i n).1 ++ [(0, BitVec.ofNat 8 ((trail i n).2 ||| lead.getD i 0))]) := by
  have hvalid : ¬ (n = 0 ∨ i = codeup.length) := by
    rintro (h0 | h6)
    · exact h h0
    · change i = 6 at h6
      omega
  simp only [put8, hi]
  rw [if_neg hvalid, if_pos hroom]
  rfl

theorem put8_enc {c : Char} (h : c.toNat ≠ 0) {dlen : Nat} (hroom : (enc .utf8 c).length ≤ dlen)
    (m : Nat → BitVec 8) (off : Nat) : (put8 c.toNat true dlen).1 = (enc .utf8 c).length ∧
      stored (g := .utf8) m off (put8 c.toNat true dlen).2 = fill m off (enc .utf8 c) := by
  obtain ⟨hlt, he⟩ | ⟨hge, hlt, he⟩ | ⟨hge, hlt, he⟩ | ⟨hge, hlt, he⟩ := enc8_cases c
  all_goals
    rw [he] at hroom ⊢
    simp only [List.length_cons, List.length_nil] at hroom
    simp only [fill_cons, fill_nil]
  · have hi : (codeup.findIdx fun up => decide (c.toNat < up)) = 0 := by
      simp only [codeup, List.findIdx_cons, decide_eq_true hlt, cond_true]
    have hor : c.toNat ||| 0 = c.toNat := Nat.or_zero _
    rw [put8_eq h hi (by decide) (by omega)]
    refine ⟨rfl, ?_⟩
    simp only [trail_zero, stored, lead, List.getD_cons_zero, hor, List.nil_append, List.foldl_cons, List.foldl_nil,
      Nat.add_zero]
  · have hi : (codeup.findIdx fun up => decide (c.toNat < up)) = 1 := by
      simp only [codeup, List.findIdx_cons, decide_eq_false (Nat.not_lt.mpr hge), decide_eq_true hlt, cond_true,
        cond_false]
    have hor := or_lead (n := c.toNat / 64) (i := 6) (k := 3) (l := 0xC0) (by omega) rfl
    rw [put8_eq h hi (by decide) (by omega), Nat.mod_eq_of_lt (show c.toNat / 64 < 32 by omega)]
    refine ⟨rfl, ?_⟩
    simp only [trail_succ, trail_zero, stored, lead, List.getD_cons_succ, List.getD_cons_zero, hor, List.cons_append,
      List.nil_append, List.foldl_cons, List.foldl_nil, Nat.add_zero, Nat.zero_add]
  · have h0 : ¬ c.toNat < 0x80 := by omega
    have hi : (codeup.findIdx fun up => decide (c.toNat < up)) = 2 := by
      simp only [codeup, List.findIdx_cons, decide_eq_false h0, decide_eq_false (Nat.not_lt.mpr hge),
        decide_eq_true hlt, cond_true, cond_false]
    have hor := or_lead (n := c.toNat / 4096) (i := 5) (k := 7) (l := 0xE0) (by omega) rfl
    rw [put8_eq h hi (by decide) (by omega), Nat.mod_eq_of_lt (show c.toNat / 4096 < 16 by omega)]
    refine ⟨rfl, ?_⟩
    simp only [trail_succ, trail_zero, stored, lead, List.getD_cons_succ, List.getD_cons_zero, Nat.div_div_eq_div_mul,
      Nat.reduceMul, hor, List.cons_append, List.nil_append, List.foldl_cons, List.foldl_nil, Nat.add_zero,
      Nat.zero_add, Nat.add_assoc]
  · have h0 : ¬ c.toNat < 0x80 := by omega
    have h1 : ¬ c.toNat < 0x800 := by omega
    have hup : c.toNat < 0x200000 := by omega
    have hi : (codeup.findIdx fun up => decide (c.toNat < up)) = 3 := by
      simp only [codeup, List.findIdx_cons, decide_eq_false h0, decide_eq_false h1,
        decide_eq_false (Nat.not_lt.mpr hge), decide_eq_true hup, cond_true, cond_false]
    have hor := or_lead (n := c.toNat / 262144) (i := 4) (k := 15) (l := 0xF0) (by omega) rfl
    rw [put8_eq h hi (by decide) (by omega), Nat.mod_eq_of_lt (show c.toNat / 262144 < 8 by omega)]
    refine ⟨rfl, ?_⟩
    simp only [trail_succ, trail_zero, stored, lead, List.getD_cons_succ, List.getD_cons_zero, Nat.div_div_eq_div_mul,
      Nat.reduceMul, hor, List.cons_append, List.nil_append, List.foldl_cons, List.foldl_nil, Nat.add_zero,
      Nat.zero_add, Nat.add_assoc]

theorem put16_enc {c : Char} (h : c.toNat ≠ 0) (hup : c.toNat ≤ 0xEFFFF) {dlen : Nat}
    (hroom : (enc .utf16 c).length ≤ dlen) (m : Nat → BitVec 16) (off : Nat) :
    (put16 c.toNat true dlen).1 = (enc .utf16 c).length ∧
      stored (g := .utf16) m off (put16 c.toNat true dlen).2 = fill m off (enc .utf16 c) := by
  have hmask : c.toNat &&& 0x3FF = c.toNat % 2 ^ 10 := Nat.and_two_pow_sub_one_eq_mod _ 10
  simp only [enc] at hroom ⊢
  simp only [put16]
  rw [if_neg (by omega)]
  split at hroom
  · rename_i hlt
    change 1 ≤ dlen at hroom
    rw [if_pos (by omega), if_pos ⟨trivial, by omega⟩, if_pos hlt]
    refine ⟨rfl, ?_⟩
    rw [fill_cons, fill_nil]
    rfl
  · rename_i hge
    change 2 ≤ dlen at hroom
    rw [if_neg (by omega), if_pos (by omega), if_pos ⟨trivial, by omega⟩, if_neg hge]
    refine ⟨rfl, ?_⟩
    rw [fill_cons, fill_cons, fill_nil, Int.toNat_natCast, hmask, Nat.shiftRight_eq_div_pow,
      show 0xD800 + c.toNat / 2 ^ 10 - 0x40 = 0xD800 + (c.toNat - 0x10000) / 0x400 by omega,
      show c.toNat % 2 ^ 10 = (c.toNat - 0x10000) % 0x400 by omega]
    exact Function.update_comm (by omega) _ _ _

theorem put_enc {c : Char} (h : c.toNat ≠ 0) {g : Ufmt} (hup : g = .utf16 → c.toNat ≤ 0xEFFFF) {dlen : Nat}
    (hroom : (enc g c).length ≤ dlen) (m : Nat → BitVec g.bits) (off : Nat) :
    (put g c.toNat true dlen).1 = (enc g c).length ∧
      stored m off (put g c.toNat true dlen).2 = fill m off (enc g c) := by
  have hv := toNat_valid c
  have hu : ((c.toNat : Int) % 2 ^ 32).toNat = c.toNat := by omega
  cases g with
  | utf8 =>
    simp only [put, hu]
    exact put8_enc h hroom m off
  | utf16 => exact put16_enc h (hup rfl) hroom m off
  | utf32 =>
    change 1 ≤ dlen at hroom
    simp only [put, hu, put32, enc]
    rw [if_pos ⟨trivial, by omega⟩]
    refine ⟨rfl, ?_⟩
    rw [fill_cons, fill_nil]
    rfl

theorem put_enc_length {c : Char} (h : c.toNat ≠ 0) {g : Ufmt} (hup : g = .utf16 → c.toNat ≤ 0xEFFFF) (des : Bool)
    (dlen : Nat) : (put g c.toNat des dlen).1 = (enc g c).length := by
  rw [put_length, ← put_length g c.toNat true (enc g c).length]
  exact (put_enc h hup le_rfl (fun _ => 0) 0).1

theorem enc_pos (f : Ufmt) (c : Char) : 0 < (enc f c).length := by
  cases f with
  | utf8 =>
    obtain ⟨-, he⟩ | ⟨-, -, he⟩ | ⟨-, -, he⟩ | ⟨-, -, he⟩ := enc8_cases c
    all_goals
      rw [he]
      exact Nat.succ_pos _
  | utf16 =>
    rw [enc]
    split <;> exact Nat.succ_pos _
  | utf32 => exact Nat.one_pos

/-! ## Strings -/

theorem stored_append {g : Ufmt} (m : Nat → BitVec g.bits) (off : Nat) (ws vs : Stores g) :
    stored m 0 (ws.map (fun x => (off + x.1, x.2)) ++ vs) = stored (stored m off ws) 0 vs := by
  simp only [stored, List.foldl_append, List.foldl_map, Nat.zero_add]

section Loop

variable {signed : Bool} {f g : Ufmt}

theorem loop_enc (signed : Bool) (f : Ufmt) (n : Nat) (des : Bool) (s : List Char)
    (hs : ∀ c ∈ s, c.toNat ≠ 0 ∧ (g = .utf16 → c.toNat ≤ 0xEFFFF)) (fuel : Nat)
    (hfuel : (s.flatMap (enc f)).length ≤ fuel) (off num : Nat) :
    (loop signed f g des fuel (s.flatMap (enc f)) (n - off) off num).1 = num + (s.flatMap (enc g)).length ∧
      (des = true → off + (s.flatMap (enc g)).length ≤ n → ∀ m,
        stored m 0 (loop signed f g des fuel (s.flatMap (enc f)) (n - off) off num).2 =
          fill m off (s.flatMap (enc g))) := by
  induction s generalizing fuel off num with
  | nil =>
    cases fuel with
    | zero => exact ⟨rfl, fun _ _ m => (fill_nil m off).symm⟩
    | succ fuel => exact ⟨rfl, fun _ _ m => (fill_nil m off).symm⟩
  | cons c s ih =>
    obtain ⟨h, hup⟩ := hs c (List.mem_cons_self ..)
    have hpos := enc_pos f c
    have hlen := put_enc_length h hup des (n - off)
    simp only [List.flatMap_cons, List.length_append] at hfuel ⊢
    obtain ⟨fuel, rfl⟩ : ∃ k, fuel = k + 1 := ⟨fuel - 1, by omega⟩
    obtain ⟨hnum, hstore⟩ := ih (fun d hd => hs d (List.mem_cons_of_mem _ hd)) fuel (by omega)
      (off + (enc g c).length) (num + (enc g c).length)
    rw [← Nat.sub_sub] at hnum hstore
    simp only [loop, get_enc h, if_neg (enc_head h f _), hlen, if_neg (enc_pos g c).ne', List.drop_left]
    refine ⟨by rw [hnum, Nat.add_assoc], fun hdes hroom m => ?_⟩
    subst hdes
    rw [stored_append, (put_enc h hup (by omega) m off).2, hstore rfl (by omega), fill_append]

theorem cvtCstr_loop (hfg : f ≠ g) (src : List (BitVec f.bits)) (des : Bool) (dlen : Nat) :
    cvtCstr signed f g src des dlen = loop signed f g des src.length src dlen 0 0 := by
  cases f <;> cases g <;> first | rfl | exact absurd rfl hfg

theorem cvtSstr_enc (hfg : f ≠ g) {s : List Char} (hs : ∀ c ∈ s, c.toNat ≠ 0 ∧ (g = .utf16 → c.toNat ≤ 0xEFFFF)) :
    cvtSstr signed f g (s.flatMap (enc f)) = s.flatMap (enc g) := by
  have hnull := (loop_enc signed f 0 false s hs _ le_rfl 0 0).1
  have hpass := (loop_enc signed f (s.flatMap (enc g)).length true s hs _ le_rfl 0 0).2 rfl
    (by rw [Nat.zero_add])
  rw [Nat.zero_add] at hnull
  simp only [Nat.sub_zero] at hpass
  simp only [cvtSstr, cvtCstr_loop hfg]
  rw [hnull, hpass, range_fill]

end Loop

end ThothIpc.Codecvt
