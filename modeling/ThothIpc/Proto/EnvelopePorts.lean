import ThothIpc.Proto.Envelope

/-!
# The envelope in C++ and in Swift

`secure_codec.h`, `append_secure_envelope` and `parse_secure_envelope`, and `SecureCodec.swift`, `SecureEnvelopeV1`. The
sums of sizes wrap in C++ and trap in Swift, and each parser cuts the payload in its own way.

* `Cpp.parse_eq`, `Swift.parse_eq` : what they make of a header, as `parse_eq` of the Rust parser;
* `ports_agree` : the three parsers and the three builders are the same functions.

A trap is a fault, as an access outside the data is. `std::size_t` has 64 bits and `Int` 63 and a sign.
-/

namespace ThothIpc.Envelope
open Bytes

namespace Cpp

/-- A null pointer is `none`. -/
def readU16Le (data : Option (List Byte)) (offset : Nat) : Except Fault (Option (BitVec 16)) :=
  match data with
  | none => .ok none
  | some data => Envelope.readU16Le data offset

def readU32Le (data : Option (List Byte)) (offset : Nat) : Except Fault (Option (BitVec 32)) :=
  match data with
  | none => .ok none
  | some data => Envelope.readU32Le data offset

/-- What is appended to `out`. -/
def appendSecureEnvelope (out : List Byte) (algorithmId : BitVec 16) (keyId : BitVec 32)
    (nonce ciphertext tag : List Byte) : Bool × List Byte :=
  if nonce.length > 65535 then (false, out)
  else if tag.length > 65535 then (false, out)
  else if ciphertext.length > 4294967295 then (false, out)
  else
    let out := out ++ magic ++ [version]
    let out := appendU16Le out algorithmId
    let out := appendU32Le out keyId
    let out := appendU16Le out (BitVec.ofNat 16 nonce.length)
    let out := appendU16Le out (BitVec.ofNat 16 tag.length)
    let out := appendU32Le out (BitVec.ofNat 32 ciphertext.length)
    (true, out ++ nonce ++ ciphertext ++ tag)

def parseSecureEnvelope (data : Option (List Byte)) : Except Fault (Option View) := do
  let some bytes := data | return none
  if bytes.length < fixedHeaderSize then return none
  if (← slice bytes 0 magic.length) ≠ magic then return none
  if (← index bytes offsetVersion) ≠ version then return none
  let some algorithmId ← readU16Le data offsetAlgorithmId | return none
  let some keyId ← readU32Le data offsetKeyId | return none
  let some nonceSize ← readU16Le data offsetNonceSize | return none
  let some tagSize ← readU16Le data offsetTagSize | return none
  let some ciphertextSize ← readU32Le data offsetCiphertextSize | return none
  let payloadSize := (nonceSize.toNat + ciphertextSize.toNat + tagSize.toNat) % 2 ^ 64
  if payloadSize > bytes.length then return none
  if bytes.length - fixedHeaderSize ≠ payloadSize then return none
  let ciphertext := fixedHeaderSize + nonceSize.toNat
  let tag := ciphertext + ciphertextSize.toNat
  return some ⟨algorithmId, keyId, ← slice bytes fixedHeaderSize (fixedHeaderSize + nonceSize.toNat),
    ← slice bytes ciphertext (ciphertext + ciphertextSize.toNat), ← slice bytes tag (tag + tagSize.toNat)⟩

theorem parse_eq {data m : List Byte} {v : Byte} {a : BitVec 16} {k : BitVec 32} {n t : BitVec 16} {c : BitVec 32}
    (hread : Reads data m v a k n t c) : parseSecureEnvelope (some data) = Envelope.parseSecureEnvelope data := by
  rw [Envelope.parse_eq hread]
  obtain ⟨hlen, hm, hv, ha, hk, hn, ht, hc⟩ := hread
  simp only [parseSecureEnvelope, readU16Le, readU32Le]
  rw [if_neg (Nat.not_lt.mpr hlen), hm, hv, ha, hk, hn, ht, hc]
  simp only [bind, Except.bind, pure, Except.pure]
  by_cases hmagic : m = magic
  swap
  · rw [if_pos hmagic, if_neg fun h => hmagic h.1]
  by_cases hversion : v = version
  swap
  · rw [if_neg (not_not.mpr hmagic), if_pos hversion, if_neg fun h => hversion h.2.1]
  have hsum : n.toNat + c.toNat + t.toNat < 2 ^ 64 := by omega
  rw [if_neg (not_not.mpr hmagic), if_neg (not_not.mpr hversion), Nat.mod_eq_of_lt hsum]
  by_cases hsize : n.toNat + c.toNat + t.toNat = data.length - fixedHeaderSize
  swap
  · rw [if_pos (Ne.symm hsize), ite_self]
    exact congrArg Except.ok (if_neg fun h => hsize h.2.2).symm
  rw [if_neg (by omega), if_neg (not_not.mpr hsize.symm), if_pos ⟨hmagic, hversion, hsize⟩,
    slice_eq (by omega) (by omega), slice_eq (by omega) (by omega), slice_eq (by omega) (by omega)]
  simp only [Nat.add_sub_cancel_left, List.drop_drop, ← Nat.add_assoc]
  rw [List.take_of_length_le (i := t.toNat) (by rw [List.length_drop]; omega)]

end Cpp

namespace Swift

/-- A sum that traps. -/
def add (a b : Nat) : Except Fault Nat :=
  match checkedAdd 63 a b with
  | some c => .ok c
  | none => .error .bounds

/-- A conversion that traps. -/
def uint (w n : Nat) : Except Fault (BitVec w) := if n < 2 ^ w then .ok (BitVec.ofNat w n) else .error .bounds

theorem add_eq {a b : Nat} (h : a + b < 2 ^ 63) : add a b = .ok (a + b) := by
  rw [add, checkedAdd_eq h]

def build (algorithmId : BitVec 16) (keyId : BitVec 32) (nonce ciphertext tag : List Byte) :
    Except Fault (Option (List Byte)) := do
  if nonce.length > 65535 then return none
  if tag.length > 65535 then return none
  if ciphertext.length > 4294967295 then return none
  let _ ← add (← add (← add fixedHeaderSize nonce.length) ciphertext.length) tag.length
  let out := magic ++ [version]
  let out := appendU16Le out algorithmId
  let out := appendU32Le out keyId
  let out := appendU16Le out (← uint 16 nonce.length)
  let out := appendU16Le out (← uint 16 tag.length)
  let out := appendU32Le out (← uint 32 ciphertext.length)
  return some (out ++ nonce ++ ciphertext ++ tag)

def parse (bytes : List Byte) : Except Fault (Option View) := do
  if bytes.length < fixedHeaderSize then return none
  if (← slice bytes 0 magic.length) ≠ magic then return none
  if (← index bytes offsetVersion) ≠ version then return none
  let some algorithmId ← readU16Le bytes offsetAlgorithmId | return none
  let some keyId ← readU32Le bytes offsetKeyId | return none
  let some nonceSize ← readU16Le bytes offsetNonceSize | return none
  let some tagSize ← readU16Le bytes offsetTagSize | return none
  let some ciphertextSize ← readU32Le bytes offsetCiphertextSize | return none
  let payloadCount ← add (← add nonceSize.toNat ciphertextSize.toNat) tagSize.toNat
  if (payloadCount : Int) < 0 then return none
  if bytes.length - fixedHeaderSize ≠ payloadCount then return none
  let nonceEnd ← add fixedHeaderSize nonceSize.toNat
  let ciphertextEnd ← add nonceEnd ciphertextSize.toNat
  let tagEnd ← add ciphertextEnd tagSize.toNat
  return some ⟨algorithmId, keyId, ← slice bytes fixedHeaderSize nonceEnd, ← slice bytes nonceEnd ciphertextEnd,
    ← slice bytes ciphertextEnd tagEnd⟩

theorem parse_eq {data m : List Byte} {v : Byte} {a : BitVec 16} {k : BitVec 32} {n t : BitVec 16} {c : BitVec 32}
    (hread : Reads data m v a k n t c) : parse data = parseSecureEnvelope data := by
  rw [Envelope.parse_eq hread]
  obtain ⟨hlen, hm, hv, ha, hk, hn, ht, hc⟩ := hread
  unfold parse
  rw [if_neg (Nat.not_lt.mpr hlen), hm, hv, ha, hk, hn, ht, hc]
  simp only [bind, Except.bind, pure, Except.pure]
  by_cases hmagic : m = magic
  swap
  · rw [if_pos hmagic, if_neg fun h => hmagic h.1]
  by_cases hversion : v = version
  swap
  · rw [if_neg (not_not.mpr hmagic), if_pos hversion, if_neg fun h => hversion h.2.1]
  have hfixed : fixedHeaderSize = 19 := rfl
  rw [if_neg (not_not.mpr hmagic), if_neg (not_not.mpr hversion)]
  simp only [add_eq (show n.toNat + c.toNat < 2 ^ 63 by omega),
    add_eq (show n.toNat + c.toNat + t.toNat < 2 ^ 63 by omega),
    add_eq (show fixedHeaderSize + n.toNat < 2 ^ 63 by omega),
    add_eq (show fixedHeaderSize + n.toNat + c.toNat < 2 ^ 63 by omega),
    add_eq (show fixedHeaderSize + n.toNat + c.toNat + t.toNat < 2 ^ 63 by omega)]
  rw [if_neg (by omega)]
  by_cases hsize : n.toNat + c.toNat + t.toNat = data.length - fixedHeaderSize
  swap
  · rw [if_pos (Ne.symm hsize), if_neg fun h => hsize h.2.2]
  rw [if_neg (not_not.mpr hsize.symm), if_pos ⟨hmagic, hversion, hsize⟩, slice_eq (by omega) (by omega),
    slice_eq (by omega) (by omega), slice_eq (by omega) (by omega)]
  simp only [Nat.add_sub_cancel_left, List.drop_drop, ← Nat.add_assoc]
  rw [List.take_of_length_le (i := t.toNat) (by rw [List.length_drop]; omega)]

end Swift

theorem build_none {a : BitVec 16} {k : BitVec 32} {nonce ciphertext tag : List Byte}
    (h : ¬ (nonce.length < 2 ^ 16 ∧ tag.length < 2 ^ 16 ∧ ciphertext.length < 2 ^ 32)) :
    buildSecureEnvelope a k nonce ciphertext tag = none := by
  refine Option.eq_none_iff_forall_ne_some.mpr fun data hb => ?_
  obtain ⟨hn, ht, hc, -⟩ := (build_eq_some_iff (v := ⟨a, k, nonce, ciphertext, tag⟩)).mp hb
  exact h ⟨hn, ht, hc⟩

theorem Cpp.append_eq (out : List Byte) (a : BitVec 16) (k : BitVec 32) (nonce ciphertext tag : List Byte) :
    Cpp.appendSecureEnvelope out a k nonce ciphertext tag =
      match buildSecureEnvelope a k nonce ciphertext tag with
      | some data => (true, out ++ data)
      | none => (false, out) := by
  unfold Cpp.appendSecureEnvelope
  by_cases hfit : nonce.length < 2 ^ 16 ∧ tag.length < 2 ^ 16 ∧ ciphertext.length < 2 ^ 32
  · obtain ⟨hn, ht, hc⟩ := hfit
    have hbuild := (build_eq_some_iff (v := ⟨a, k, nonce, ciphertext, tag⟩)).mpr ⟨hn, ht, hc, rfl⟩
    rw [if_neg (by omega), if_neg (by omega), if_neg (by omega), hbuild]
    simp only [header, appendU16Le, appendU32Le, List.append_assoc]
  · rw [build_none hfit]
    split
    · rfl
    · split
      · rfl
      · rw [if_pos (by omega)]

theorem Swift.build_eq (a : BitVec 16) (k : BitVec 32) (nonce ciphertext tag : List Byte) :
    Swift.build a k nonce ciphertext tag = .ok (buildSecureEnvelope a k nonce ciphertext tag) := by
  have hfixed : fixedHeaderSize = 19 := rfl
  unfold Swift.build
  by_cases hfit : nonce.length < 2 ^ 16 ∧ tag.length < 2 ^ 16 ∧ ciphertext.length < 2 ^ 32
  · obtain ⟨hn, ht, hc⟩ := hfit
    have hbuild := (build_eq_some_iff (v := ⟨a, k, nonce, ciphertext, tag⟩)).mpr ⟨hn, ht, hc, rfl⟩
    rw [if_neg (by omega), if_neg (by omega), if_neg (by omega), hbuild]
    simp only [bind, Except.bind, Swift.uint, if_pos hn, if_pos ht, if_pos hc,
      add_eq (show fixedHeaderSize + nonce.length < 2 ^ 63 by omega),
      add_eq (show fixedHeaderSize + nonce.length + ciphertext.length < 2 ^ 63 by omega),
      add_eq (show fixedHeaderSize + nonce.length + ciphertext.length + tag.length < 2 ^ 63 by omega)]
    rfl
  · rw [build_none hfit]
    split
    · rfl
    · split
      · rfl
      · rw [if_pos (by omega)]
        rfl

/-- **The ports agree.** The three parsers give the same result for every byte string, none with a fault, and refuse a
null pointer; the three builders give the same bytes or refuse alike. -/
theorem ports_agree (data : List Byte) (algorithmId : BitVec 16) (keyId : BitVec 32)
    (nonce ciphertext tag out : List Byte) :
    (∃ r, parseSecureEnvelope data = .ok r) ∧
    Cpp.parseSecureEnvelope (some data) = parseSecureEnvelope data ∧
    Cpp.parseSecureEnvelope none = parseSecureEnvelope [] ∧
    Swift.parse data = parseSecureEnvelope data ∧
    (Cpp.appendSecureEnvelope out algorithmId keyId nonce ciphertext tag =
      match buildSecureEnvelope algorithmId keyId nonce ciphertext tag with
      | some data => (true, out ++ data)
      | none => (false, out)) ∧
    Swift.build algorithmId keyId nonce ciphertext tag =
      .ok (buildSecureEnvelope algorithmId keyId nonce ciphertext tag) := by
  have hparse : Cpp.parseSecureEnvelope (some data) = parseSecureEnvelope data ∧
      Swift.parse data = parseSecureEnvelope data := by
    by_cases hlen : data.length < fixedHeaderSize
    · simp only [Cpp.parseSecureEnvelope, Swift.parse, parseSecureEnvelope, if_pos hlen, and_self]
    · have hlen := Nat.le_of_not_lt hlen
      obtain ⟨m, v, a, k, n, t, c, hread, -⟩ := read_header hlen
      exact ⟨Cpp.parse_eq hread, Swift.parse_eq hread⟩
  obtain ⟨r, hr, -⟩ := parse_spec data
  exact ⟨⟨r, hr⟩, hparse.1, rfl, hparse.2, Cpp.append_eq .., Swift.build_eq ..⟩

end ThothIpc.Envelope
