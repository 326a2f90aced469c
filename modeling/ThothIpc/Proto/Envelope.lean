import ThothIpc.Lib.Bytes

/-!
# The envelope of sealed messages

`secure_codec.rs`, `build_secure_envelope` and `parse_secure_envelope`. An envelope is the magic, a version, the
algorithm and key ids, the sizes of nonce, tag and ciphertext, and then nonce, ciphertext and tag.

* `buildSecureEnvelope`, `parseSecureEnvelope` : as the source has them; an access outside the data is a fault;
* `parse_spec` : parsing never faults, and gives the fields of which the data is the envelope;
* `envelope_inverse` : parsing and building are inverse.

`usize` has 64 bits.
-/

namespace ThothIpc.Envelope
open Bytes

/-! ## Building and parsing -/

/-- `"SIPC"`. -/
def magic : List Byte := [0x53, 0x49, 0x50, 0x43]

def version : Byte := 1

abbrev offsetVersion : Nat := 4

abbrev offsetAlgorithmId : Nat := 5

abbrev offsetKeyId : Nat := 7

abbrev offsetNonceSize : Nat := 11

abbrev offsetTagSize : Nat := 13

abbrev offsetCiphertextSize : Nat := 15

abbrev fixedHeaderSize : Nat := 19

/-- `SecureEnvelopeView`. -/
structure View where
  algorithmId : BitVec 16
  keyId : BitVec 32
  nonce : List Byte
  ciphertext : List Byte
  tag : List Byte
  deriving DecidableEq, Repr

def appendU16Le (out : List Byte) (value : BitVec 16) : List Byte := out ++ [byteAt value 0, byteAt value 8]

def appendU32Le (out : List Byte) (value : BitVec 32) : List Byte :=
  out ++ [byteAt value 0, byteAt value 8, byteAt value 16, byteAt value 24]

def readU16Le (data : List Byte) (offset : Nat) : Except Fault (Option (BitVec 16)) := do
  if offset > data.length then return none
  if data.length - offset < 2 then return none
  return some (le16 (← index data offset) (← index data (offset + 1)))

def readU32Le (data : List Byte) (offset : Nat) : Except Fault (Option (BitVec 32)) := do
  if offset > data.length then return none
  if data.length - offset < 4 then return none
  return some (le32 (← index data offset) (← index data (offset + 1)) (← index data (offset + 2))
    (← index data (offset + 3)))

def buildSecureEnvelope (algorithmId : BitVec 16) (keyId : BitVec 32) (nonce ciphertext tag : List Byte) :
    Option (List Byte) := do
  if nonce.length > 65535 then none
  if tag.length > 65535 then none
  if ciphertext.length > 4294967295 then none
  let payloadSize ← checkedAdd 64 (← checkedAdd 64 nonce.length ciphertext.length) tag.length
  let _ ← checkedAdd 64 fixedHeaderSize payloadSize
  let out := magic ++ [version]
  let out := appendU16Le out algorithmId
  let out := appendU32Le out keyId
  let out := appendU16Le out (BitVec.ofNat 16 nonce.length)
  let out := appendU16Le out (BitVec.ofNat 16 tag.length)
  let out := appendU32Le out (BitVec.ofNat 32 ciphertext.length)
  return out ++ nonce ++ ciphertext ++ tag

def parseSecureEnvelope (data : List Byte) : Except Fault (Option View) := do
  if data.length < fixedHeaderSize then return none
  if (← slice data 0 magic.length) ≠ magic then return none
  if (← index data offsetVersion) ≠ version then return none
  let some algorithmId ← readU16Le data offsetAlgorithmId | return none
  let some keyId ← readU32Le data offsetKeyId | return none
  let some nonceSize ← readU16Le data offsetNonceSize | return none
  let some tagSize ← readU16Le data offsetTagSize | return none
  let some ciphertextSize ← readU32Le data offsetCiphertextSize | return none
  let some payloadSize := checkedAdd 64 nonceSize.toNat ciphertextSize.toNat | return none
  let some payloadSize := checkedAdd 64 payloadSize tagSize.toNat | return none
  if payloadSize ≠ data.length - fixedHeaderSize then return none
  let payload ← slice data fixedHeaderSize data.length
  let some ciphertextEnd := checkedAdd 64 nonceSize.toNat ciphertextSize.toNat | return none
  let some tagEnd := checkedAdd 64 ciphertextEnd tagSize.toNat | return none
  if tagEnd ≠ payload.length then return none
  return some ⟨algorithmId, keyId, ← slice payload 0 nonceSize.toNat, ← slice payload nonceSize.toNat ciphertextEnd,
    ← slice payload ciphertextEnd tagEnd⟩

/-! ## What the reads give -/

theorem readU16Le_spec {data : List Byte} {offset : Nat} (h : offset + 2 ≤ data.length) :
    ∃ v, readU16Le data offset = .ok (some v) ∧ (data.drop offset).take 2 = [byteAt v 0, byteAt v 8] := by
  refine ⟨le16 data[offset] data[offset + 1], ?_, ?_⟩
  · unfold readU16Le
    rw [if_neg (by omega), if_neg (by omega), index_eq (by omega), index_eq (by omega)]
    rfl
  · rw [(byteAt_le16 _ _).1, (byteAt_le16 _ _).2, List.drop_eq_getElem_cons (by omega),
      List.drop_eq_getElem_cons (by omega)]
    rfl

theorem readU32Le_spec {data : List Byte} {offset : Nat} (h : offset + 4 ≤ data.length) :
    ∃ v, readU32Le data offset = .ok (some v) ∧
      (data.drop offset).take 4 = [byteAt v 0, byteAt v 8, byteAt v 16, byteAt v 24] := by
  refine ⟨le32 data[offset] data[offset + 1] data[offset + 2] data[offset + 3], ?_, ?_⟩
  · unfold readU32Le
    rw [if_neg (by omega), if_neg (by omega), index_eq (by omega), index_eq (by omega), index_eq (by omega),
      index_eq (by omega)]
    rfl
  · obtain ⟨h0, h1, h2, h3⟩ := byteAt_le32 data[offset] data[offset + 1] data[offset + 2] data[offset + 3]
    rw [h0, h1, h2, h3, List.drop_eq_getElem_cons (by omega), List.drop_eq_getElem_cons (by omega),
      List.drop_eq_getElem_cons (by omega), List.drop_eq_getElem_cons (by omega)]
    rfl

/-! ## The header -/

/-- The first 19 bytes of an envelope. -/
def header (algorithmId : BitVec 16) (keyId : BitVec 32) (nonceSize tagSize : BitVec 16) (ciphertextSize : BitVec 32) :
    List Byte :=
  appendU32Le (appendU16Le (appendU16Le (appendU32Le (appendU16Le (magic ++ [version]) algorithmId) keyId) nonceSize)
    tagSize) ciphertextSize

/-- What the reads of a header give: some magic, a version and five words. -/
structure Reads (data m : List Byte) (v : Byte) (a : BitVec 16) (k : BitVec 32) (n t : BitVec 16) (c : BitVec 32) :
    Prop where
  length : fixedHeaderSize ≤ data.length
  magic : slice data 0 magic.length = .ok m
  version : index data offsetVersion = .ok v
  algorithmId : readU16Le data offsetAlgorithmId = .ok (some a)
  keyId : readU32Le data offsetKeyId = .ok (some k)
  nonceSize : readU16Le data offsetNonceSize = .ok (some n)
  tagSize : readU16Le data offsetTagSize = .ok (some t)
  ciphertextSize : readU32Le data offsetCiphertextSize = .ok (some c)

theorem read_header {data : List Byte} (h : fixedHeaderSize ≤ data.length) :
    ∃ m v a k n t c, Reads data m v a k n t c ∧ data.take fixedHeaderSize =
        appendU32Le (appendU16Le (appendU16Le (appendU32Le (appendU16Le (m ++ [v]) a) k) n) t) c := by
  have h : 19 ≤ data.length := h
  obtain ⟨a, ha, ha'⟩ := readU16Le_spec (show 5 + 2 ≤ data.length by omega)
  obtain ⟨k, hk, hk'⟩ := readU32Le_spec (show 7 + 4 ≤ data.length by omega)
  obtain ⟨n, hn, hn'⟩ := readU16Le_spec (show 11 + 2 ≤ data.length by omega)
  obtain ⟨t, ht, ht'⟩ := readU16Le_spec (show 13 + 2 ≤ data.length by omega)
  obtain ⟨c, hc, hc'⟩ := readU32Le_spec (show 15 + 4 ≤ data.length by omega)
  refine ⟨data.take 4, data[4], a, k, n, t, c,
    ⟨h, slice_eq (j := 4) (by omega) (by omega), index_eq (i := 4) (by omega), ha, hk, hn, ht, hc⟩, ?_⟩
  have hv : [data[4]] = (data.drop 4).take 1 := by
    rw [List.drop_eq_getElem_cons (by omega)]
    rfl
  unfold appendU32Le appendU16Le
  rw [← ha', ← hk', ← hn', ← ht', ← hc', hv]
  simp only [← List.take_add]

theorem length_header {a : BitVec 16} {k : BitVec 32} {n t : BitVec 16} {c : BitVec 32} :
    (header a k n t c).length = fixedHeaderSize := rfl

theorem header_inj {m : List Byte} {v : Byte} {a a' : BitVec 16} {k k' : BitVec 32} {n n' t t' : BitVec 16}
    {c c' : BitVec 32} (h : header a k n t c =
      appendU32Le (appendU16Le (appendU16Le (appendU32Le (appendU16Le (m ++ [v]) a') k') n') t') c') :
    m = magic ∧ v = version ∧ a' = a ∧ k' = k ∧ n' = n ∧ t' = t ∧ c' = c := by
  have h16 : ∀ {x y : BitVec 16}, [byteAt x 0, byteAt x 8] = [byteAt y 0, byteAt y 8] → y = x := by
    intro x y hxy
    obtain ⟨h0, hxy⟩ := List.cons.inj hxy
    obtain ⟨h1, -⟩ := List.cons.inj hxy
    rw [← le16_byteAt x, ← le16_byteAt y, h0, h1]
  have h32 : ∀ {x y : BitVec 32}, [byteAt x 0, byteAt x 8, byteAt x 16, byteAt x 24] =
      [byteAt y 0, byteAt y 8, byteAt y 16, byteAt y 24] → y = x := by
    intro x y hxy
    obtain ⟨h0, hxy⟩ := List.cons.inj hxy
    obtain ⟨h1, hxy⟩ := List.cons.inj hxy
    obtain ⟨h2, hxy⟩ := List.cons.inj hxy
    obtain ⟨h3, -⟩ := List.cons.inj hxy
    rw [← le32_byteAt x, ← le32_byteAt y, h0, h1, h2, h3]
  obtain ⟨h, hc⟩ := List.append_inj' h rfl
  obtain ⟨h, ht⟩ := List.append_inj' h rfl
  obtain ⟨h, hn⟩ := List.append_inj' h rfl
  obtain ⟨h, hk⟩ := List.append_inj' h rfl
  obtain ⟨h, ha⟩ := List.append_inj' h rfl
  obtain ⟨hm, hv⟩ := List.append_inj' h rfl
  exact ⟨hm.symm, (List.cons.inj hv).1.symm, h16 ha, h32 hk, h16 hn, h16 ht, h32 hc⟩

/-! ## Building -/

theorem build_eq_some_iff {v : View} {data : List Byte} :
    buildSecureEnvelope v.algorithmId v.keyId v.nonce v.ciphertext v.tag = some data ↔
      v.nonce.length < 2 ^ 16 ∧ v.tag.length < 2 ^ 16 ∧ v.ciphertext.length < 2 ^ 32 ∧
      data = header v.algorithmId v.keyId (BitVec.ofNat 16 v.nonce.length) (BitVec.ofNat 16 v.tag.length)
        (BitVec.ofNat 32 v.ciphertext.length) ++ v.nonce ++ v.ciphertext ++ v.tag := by
  unfold buildSecureEnvelope
  by_cases hn : v.nonce.length > 65535
  · rw [if_pos hn]
    constructor
    · intro h
      cases h
    · omega
  by_cases ht : v.tag.length > 65535
  · rw [if_neg hn, if_pos ht]
    constructor
    · intro h
      cases h
    · omega
  by_cases hc : v.ciphertext.length > 4294967295
  · rw [if_neg hn, if_neg ht, if_pos hc]
    constructor
    · intro h
      cases h
    · omega
  rw [if_neg hn, if_neg ht, if_neg hc, checkedAdd_eq (by omega)]
  simp only [Option.bind_eq_bind, Option.bind_some]
  rw [checkedAdd_eq (by omega), Option.bind_some, checkedAdd_eq (by show 19 + _ < _; omega), Option.bind_some]
  constructor
  · intro h
    exact ⟨by omega, by omega, by omega, (Option.some.inj h).symm⟩
  · rintro ⟨-, -, -, rfl⟩
    rfl

/-! ## Parsing -/

theorem parse_eq {data m : List Byte} {v : Byte} {a : BitVec 16} {k : BitVec 32} {n t : BitVec 16} {c : BitVec 32}
    (hread : Reads data m v a k n t c) : parseSecureEnvelope data = .ok (if m = magic ∧ v = version ∧
        n.toNat + c.toNat + t.toNat = data.length - fixedHeaderSize
      then some ⟨a, k, (data.drop fixedHeaderSize).take n.toNat, ((data.drop fixedHeaderSize).drop n.toNat).take c.toNat,
        (data.drop fixedHeaderSize).drop (n.toNat + c.toNat)⟩
      else none) := by
  obtain ⟨hlen, hm, hv, ha, hk, hn, ht, hc⟩ := hread
  unfold parseSecureEnvelope
  rw [if_neg (Nat.not_lt.mpr hlen), hm, hv, ha, hk, hn, ht, hc]
  simp only [bind, Except.bind, pure, Except.pure]
  by_cases hmagic : m = magic
  swap
  · rw [if_pos hmagic, if_neg fun h => hmagic h.1]
  by_cases hversion : v = version
  swap
  · rw [if_neg (not_not.mpr hmagic), if_pos hversion, if_neg fun h => hversion h.2.1]
  have hsum : n.toNat + c.toNat + t.toNat < 2 ^ 64 := by omega
  have hpart : n.toNat + c.toNat < 2 ^ 64 := by omega
  rw [if_neg (not_not.mpr hmagic), if_neg (not_not.mpr hversion)]
  simp only [checkedAdd_eq hpart, checkedAdd_eq hsum]
  by_cases hsize : n.toNat + c.toNat + t.toNat = data.length - fixedHeaderSize
  swap
  · rw [if_pos hsize, if_neg fun h => hsize h.2.2]
  have hpayload : (data.drop fixedHeaderSize).length = n.toNat + c.toNat + t.toNat := by
    rw [List.length_drop, hsize]
  rw [if_neg (not_not.mpr hsize), slice_eq hlen (Nat.le_refl _), List.take_of_length_le (by rw [List.length_drop]),
    if_pos ⟨hmagic, hversion, hsize⟩]
  generalize data.drop fixedHeaderSize = payload at hpayload ⊢
  simp only [ne_eq, hpayload, not_true, if_false]
  rw [slice_eq (Nat.zero_le _) (by omega), slice_eq (Nat.le_add_right _ _) (by omega),
    slice_eq (Nat.le_add_right _ _) (by omega)]
  have htag : (payload.drop (n.toNat + c.toNat)).take t.toNat = payload.drop (n.toNat + c.toNat) :=
    List.take_of_length_le (by rw [List.length_drop]; omega)
  simp only [htag, List.drop_zero, Nat.sub_zero, Nat.add_sub_cancel_left]

/-- **Parsing.** It never faults, and its result is the fields of which the data is the envelope. -/
theorem parse_spec (data : List Byte) : ∃ r, parseSecureEnvelope data = .ok r ∧ ∀ v, r = some v ↔
    buildSecureEnvelope v.algorithmId v.keyId v.nonce v.ciphertext v.tag = some data := by
  by_cases hlen : data.length < fixedHeaderSize
  · refine ⟨none, by unfold parseSecureEnvelope; rw [if_pos hlen]; rfl, fun v => ⟨(fun h => by cases h), fun h => ?_⟩⟩
    obtain ⟨-, -, -, rfl⟩ := build_eq_some_iff.mp h
    simp only [List.length_append, length_header] at hlen
    omega
  have hlen := Nat.le_of_not_lt hlen
  obtain ⟨m, v, a, k, n, t, c, hread, htake⟩ := read_header hlen
  refine ⟨_, parse_eq hread, fun w => ?_⟩
  rw [build_eq_some_iff]
  constructor
  · intro h
    split_ifs at h with hok
    obtain ⟨rfl, rfl, hsize⟩ := hok
    cases h
    have hpayload : (data.drop fixedHeaderSize).length = n.toNat + c.toNat + t.toNat := by
      rw [List.length_drop, hsize]
    have hdata := (List.take_append_drop fixedHeaderSize data).symm
    rw [htake] at hdata
    generalize data.drop fixedHeaderSize = payload at hpayload hdata ⊢
    have hnonce : (payload.take n.toNat).length = n.toNat := by
      rw [List.length_take]
      omega
    have hciphertext : ((payload.drop n.toNat).take c.toNat).length = c.toNat := by
      rw [List.length_take, List.length_drop]
      omega
    have htag : (payload.drop (n.toNat + c.toNat)).length = t.toNat := by
      rw [List.length_drop]
      omega
    simp only [hnonce, hciphertext, htag, BitVec.ofNat_toNat, BitVec.setWidth_eq]
    refine ⟨n.isLt, t.isLt, c.isLt, hdata.trans ?_⟩
    rw [List.append_assoc, List.append_assoc, ← List.drop_drop, List.take_append_drop, List.take_append_drop]
    rfl
  · rintro ⟨hwn, hwt, hwc, hdata⟩
    have hhead : data.take fixedHeaderSize = header w.algorithmId w.keyId (BitVec.ofNat 16 w.nonce.length)
        (BitVec.ofNat 16 w.tag.length) (BitVec.ofNat 32 w.ciphertext.length) := by
      rw [hdata, List.append_assoc, List.append_assoc]
      exact List.take_left' length_header
    have hrest : data.drop fixedHeaderSize = w.nonce ++ (w.ciphertext ++ w.tag) := by
      rw [hdata, List.append_assoc, List.append_assoc]
      exact List.drop_left' length_header
    obtain ⟨rfl, rfl, rfl, rfl, rfl, rfl, rfl⟩ := header_inj (hhead.symm.trans htake)
    have hn : (BitVec.ofNat 16 w.nonce.length).toNat = w.nonce.length := by
      rw [BitVec.toNat_ofNat]
      exact Nat.mod_eq_of_lt hwn
    have hc : (BitVec.ofNat 32 w.ciphertext.length).toNat = w.ciphertext.length := by
      rw [BitVec.toNat_ofNat]
      exact Nat.mod_eq_of_lt hwc
    have ht : (BitVec.ofNat 16 w.tag.length).toNat = w.tag.length := by
      rw [BitVec.toNat_ofNat]
      exact Nat.mod_eq_of_lt hwt
    have hlen : data.length - fixedHeaderSize = w.nonce.length + w.ciphertext.length + w.tag.length := by
      rw [← List.length_drop, hrest]
      simp only [List.length_append]
      omega
    rw [hn, hc, ht, hlen, hrest, if_pos ⟨rfl, rfl, rfl⟩, List.take_left, List.drop_left, List.take_left,
      ← List.drop_drop, List.drop_left, List.drop_left]

/-- **Parsing and building are inverse.** What is built of fields that fit parses to those fields; what parses is what
its fields are built to. -/
theorem envelope_inverse (data : List Byte) (algorithmId : BitVec 16) (keyId : BitVec 32)
    (nonce ciphertext tag : List Byte) (hn : nonce.length ≤ 65535) (ht : tag.length ≤ 65535)
    (hc : ciphertext.length ≤ 2 ^ 32 - 1) :
    (∃ built, buildSecureEnvelope algorithmId keyId nonce ciphertext tag = some built ∧
      parseSecureEnvelope built = .ok (some ⟨algorithmId, keyId, nonce, ciphertext, tag⟩)) ∧
    (∀ v, parseSecureEnvelope data = .ok (some v) →
      buildSecureEnvelope v.algorithmId v.keyId v.nonce v.ciphertext v.tag = some data) ∧
    ((∃ v, parseSecureEnvelope data = .ok (some v)) ↔
      ∃ a k n c t, buildSecureEnvelope a k n c t = some data) ∧
    ∃ r, parseSecureEnvelope data = .ok r := by
  obtain ⟨r, hr, hspec⟩ := parse_spec data
  refine ⟨?_, fun v hv => ?_, ⟨?_, ?_⟩, r, hr⟩
  · obtain ⟨r', hr', hspec'⟩ := parse_spec (header algorithmId keyId (BitVec.ofNat 16 nonce.length)
      (BitVec.ofNat 16 tag.length) (BitVec.ofNat 32 ciphertext.length) ++ nonce ++ ciphertext ++ tag)
    have hbuild := build_eq_some_iff (v := ⟨algorithmId, keyId, nonce, ciphertext, tag⟩) |>.mpr
      ⟨by simp only; omega, by simp only; omega, by simp only; omega, rfl⟩
    exact ⟨_, hbuild, by rw [hr', (hspec' ⟨algorithmId, keyId, nonce, ciphertext, tag⟩).mpr hbuild]⟩
  · rw [hr] at hv
    exact (hspec v).mp (Except.ok.inj hv)
  · rintro ⟨v, hv⟩
    rw [hr] at hv
    exact ⟨_, _, _, _, _, (hspec v).mp (Except.ok.inj hv)⟩
  · rintro ⟨a, k, n, c, t, hb⟩
    exact ⟨⟨a, k, n, c, t⟩, by rw [hr, (hspec ⟨a, k, n, c, t⟩).mpr hb]⟩

theorem envelope_inverse_small :
    (∃ built, buildSecureEnvelope 1 2 [3, 4] [5] [] = some built ∧
      parseSecureEnvelope built = .ok (some ⟨1, 2, [3, 4], [5], []⟩)) ∧
    (∀ v, parseSecureEnvelope [0x53] = .ok (some v) →
      buildSecureEnvelope v.algorithmId v.keyId v.nonce v.ciphertext v.tag = some [0x53]) ∧
    ((∃ v, parseSecureEnvelope [0x53] = .ok (some v)) ↔ ∃ a k n c t, buildSecureEnvelope a k n c t = some [0x53]) ∧
    ∃ r, parseSecureEnvelope [0x53] = .ok r :=
  envelope_inverse [0x53] 1 2 [3, 4] [5] [] (by decide) (by decide) (by decide)

end ThothIpc.Envelope
