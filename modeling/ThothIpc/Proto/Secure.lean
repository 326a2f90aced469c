import ThothIpc.Proto.Envelope

/-!
# The secure codec

`secure_codec.rs`, `SecureBuilder::from_inner` and `SecureCodec::decode`. A message is encoded by the inner codec,
sealed, and framed; a received byte string is parsed, its ids are compared, and it is opened. Whatever fails is decoded
as the empty message.

* `fromInner`, `plainOf`, `decode` : as the source has them, over any inner codec and any cipher;
* `Authentic` : the cipher opens only what was sealed, to what was sealed;
* `decode_authentic` : the inner codec gets a plaintext only for an envelope that `fromInner` made.

What `seal` gives, which may be random, is part of each call of `fromInner`.
-/

namespace ThothIpc.Secure
open Bytes Envelope

/-! ## The codec -/

/-- An inner codec: builders to bytes, bytes to messages. -/
structure Codec (β μ : Type) where
  encode : β → List Byte
  decode : List Byte → μ

@[ext] structure Sealed where
  nonce : List Byte
  ciphertext : List Byte
  tag : List Byte
  deriving DecidableEq, Repr

/-- A cipher: its ids and its `open`. -/
structure Cipher where
  algorithmId : BitVec 16
  keyId : BitVec 32
  openSealed : Sealed → Option (List Byte)

/-- A call of `from_inner`: its builder, and what `seal` gives in it. -/
structure Call (β : Type) where
  inner : β
  sealed : Option Sealed

variable {β μ : Type}

/-- `SecureBuilder::from_inner`: the bytes of the builder. -/
def fromInner (codec : Codec β μ) (cipher : Cipher) (call : Call β) : List Byte :=
  if codec.encode call.inner = [] then []
  else
    match call.sealed with
    | none => []
    | some s =>
      match buildSecureEnvelope cipher.algorithmId cipher.keyId s.nonce s.ciphertext s.tag with
      | none => []
      | some bytes => bytes

/-- What `SecureCodec::decode` gives to the inner codec. -/
def plainOf (cipher : Cipher) (buf : List Byte) : Except Fault (List Byte) := do
  if buf = [] then return []
  let some envelope ← parseSecureEnvelope buf | return []
  if envelope.algorithmId ≠ cipher.algorithmId then return []
  if envelope.keyId ≠ cipher.keyId then return []
  let some plain := cipher.openSealed ⟨envelope.nonce, envelope.ciphertext, envelope.tag⟩ | return []
  return plain

def decode (codec : Codec β μ) (cipher : Cipher) (buf : List Byte) : Except Fault μ := do
  return codec.decode (← plainOf cipher buf)

/-! ## Authenticity -/

/-- The cipher opens only what a call of `fromInner` has sealed, and to the plaintext that was sealed. -/
structure Authentic (codec : Codec β μ) (cipher : Cipher) (calls : Set (Call β)) : Prop where
  sealed : ∀ s plain, cipher.openSealed s = some plain →
    ∃ call ∈ calls, codec.encode call.inner ≠ [] ∧ call.sealed = some s
  plain : ∀ s plain, cipher.openSealed s = some plain →
    ∀ call ∈ calls, codec.encode call.inner ≠ [] → call.sealed = some s → plain = codec.encode call.inner

variable {codec : Codec β μ} {cipher : Cipher}

theorem fromInner_eq_iff {call : Call β} {buf : List Byte} (hbuf : buf ≠ []) :
    fromInner codec cipher call = buf ↔ codec.encode call.inner ≠ [] ∧ ∃ s, call.sealed = some s ∧
      buildSecureEnvelope cipher.algorithmId cipher.keyId s.nonce s.ciphertext s.tag = some buf := by
  unfold fromInner
  constructor
  · intro h
    split_ifs at h with hempty
    · exact absurd h.symm hbuf
    refine ⟨hempty, ?_⟩
    split at h
    · exact absurd h.symm hbuf
    case h_2 s hs =>
      split at h
      · exact absurd h.symm hbuf
      case h_2 bytes hbuild => exact ⟨s, hs, h ▸ hbuild⟩
  · rintro ⟨hempty, s, hs, hbuild⟩
    rw [if_neg hempty, hs]
    simp only [hbuild]

/-- What the inner codec gets is nothing, or what the cipher opens of the parsed envelope with its own ids. -/
theorem plainOf_cases (cipher : Cipher) (buf : List Byte) : ∃ plain, plainOf cipher buf = .ok plain ∧
    (plain = [] ∨ buf ≠ [] ∧ ∃ s, cipher.openSealed s = some plain ∧
      buildSecureEnvelope cipher.algorithmId cipher.keyId s.nonce s.ciphertext s.tag = some buf) := by
  unfold plainOf
  by_cases hbuf : buf = []
  · rw [if_pos hbuf]
    exact ⟨[], rfl, Or.inl rfl⟩
  obtain ⟨r, hr, hspec⟩ := parse_spec buf
  rw [if_neg hbuf, hr]
  simp only [bind, Except.bind, pure, Except.pure]
  cases r with
  | none => exact ⟨[], rfl, Or.inl rfl⟩
  | some e =>
    simp only
    by_cases ha : e.algorithmId = cipher.algorithmId
    swap
    · rw [if_pos ha]
      exact ⟨[], rfl, Or.inl rfl⟩
    by_cases hk : e.keyId = cipher.keyId
    swap
    · rw [if_neg (not_not.mpr ha), if_pos hk]
      exact ⟨[], rfl, Or.inl rfl⟩
    rw [if_neg (not_not.mpr ha), if_neg (not_not.mpr hk)]
    cases ho : cipher.openSealed ⟨e.nonce, e.ciphertext, e.tag⟩ with
    | none => exact ⟨[], rfl, Or.inl rfl⟩
    | some plain => exact ⟨plain, rfl, Or.inr ⟨hbuf, _, ho, ha ▸ hk ▸ (hspec e).mp rfl⟩⟩

/-- Two envelopes with the same ids and the same bytes hold the same. -/
theorem sealed_inj {a : BitVec 16} {k : BitVec 32} {s s' : Sealed} {buf : List Byte}
    (h : buildSecureEnvelope a k s.nonce s.ciphertext s.tag = some buf)
    (h' : buildSecureEnvelope a k s'.nonce s'.ciphertext s'.tag = some buf) : s = s' := by
  obtain ⟨r, -, hspec⟩ := parse_spec buf
  have hr := (hspec ⟨a, k, s.nonce, s.ciphertext, s.tag⟩).mpr h
  have hr' := (hspec ⟨a, k, s'.nonce, s'.ciphertext, s'.tag⟩).mpr h'
  obtain ⟨-, -, hn, hc, ht⟩ := View.mk.inj (Option.some.inj (hr.symm.trans hr'))
  exact Sealed.ext hn hc ht

/-- **Fail-closed authenticity.** A plaintext that is not empty is the encoding of the messages that `fromInner` made
this envelope for; any other byte string is decoded as the empty message. -/
theorem decode_authentic {calls : Set (Call β)} (h : Authentic codec cipher calls) (buf : List Byte) :
    ∃ plain, plainOf cipher buf = .ok plain ∧ decode codec cipher buf = .ok (codec.decode plain) ∧
      (plain ≠ [] → (∃ call ∈ calls, fromInner codec cipher call = buf) ∧
        ∀ call ∈ calls, fromInner codec cipher call = buf → plain = codec.encode call.inner) ∧
      ((∀ call ∈ calls, fromInner codec cipher call ≠ buf) → decode codec cipher buf = .ok (codec.decode [])) := by
  obtain ⟨plain, hplain, hcases⟩ := plainOf_cases cipher buf
  have hdecode : decode codec cipher buf = .ok (codec.decode plain) := by
    unfold decode
    rw [hplain]
    rfl
  have hmade : plain ≠ [] → ∃ call ∈ calls, fromInner codec cipher call = buf := by
    intro hne
    obtain ⟨hbuf, s, hopen, hbuild⟩ := hcases.resolve_left hne
    obtain ⟨call, hcall, hempty, hs⟩ := h.sealed s plain hopen
    exact ⟨call, hcall, (fromInner_eq_iff hbuf).mpr ⟨hempty, s, hs, hbuild⟩⟩
  refine ⟨plain, hplain, hdecode, fun hne => ⟨hmade hne, fun call hcall hfrom => ?_⟩, fun hother => ?_⟩
  · obtain ⟨hbuf, s, hopen, hbuild⟩ := hcases.resolve_left hne
    obtain ⟨hempty, s', hs', hbuild'⟩ := (fromInner_eq_iff hbuf).mp hfrom
    rw [sealed_inj hbuild hbuild'] at hopen
    exact h.plain s' plain hopen call hcall hempty hs'
  · have hnil : plain = [] := by
      by_contra hne
      obtain ⟨call, hcall, hfrom⟩ := hmade hne
      exact hother call hcall hfrom
    rw [hdecode, hnil]

def plainCodec : Codec (List Byte) (List Byte) := ⟨id, id⟩

/-- One message has been sealed. -/
def sealedOne : Call (List Byte) := ⟨[6], some ⟨[3], [4], [5]⟩⟩

/-- A cipher that opens nothing else. -/
def cipherOne : Cipher := ⟨1, 2, fun s => if s = ⟨[3], [4], [5]⟩ then some [6] else none⟩

theorem authentic_one : Authentic plainCodec cipherOne {sealedOne} where
  sealed := by
    intro s plain hs
    simp only [cipherOne, Option.ite_none_right_eq_some] at hs
    exact ⟨sealedOne, rfl, by decide, by rw [hs.1]; rfl⟩
  plain := by
    rintro s plain hs call rfl - -
    simp only [cipherOne, Option.ite_none_right_eq_some, Option.some.injEq] at hs
    exact hs.2.symm

theorem decode_authentic_one : plainOf cipherOne (fromInner plainCodec cipherOne sealedOne) = .ok [6] ∧
    ∃ plain, plainOf cipherOne (fromInner plainCodec cipherOne sealedOne) = .ok plain ∧
      decode plainCodec cipherOne (fromInner plainCodec cipherOne sealedOne) = .ok (plainCodec.decode plain) ∧
      (plain ≠ [] → (∃ call ∈ ({sealedOne} : Set _),
          fromInner plainCodec cipherOne call = fromInner plainCodec cipherOne sealedOne) ∧
        ∀ call ∈ ({sealedOne} : Set _), fromInner plainCodec cipherOne call = fromInner plainCodec cipherOne sealedOne →
          plain = plainCodec.encode call.inner) ∧
      ((∀ call ∈ ({sealedOne} : Set _), fromInner plainCodec cipherOne call ≠ fromInner plainCodec cipherOne sealedOne) →
        decode plainCodec cipherOne (fromInner plainCodec cipherOne sealedOne) = .ok (plainCodec.decode [])) :=
  ⟨by decide +kernel, decode_authentic authentic_one _⟩

end ThothIpc.Secure
