import ThothIpc.Lib.Run

/-!
# The wrapper of the AEAD ciphers

`secure_crypto_c.c`, `thoth_ipc_secure_aead_encrypt` and `thoth_ipc_secure_aead_decrypt`. They allocate their output
blobs and a cipher context, and each failure has a clean-up of its own.

* `encrypt`, `decrypt` : with the outcome of every allocation and every call of the library given by an `Env`;
* `Sound` : every allocation is freed once or in one output blob, and what was written fits;
* `Kept` : a call that fails has freed everything and leaves empty blobs, one that succeeds has got its tag;
* `aead_kept` : both functions keep this, if the output blobs are different ones.

The library writes at most the length it was given, and nothing in its final call. A pointer to a blob is a `β`.
-/

namespace ThothIpc.Aead
open Function

inductive Status where
  | ok
  | invalidArgument
  | bufferTooLarge
  | cryptoError
  | unsupported
  | allocationFailed
  deriving DecidableEq, Repr

inductive Algorithm where
  | aes256Gcm
  | chacha20Poly1305
  | other
  deriving DecidableEq, Repr

/-- A blob: the number of its allocation, or null, and its size. -/
structure Blob where
  data : Option Nat
  size : Nat
  deriving DecidableEq, Repr

/-- The blobs; the sizes of the allocations, and which were freed; how far was written from the start of what; and how
many contexts were made and freed. -/
structure State (β : Type) where
  blob : β → Blob
  sizes : List Nat
  freed : List Nat
  writes : List (Option Nat × Nat)
  ctxNew : Nat
  ctxFreed : Nat

/-- The input, of which only the null pointers and the sizes matter. -/
structure Args where
  algorithm : Algorithm
  keyNull : Bool
  keySize : Nat
  nonceNull : Bool
  nonceSize : Nat
  textNull : Bool
  textSize : Nat
  tagNull : Bool
  tagSize : Nat
  aadNull : Bool
  aadSize : Nat

/-- Which calls succeed, and how much the update of the text writes. -/
structure Env where
  cipher : Bool
  mallocNonce : Bool
  mallocText : Bool
  mallocTag : Bool
  rand : Bool
  ctx : Bool
  init : Bool
  ivLen : Bool
  initKey : Bool
  aad : Bool
  update : Bool
  written : Nat
  final : Bool
  tag : Bool

variable {β : Type} [DecidableEq β]

namespace State

/-- Before a call: the blobs hold anything. -/
def start (blob : β → Blob) : State β := ⟨blob, [], [], [], 0, 0⟩

def clearBlob (s : State β) (p : β) : State β := { s with blob := update s.blob p ⟨none, 0⟩ }

def freeBlob (s : State β) (p : β) : State β := { s with freed := s.freed ++ (s.blob p).data.toList }.clearBlob p

def newBlob (s : State β) (size : Nat) (p : β) : State β :=
  { s with sizes := s.sizes ++ [size], blob := update s.blob p ⟨some s.sizes.length, size⟩ }

/-- `ok` is the outcome of `malloc`; the result says if there is an error. -/
def allocateBlob (s : State β) (size : Nat) (p : β) (ok : Bool) : State β × Bool :=
  if size = 0 then (s.clearBlob p, true)
  else if ok then (s.newBlob size p, true)
  else (s.clearBlob p, false)

def write (s : State β) (p : β) (n : Nat) : State β := { s with writes := s.writes ++ [((s.blob p).data, n)] }

def newCtx (s : State β) : State β := { s with ctxNew := s.ctxNew + 1 }

def freeCtx (s : State β) : State β := { s with ctxFreed := s.ctxFreed + 1 }

def setSize (s : State β) (p : β) (size : Nat) : State β :=
  { s with blob := update s.blob p ⟨(s.blob p).data, size⟩ }

end State

def kNonceSize : Nat := 12

def kTagSize : Nat := 16

def isSupportedKeySize (algorithm : Algorithm) (keySize : Nat) : Bool :=
  match algorithm with
  | .other => false
  | _ => keySize = 32

def fitsInt (value : Nat) : Bool := value ≤ 2 ^ 31 - 1

/-- The cipher is null for another algorithm, or if the library has none. -/
def resolveCipher (env : Env) (algorithm : Algorithm) : Bool := algorithm ≠ .other && env.cipher

/-- The calls on a new context, before the text. Every failure has the same clean-up. -/
def prepared (a : Args) (env : Env) : Bool := env.init && env.ivLen && env.initKey && (a.aadSize = 0 || env.aad)

/-- The update with the text, which is left out if there is none. -/
def State.update (a : Args) (env : Env) (s : State β) (p : β) : State β :=
  if a.textSize = 0 then s else s.write p env.written

def updated (a : Args) (env : Env) : Bool := a.textSize = 0 || env.update

def outSize (a : Args) (env : Env) : Nat := if a.textSize = 0 then 0 else env.written

/-- The status of the first check that fails. -/
def firstError (checks : List (Bool × Status)) : Option Status := (checks.find? Prod.fst).map Prod.snd

def encryptArgs (openssl : Bool) (a : Args) (env : Env) : Option Status :=
  firstError [(!openssl, .unsupported), (a.keyNull, .invalidArgument),
    (a.textNull && a.textSize ≠ 0, .invalidArgument), (a.aadNull && a.aadSize ≠ 0, .invalidArgument),
    (!isSupportedKeySize a.algorithm a.keySize, .invalidArgument), (!fitsInt a.textSize, .bufferTooLarge),
    (!fitsInt a.aadSize, .bufferTooLarge), (!resolveCipher env a.algorithm, .unsupported)]

def encryptCtx (a : Args) (env : Env) (s : State β) (nonce text tag : β) : Status × State β :=
  let failed := fun s : State β => (Status.cryptoError, ((s.freeCtx.freeBlob tag).freeBlob text).freeBlob nonce)
  if !prepared a env then failed s
  else if !(updated a env && env.final) then failed (s.update a env text)
  else
    let s := (s.update a env text).write tag (s.blob tag).size
    if !env.tag then failed s else (.ok, s.freeCtx.setSize text (outSize a env))

def encrypt (openssl : Bool) (a : Args) (env : Env) (s : State β) (nonce text tag : β) : Status × State β :=
  let s := ((s.clearBlob nonce).clearBlob text).clearBlob tag
  match encryptArgs openssl a env with
  | some status => (status, s)
  | none =>
    let r := s.allocateBlob kNonceSize nonce env.mallocNonce
    if !r.2 then (.allocationFailed, r.1)
    else
      let r := r.1.allocateBlob a.textSize text env.mallocText
      if !r.2 then (.allocationFailed, r.1.freeBlob nonce)
      else
        let r := r.1.allocateBlob kTagSize tag env.mallocTag
        if !r.2 then (.allocationFailed, (r.1.freeBlob text).freeBlob nonce)
        else
          let s := r.1.write nonce (r.1.blob nonce).size
          if !env.rand then (.cryptoError, ((s.freeBlob tag).freeBlob text).freeBlob nonce)
          else if !env.ctx then (.allocationFailed, ((s.freeBlob tag).freeBlob text).freeBlob nonce)
          else encryptCtx a env s.newCtx nonce text tag

def decryptArgs (openssl : Bool) (a : Args) (env : Env) : Option Status :=
  firstError [(!openssl, .unsupported), (a.keyNull, .invalidArgument),
    (a.nonceNull && a.nonceSize ≠ 0, .invalidArgument), (a.textNull && a.textSize ≠ 0, .invalidArgument),
    (a.tagNull && a.tagSize ≠ 0, .invalidArgument), (a.aadNull && a.aadSize ≠ 0, .invalidArgument),
    (!isSupportedKeySize a.algorithm a.keySize, .invalidArgument), (a.nonceSize ≠ kNonceSize, .invalidArgument),
    (a.tagSize ≠ kTagSize, .invalidArgument), (!fitsInt a.textSize, .bufferTooLarge),
    (!fitsInt a.aadSize, .bufferTooLarge), (!resolveCipher env a.algorithm, .unsupported)]

/-- The tag is set before the final call checks it. -/
def decrypt (openssl : Bool) (a : Args) (env : Env) (s : State β) (plain : β) : Status × State β :=
  let s := s.clearBlob plain
  match decryptArgs openssl a env with
  | some status => (status, s)
  | none =>
    let r := s.allocateBlob a.textSize plain env.mallocText
    if !r.2 then (.allocationFailed, r.1)
    else if !env.ctx then (.allocationFailed, r.1.freeBlob plain)
    else
      let failed := fun s : State β => (Status.cryptoError, s.freeCtx.freeBlob plain)
      let s := r.1.newCtx
      if !prepared a env then failed s
      else if !(updated a env && env.tag && env.final) then failed (s.update a env plain)
      else (.ok, (s.update a env plain).freeCtx.setSize plain (outSize a env))

/-! ## Allocations -/

/-- The allocations that the blobs hold. -/
def State.held (s : State β) (outs : List β) : List Nat := outs.filterMap fun p => (s.blob p).data

/-- Every allocation is freed once or held by one of the blobs, and nothing was written behind one. -/
structure Sound (outs : List β) (s : State β) : Prop where
  balanced : (s.freed ++ s.held outs).Perm (List.range s.sizes.length)
  fits : ∀ x ∈ s.writes, x.2 = 0 ∨ ∃ i n, x.1 = some i ∧ s.sizes[i]? = some n ∧ x.2 ≤ n

/-- The blob has an allocation of this size, or none if the size is 0. -/
def Sized (s : State β) (p : β) (size : Nat) : Prop :=
  (s.blob p).size = size ∧ (size = 0 ∨ ∃ i, (s.blob p).data = some i ∧ s.sizes[i]? = some size)

section Blobs

variable {outs : List β} {s : State β} {p q : β}

theorem held_update (hnd : outs.Nodup) (hp : p ∈ outs) (f : β → Blob) (b : Blob) :
    (outs.filterMap fun q => (update f p b q).data).Perm
      (b.data.toList ++ outs.filterMap fun q => (update f p ⟨none, 0⟩ q).data) := by
  obtain ⟨l₁, l₂, rfl⟩ := List.append_of_mem hp
  have hother : ∀ l : List β, p ∉ l → ∀ c : Blob,
      (l.filterMap fun q => (update f p c q).data) = l.filterMap fun q => (f q).data := by
    intro l hl c
    refine List.filterMap_congr fun q hq => ?_
    have hne : q ≠ p := fun he => hl (he ▸ hq)
    rw [update_of_ne hne]
  have hnot : p ∉ l₁ ∧ p ∉ l₂ := by
    rw [List.nodup_middle, List.nodup_cons, List.mem_append, not_or] at hnd
    exact hnd.1
  simp only [List.filterMap_append, List.filterMap_cons, update_self, hother l₁ hnot.1, hother l₂ hnot.2]
  cases b.data with
  | none => rfl
  | some i => exact List.perm_middle

omit [DecidableEq β] in
theorem sound_empty (hs : s.freed = [] ∧ s.sizes = [] ∧ s.writes = []) (he : ∀ p ∈ outs, s.blob p = ⟨none, 0⟩) :
    Sound outs s := by
  obtain ⟨hf, hz, hw⟩ := hs
  have hheld : s.held outs = [] := List.filterMap_eq_nil_iff.mpr fun p hp => by rw [he p hp]
  refine ⟨?_, fun x hx => ?_⟩
  · rw [hf, hz, hheld]
    rfl
  · rw [hw] at hx
    cases hx

theorem Sound.clear (h : Sound outs s) (hnd : outs.Nodup) (hp : p ∈ outs) (hd : (s.blob p).data = none) :
    Sound outs (s.clearBlob p) := by
  refine ⟨?_, h.fits⟩
  have hheld := held_update hnd hp s.blob (s.blob p)
  rw [update_eq_self, hd] at hheld
  exact (List.Perm.append_left _ hheld.symm).trans h.balanced

theorem Sound.free (h : Sound outs s) (hnd : outs.Nodup) (hp : p ∈ outs) : Sound outs (s.freeBlob p) := by
  refine ⟨?_, h.fits⟩
  have hheld := held_update hnd hp s.blob (s.blob p)
  rw [update_eq_self] at hheld
  refine List.Perm.trans ?_ h.balanced
  change (s.freed ++ (s.blob p).data.toList ++ _).Perm _
  rw [List.append_assoc]
  exact List.Perm.append_left _ hheld.symm

theorem clearBlob_blob : (s.clearBlob p).blob q = if q = p then ⟨none, 0⟩ else s.blob q := update_apply ..

theorem freeBlob_blob : (s.freeBlob p).blob q = if q = p then ⟨none, 0⟩ else s.blob q := update_apply ..

theorem allocate_cases (s : State β) (size : Nat) (p : β) (ok : Bool) :
    (size = 0 ∧ s.allocateBlob size p ok = (s.clearBlob p, true)) ∨ s.allocateBlob size p ok = (s.clearBlob p, false) ∨
      s.allocateBlob size p ok = (s.newBlob size p, true) := by
  unfold State.allocateBlob
  split
  · exact Or.inl ⟨‹_›, rfl⟩
  · split
    · exact Or.inr (Or.inr rfl)
    · exact Or.inr (Or.inl rfl)

theorem Sound.new (h : Sound outs s) (hnd : outs.Nodup) (hp : p ∈ outs) (hd : (s.blob p).data = none) (size : Nat) :
    Sound outs (s.newBlob size p) := by
  refine ⟨?_, fun x hx => ?_⟩
  · have hheld := held_update hnd hp s.blob ⟨some s.sizes.length, size⟩
    have hclear := (h.clear hnd hp hd).balanced
    change (s.freed ++ _).Perm (List.range (s.sizes ++ [size]).length)
    rw [List.length_append, List.length_singleton, List.range_succ]
    refine (List.Perm.append_left _ hheld).trans (List.perm_middle.trans ?_)
    exact (List.Perm.cons _ hclear).trans (List.perm_append_singleton _ _).symm
  · obtain h0 | ⟨i, n, hi, hn, hle⟩ := h.fits x hx
    · exact Or.inl h0
    · obtain ⟨hlt, -⟩ := List.getElem?_eq_some_iff.mp hn
      refine Or.inr ⟨i, n, hi, ?_, hle⟩
      change (s.sizes ++ [size])[i]? = _
      rw [List.getElem?_append_left hlt, hn]

/-- An empty blob is allocated, or is still empty; the other blobs, their allocations and the contexts are as before. -/
theorem Sound.allocate (h : Sound outs s) (hctx : s.ctxFreed = s.ctxNew) (hnd : outs.Nodup) (hp : p ∈ outs)
    (he : s.blob p = ⟨none, 0⟩) {size : Nat} {ok : Bool} {r : State β × Bool} (hr : s.allocateBlob size p ok = r) :
    Sound outs r.1 ∧ r.1.ctxFreed = r.1.ctxNew ∧ (if r.2 then Sized r.1 p size else r.1.blob p = ⟨none, 0⟩) ∧
      ∀ q, q ≠ p → r.1.blob q = s.blob q ∧ ∀ n, Sized s q n → Sized r.1 q n := by
  have hself : ∀ b : Blob, update s.blob p b p = b := fun b => update_self ..
  have hne : ∀ q, q ≠ p → ∀ b : Blob, update s.blob p b q = s.blob q := fun q hq b => update_of_ne hq ..
  have hclear : ∀ q, q ≠ p → (s.clearBlob p).blob q = s.blob q ∧ ∀ n, Sized s q n → Sized (s.clearBlob p) q n := by
    refine fun q hq => ⟨hne q hq _, fun n hs => ?_⟩
    rw [Sized, show (s.clearBlob p).blob q = s.blob q from hne q hq _]
    exact hs
  have hd := congrArg Blob.data he
  obtain ⟨rfl, hr'⟩ | hr' | hr' := allocate_cases s size p ok
  · obtain rfl := hr.symm.trans hr'
    exact ⟨h.clear hnd hp hd, hctx, ⟨congrArg Blob.size (hself _), Or.inl rfl⟩, hclear⟩
  · obtain rfl := hr.symm.trans hr'
    exact ⟨h.clear hnd hp hd, hctx, hself _, hclear⟩
  · obtain rfl := hr.symm.trans hr'
    refine ⟨h.new hnd hp hd size, hctx, ⟨congrArg Blob.size (hself _), Or.inr ⟨s.sizes.length,
      congrArg Blob.data (hself _), List.getElem?_concat_length⟩⟩, fun q hq => ⟨hne q hq _, fun n hs => ?_⟩⟩
    rw [Sized, show (s.newBlob size p).blob q = s.blob q from hne q hq _]
    refine ⟨hs.1, hs.2.imp id fun ⟨i, hi, hsize⟩ => ⟨i, hi, ?_⟩⟩
    obtain ⟨hlt, -⟩ := List.getElem?_eq_some_iff.mp hsize
    change (s.sizes ++ [size])[i]? = _
    rw [List.getElem?_append_left hlt, hsize]

omit [DecidableEq β] in
theorem Sound.write (h : Sound outs s) {size n : Nat} (hs : Sized s p size) (hn : n ≤ size) :
    Sound outs (s.write p n) := by
  refine ⟨h.balanced, fun x hx => ?_⟩
  obtain hx | hx := List.mem_append.mp hx
  · exact h.fits x hx
  · rw [List.mem_singleton] at hx
    subst hx
    obtain h0 | ⟨i, hi, hsize⟩ := hs.2
    · exact Or.inl (by omega)
    · exact Or.inr ⟨i, size, hi, hsize, hn⟩

theorem Sound.setSize (h : Sound outs s) (hnd : outs.Nodup) (hp : p ∈ outs) (size : Nat) :
    Sound outs (s.setSize p size) := by
  refine ⟨?_, h.fits⟩
  have hheld := held_update hnd hp s.blob (s.blob p)
  rw [update_eq_self] at hheld
  have hsame := (held_update hnd hp s.blob ⟨(s.blob p).data, size⟩).trans hheld.symm
  exact (List.Perm.append_left _ hsame).trans h.balanced

end Blobs

/-! ## The calls -/

/-- What a call leaves behind: nothing leaked, no context, `done` if it succeeds and empty blobs if not. -/
structure Kept (outs : List β) (done : Prop) (r : Status × State β) : Prop where
  sound : Sound outs r.2
  ctx : r.2.ctxFreed = r.2.ctxNew
  success : r.1 = .ok → done
  failure : r.1 ≠ .ok → ∀ p ∈ outs, r.2.blob p = ⟨none, 0⟩

omit [DecidableEq β] in
theorem kept_failed {outs : List β} {done : Prop} {status : Status} {s : State β} (hst : status ≠ .ok)
    (hs : Sound outs s) (hctx : s.ctxFreed = s.ctxNew) (hempty : ∀ p ∈ outs, s.blob p = ⟨none, 0⟩) :
    Kept outs done (status, s) :=
  ⟨hs, hctx, fun h => absurd h hst, fun _ => hempty⟩

section Calls

variable {nonce text tag : β} {outs : List β} {s : State β} {a : Args} {env : Env} {done : Prop}

theorem firstError_ne {checks : List (Bool × Status)} {status : Status} (h : firstError checks = some status)
    (hall : ∀ c ∈ checks, c.2 ≠ .ok) : status ≠ .ok := by
  obtain ⟨c, hc, rfl⟩ := Option.map_eq_some_iff.mp h
  exact hall c (List.mem_of_find?_eq_some hc)

omit [DecidableEq β] in
theorem Sound.update {p : β} (h : Sound outs s) (hs : Sized s p a.textSize) (hw : env.written ≤ a.textSize) :
    Sound outs (s.update a env p) := by
  unfold State.update
  split
  · exact h
  · exact h.write hs hw

omit [DecidableEq β] in
theorem update_frame (a : Args) (env : Env) (s : State β) (p : β) : (s.update a env p).blob = s.blob ∧
    (s.update a env p).sizes = s.sizes ∧ (s.update a env p).ctxNew = s.ctxNew ∧
      (s.update a env p).ctxFreed = s.ctxFreed := by
  unfold State.update
  split <;> exact ⟨rfl, rfl, rfl, rfl⟩

theorem kept_free (hnd : [nonce, text, tag].Nodup) {status : Status} (hst : status ≠ .ok)
    (hs : Sound [nonce, text, tag] s) (hctx : s.ctxFreed = s.ctxNew) :
    Kept [nonce, text, tag] done (status, ((s.freeBlob tag).freeBlob text).freeBlob nonce) := by
  refine kept_failed hst (((hs.free hnd (by simp)).free hnd (by simp)).free hnd (by simp)) hctx fun p hp => ?_
  simp only [List.mem_cons, List.not_mem_nil, or_false] at hp
  obtain rfl | rfl | rfl := hp
  all_goals simp only [freeBlob_blob, ite_self, if_true]

theorem encryptCtx_kept (hnd : [nonce, text, tag].Nodup) (hs : Sound [nonce, text, tag] s)
    (hctx : s.ctxFreed + 1 = s.ctxNew) (htext : Sized s text a.textSize) (htag : Sized s tag kTagSize)
    (hw : env.written ≤ a.textSize) :
    Kept [nonce, text, tag] (env.final = true ∧ env.tag = true) (encryptCtx a env s nonce text tag) := by
  obtain ⟨hblob, hsizes, hnew, hfreed⟩ := update_frame a env s text
  have hs₁ := hs.update htext hw
  have hctx₁ : (s.update a env text).ctxFreed + 1 = (s.update a env text).ctxNew := by rw [hnew, hfreed, hctx]
  have hs₂ : Sound [nonce, text, tag] ((s.update a env text).write tag (s.blob tag).size) :=
    hs₁.write (show Sized _ _ kTagSize by rw [Sized, hblob, hsizes]; exact htag) htag.1.le
  have hfreeCtx : ∀ {s : State β}, Sound [nonce, text, tag] s → Sound [nonce, text, tag] s.freeCtx :=
    fun hs => ⟨hs.balanced, hs.fits⟩
  unfold encryptCtx
  dsimp only
  split
  · exact kept_free hnd (by decide) (hfreeCtx hs) hctx
  · split
    · exact kept_free hnd (by decide) (hfreeCtx hs₁) hctx₁
    · rename_i hfinal
      split
      · exact kept_free hnd (by decide) (hfreeCtx hs₂) hctx₁
      · rename_i htagged
        refine ⟨(hfreeCtx hs₂).setSize hnd (by simp) _, hctx₁, fun _ => ⟨?_, by simpa using htagged⟩,
          fun hne => absurd rfl hne⟩
        simp only [Bool.not_eq_true', Bool.not_eq_false, Bool.and_eq_true] at hfinal
        exact hfinal.2

theorem encrypt_kept (openssl : Bool) (hnd : [nonce, text, tag].Nodup) (blob : β → Blob)
    (hw : env.written ≤ a.textSize) :
    Kept [nonce, text, tag] (env.final = true ∧ env.tag = true)
      (encrypt openssl a env (State.start blob) nonce text tag) := by
  obtain ⟨⟨hnt, hng⟩, htg⟩ : (nonce ≠ text ∧ nonce ≠ tag) ∧ text ≠ tag := by simpa using hnd
  have hempty : ∀ p ∈ [nonce, text, tag],
      ((((State.start blob).clearBlob nonce).clearBlob text).clearBlob tag).blob p = ⟨none, 0⟩ := by
    intro p hp
    simp only [List.mem_cons, List.not_mem_nil, or_false] at hp
    obtain rfl | rfl | rfl := hp
    all_goals simp only [clearBlob_blob, ite_self, if_true]
  have hs := sound_empty (s := (((State.start blob).clearBlob nonce).clearBlob text).clearBlob tag)
    ⟨rfl, rfl, rfl⟩ hempty
  have hctx : ((((State.start blob).clearBlob nonce).clearBlob text).clearBlob tag).ctxFreed =
    ((((State.start blob).clearBlob nonce).clearBlob text).clearBlob tag).ctxNew := rfl
  unfold encrypt
  generalize (((State.start blob).clearBlob nonce).clearBlob text).clearBlob tag = s at hempty hs hctx
  dsimp only
  cases hargs : encryptArgs openssl a env with
  | some status => exact kept_failed (firstError_ne hargs (by simp)) hs hctx hempty
  | none =>
    dsimp only
    generalize hr₁ : s.allocateBlob kNonceSize nonce env.mallocNonce = r₁
    obtain ⟨hs₁, hc₁, hn₁, hf₁⟩ := hs.allocate hctx hnd (by simp) (hempty nonce (by simp)) hr₁
    have ht₁ := (hf₁ text hnt.symm).1.trans (hempty text (by simp))
    have hg₁ := (hf₁ tag hng.symm).1.trans (hempty tag (by simp))
    obtain ⟨s₁, b₁⟩ := r₁
    cases b₁ with
    | false => exact kept_failed (by decide) hs₁ hc₁ (by simpa using ⟨hn₁, ht₁, hg₁⟩)
    | true =>
      generalize hr₂ : s₁.allocateBlob a.textSize text env.mallocText = r₂
      obtain ⟨hs₂, hc₂, ht₂, hf₂⟩ := hs₁.allocate hc₁ hnd (by simp) ht₁ hr₂
      have hg₂ := (hf₂ tag htg.symm).1.trans hg₁
      obtain ⟨s₂, b₂⟩ := r₂
      cases b₂ with
      | false =>
        refine kept_failed (by decide) (hs₂.free hnd (by simp)) hc₂ ?_
        simpa [freeBlob_blob, hnt.symm, hng.symm] using ⟨ht₂, hg₂⟩
      | true =>
        generalize hr₃ : s₂.allocateBlob kTagSize tag env.mallocTag = r₃
        obtain ⟨hs₃, hc₃, hg₃, hf₃⟩ := hs₂.allocate hc₂ hnd (by simp) hg₂ hr₃
        have hn₃ := (hf₃ nonce hng).2 _ ((hf₂ nonce hnt).2 _ hn₁)
        obtain ⟨s₃, b₃⟩ := r₃
        cases b₃ with
        | false =>
          refine kept_failed (by decide) ((hs₃.free hnd (by simp)).free hnd (by simp)) hc₃ ?_
          simpa [freeBlob_blob, hnt.symm, hng.symm, htg.symm] using hg₃
        | true =>
          have hs₄ : Sound [nonce, text, tag] (s₃.write nonce (s₃.blob nonce).size) := hs₃.write hn₃ hn₃.1.le
          dsimp only
          split
          · cases ‹(!true) = true›
          · split
            · exact kept_free hnd (by decide) hs₄ hc₃
            · split
              · exact kept_free hnd (by decide) hs₄ hc₃
              · exact encryptCtx_kept hnd ⟨hs₄.balanced, hs₄.fits⟩ (congrArg (· + 1) hc₃)
                  ((hf₃ text htg).2 _ ht₂) hg₃ hw

theorem decrypt_kept (openssl : Bool) (blob : β → Blob) (hw : env.written ≤ a.textSize) :
    Kept [text] (env.tag = true ∧ env.final = true) (decrypt openssl a env (State.start blob) text) := by
  have hnd : [text].Nodup := List.nodup_singleton text
  have hmem : text ∈ [text] := List.mem_singleton_self text
  have hempty : ((State.start blob).clearBlob text).blob text = ⟨none, 0⟩ := update_self ..
  have hone : ∀ {s : State β}, s.blob text = ⟨none, 0⟩ → ∀ p ∈ [text], s.blob p = ⟨none, 0⟩ := fun he p hp =>
    List.mem_singleton.mp hp ▸ he
  have hs := sound_empty (s := (State.start blob).clearBlob text) ⟨rfl, rfl, rfl⟩ (hone hempty)
  have hctx : ((State.start blob).clearBlob text).ctxFreed = ((State.start blob).clearBlob text).ctxNew := rfl
  unfold decrypt
  generalize (State.start blob).clearBlob text = s at hempty hs hctx
  dsimp only
  cases hargs : decryptArgs openssl a env with
  | some status => exact kept_failed (firstError_ne hargs (by simp)) hs hctx (hone hempty)
  | none =>
    have hfail : ∀ {s : State β} {status : Status}, status ≠ .ok → Sound [text] s → s.ctxFreed = s.ctxNew →
        Kept [text] (env.tag = true ∧ env.final = true) (status, s.freeBlob text) := fun hst hs hctx =>
      kept_failed hst (hs.free hnd hmem) hctx (hone (update_self ..))
    dsimp only
    generalize hr : s.allocateBlob a.textSize text env.mallocText = r
    obtain ⟨hs₁, hc₁, ht₁, -⟩ := hs.allocate hctx hnd hmem hempty hr
    obtain ⟨s₁, b₁⟩ := r
    cases b₁ with
    | false => exact kept_failed (by decide) hs₁ hc₁ (hone ht₁)
    | true =>
      have hs₂ : Sound [text] (s₁.newCtx.update a env text).freeCtx := by
        have h := (show Sound [text] s₁.newCtx from ⟨hs₁.balanced, hs₁.fits⟩).update ht₁ hw
        exact ⟨h.balanced, h.fits⟩
      obtain ⟨-, -, hnew, hfreed⟩ := update_frame a env s₁.newCtx text
      have hc₂ : (s₁.newCtx.update a env text).ctxFreed + 1 = (s₁.newCtx.update a env text).ctxNew := by
        rw [hfreed, hnew]
        exact congrArg (· + 1) hc₁
      dsimp only
      split
      · cases ‹(!true) = true›
      · split
        · exact hfail (by decide) hs₁ hc₁
        · split
          · exact hfail (by decide) ⟨hs₁.balanced, hs₁.fits⟩ (congrArg (· + 1) hc₁)
          · split
            · exact hfail (by decide) hs₂ hc₂
            · rename_i hdone
              simp only [Bool.not_eq_true', Bool.not_eq_false, Bool.and_eq_true] at hdone
              exact ⟨hs₂.setSize hnd hmem _, hc₂, fun _ => ⟨hdone.1.2, hdone.2⟩, fun hne => absurd rfl hne⟩

/-- **The wrapper leaks nothing.** Whichever calls fail: every allocation is freed once or handed over, the context is
freed, and nothing is written behind a blob. A call succeeds only with its tag made or checked. -/
theorem aead_kept (openssl : Bool) (a : Args) (env : Env) (hw : env.written ≤ a.textSize) (blob : β → Blob)
    (hne : nonce ≠ text ∧ nonce ≠ tag ∧ text ≠ tag) :
    Kept [nonce, text, tag] (env.final = true ∧ env.tag = true)
      (encrypt openssl a env (State.start blob) nonce text tag) ∧
    Kept [text] (env.tag = true ∧ env.final = true) (decrypt openssl a env (State.start blob) text) := by
  refine ⟨encrypt_kept openssl ?_ blob hw, decrypt_kept openssl blob hw⟩
  simpa using ⟨⟨hne.1, hne.2.1⟩, hne.2.2⟩

end Calls

/-- A text of 3 bytes under a key of 32. -/
def sample : Args := ⟨.aes256Gcm, false, 32, false, 12, false, 3, false, 16, true, 0⟩

/-- The context cannot be made. -/
def noCtx : Env := ⟨true, true, true, true, true, false, true, true, true, true, true, 3, true, true⟩

theorem aead_kept_sample : (encrypt true sample noCtx (State.start fun _ => ⟨some 7, 9⟩) 0 1 (2 : Fin 3)).1 =
      .allocationFailed ∧
    (encrypt true sample noCtx (State.start fun _ => ⟨some 7, 9⟩) 0 1 (2 : Fin 3)).2.blob 1 = ⟨none, 0⟩ :=
  ⟨by decide, (aead_kept true sample noCtx (by decide) _ (by decide)).1.failure (by decide) 1 (by decide)⟩

/-- **One blob for two outputs**: the allocation of the nonce, which is number 0, is neither freed nor in a blob. -/
theorem nonce_leaked : let r := encrypt true sample noCtx (State.start fun _ => ⟨none, 0⟩) 0 0 (1 : Fin 2)
    r.2.sizes = [12, 3, 16] ∧ r.2.freed = [2, 1] ∧ r.2.held [0, 1] = [] := by decide

end ThothIpc.Aead
