import ThothIpc.Message.Receive

/-!
# Which header sequences the receive path survives

The first fragment of a message fixes the size of its reassembly buffer; every later one is copied behind the bytes
already there, as many as its own header announces. Nothing compares the two.

* `owe` follows a header sequence: how many bytes are still owed to each message id;
* `Owes`: the reassembly cache has exactly that much room left in each of its buffers;
* `feed_covered`: a sequence whose fragments stay within what is owed meets no fault;
* `overrun`: one that does not, and a size that does not fit.
-/

namespace ThothIpc.Message
open Function

/-- The bytes still owed to each message that has begun. -/
abbrev Owed : Type := BitVec 32 → Option Nat

/-- What is owed after one more slot, from its header alone. -/
def owe (o : Owed) (ccId : BitVec 32) (s : SlotMsg) : Owed :=
  if s.inline ccId then
    match o s.id with
    | some r => update o s.id (if s.remain.toInt ≤ 0 then none else some (r - s.carried))
    | none => if s.remain.toInt ≤ 0 then o else update o s.id (some s.remain.toInt.toNat)
  else o

/-- The slot's size fits an `i32`, and an inline fragment of a message that has begun announces no more than is owed. -/
def covered (o : Owed) (ccId : BitVec 32) (s : SlotMsg) : Prop :=
  dataLength + s.remain.toInt < 2 ^ 31 ∧ (s.inline ccId = true → ∀ r, o s.id = some r → s.carried ≤ r)

/-- Every slot of the sequence is `covered` when it comes. -/
def Covered (ccId : BitVec 32) : Owed → List Arrival → Prop
  | _, [] => True
  | o, a :: rest => covered o ccId a.slot ∧ Covered ccId (owe o ccId a.slot) rest

/-- The header says that the fragment cannot be one: it has no bytes, or its storage id is none. -/
def SlotMsg.malformed (s : SlotMsg) : Prop :=
  dataLength + s.remain.toInt ≤ 0 ∨ s.storage = true ∧ (s.readStorageId < 0 ∨ maxCount ≤ s.readStorageId)

/-! ## Chunk storage -/

theorem le_calcChunkSize (size : Nat) : size ≤ calcChunkSize size - chunkHeader := by
  simp only [calcChunkSize, chunkHeader, chunkAlign]
  omega

theorem findStorage_ok (size : Nat) (shm : ChunkShm (calcChunkSize size)) (sid : Int) :
    ∃ out, shm.findStorage sid size = .ok out := by
  unfold ChunkShm.findStorage
  split
  · exact ⟨none, rfl⟩
  · rw [if_pos (by rw [shm.window]; exact le_calcChunkSize size)]
    exact ⟨_, rfl⟩

theorem takeStorage_ok (e : Inner) (c : Chunks) (sid rSize : Int) :
    ∃ o, takeStorage e c sid rSize = .ok o ∧ o.inner = e := by
  simp only [takeStorage]
  split
  · exact ⟨_, rfl, rfl⟩
  · next shm hshm =>
    obtain ⟨out, hout⟩ := findStorage_ok rSize.toNat shm sid
    rw [hout]
    exact ⟨_, rfl, rfl⟩

/-- A storage id outside the pool reads nothing and recycles nothing. -/
theorem takeStorage_of_range {e : Inner} {c : Chunks} {sid rSize : Int} (h : sid < 0 ∨ maxCount ≤ sid) :
    takeStorage e c sid rSize = .ok ⟨e, c, none⟩ := by
  simp only [takeStorage]
  split
  · rfl
  · next shm hshm =>
    simp only [ChunkShm.findStorage, ChunkShm.recycleStorage, if_pos h, ← hshm, update_eq_self]
    rfl

/-! ## Inline fragments -/

/-- Each buffer of the cache has room for exactly what its message is still owed. -/
def Owes (o : Owed) (c : Cache) : Prop :=
  ∀ id, match c id with
    | none => o id = none
    | some (off, buf) => off ≤ buf.length ∧ o id = some (buf.length - off)

variable {o : Owed} {c : Cache}

theorem Owes.of_none (h : Owes o c) {id : BitVec 32} (hc : c id = none) : o id = none := by
  have := h id
  rwa [hc] at this

theorem Owes.of_some (h : Owes o c) {id : BitVec 32} {off : Nat} {buf : List UInt8} (hc : c id = some (off, buf)) :
    off ≤ buf.length ∧ o id = some (buf.length - off) := by
  have := h id
  rwa [hc] at this

theorem Owes.update_none (h : Owes o c) (id : BitVec 32) :
    Owes (update o id none) (update c id none) := by
  intro i
  by_cases hi : i = id
  · subst hi
    simp
  · simp only [update_of_ne hi]
    exact h i

theorem Owes.update_some (h : Owes o c) (id : BitVec 32) {off r : Nat} {buf : List UInt8} (hoff : off ≤ buf.length)
    (hr : buf.length - off = r) : Owes (update o id (some r)) (update c id (some (off, buf))) := by
  intro i
  by_cases hi : i = id
  · subst hi
    simp [hoff, hr]
  · simp only [update_of_ne hi]
    exact h i

theorem length_copy {buf frag : List UInt8} {off : Nat} (h : off + frag.length ≤ buf.length) :
    (buf.take off ++ frag ++ buf.drop (off + frag.length)).length = buf.length := by
  simp only [List.length_append, List.length_take, List.length_drop]
  omega

theorem copyInto_ok {buf frag : List UInt8} {off : Nat} (h : off + frag.length ≤ buf.length) :
    copyInto buf off frag = .ok (buf.take off ++ frag ++ buf.drop (off + frag.length)) :=
  if_pos h

theorem takeFragment_covered {e : Inner} {a : Arrival} (h : Owes o e.recvCache) (hin : a.slot.inline e.ccId = true)
    (hcov : ∀ r, o a.slot.id = some r → a.slot.carried ≤ r) :
    ∃ out, takeFragment e a.chunks a.slot.id a.slot.remain.toInt (dataLength + a.slot.remain.toInt)
        (a.slot.payload.toList.take a.slot.carried) = .ok out ∧
      Owes (owe o e.ccId a.slot) out.inner.recvCache ∧ out.inner.ccId = e.ccId := by
  have hlen := a.slot.length_take_carried
  rcases hc : e.recvCache a.slot.id with _ | ⟨off, buf⟩
  · -- the first fragment: it fixes the buffer, which is larger than one slot's payload
    have ho := h.of_none hc
    by_cases hr : a.slot.remain.toInt ≤ 0
    · refine ⟨_, by simp only [takeFragment, hc, if_pos hr]; rfl, ?_, rfl⟩
      simp only [owe, hin, ho, if_pos hr, if_true]
      exact h
    · have hcar : a.slot.carried = dataLength := if_neg hr
      have hfit : 0 + (a.slot.payload.toList.take a.slot.carried).length ≤
          (List.replicate (dataLength + a.slot.remain.toInt).toNat (0 : UInt8)).length := by
        rw [hlen, hcar, List.length_replicate]
        omega
      refine ⟨_, by simp only [takeFragment, hc, if_neg hr, copyInto_ok hfit]; rfl, ?_, rfl⟩
      simp only [owe, hin, ho, if_neg hr, if_true]
      refine h.update_some _ ?_ ?_
      · rw [length_copy hfit]
        omega
      · rw [length_copy hfit, hlen, hcar, List.length_replicate]
        omega
  · -- a later one: it goes behind the bytes already there
    obtain ⟨hoff, ho⟩ := h.of_some hc
    have hcar := hcov _ ho
    have hfit : off + (a.slot.payload.toList.take a.slot.carried).length ≤ buf.length := by
      rw [hlen]
      omega
    by_cases hr : a.slot.remain.toInt ≤ 0
    · refine ⟨_, by simp only [takeFragment, hc, copyInto_ok hfit, if_pos hr]; rfl, ?_, rfl⟩
      simp only [owe, hin, ho, if_pos hr, if_true]
      exact h.update_none _
    · refine ⟨_, by simp only [takeFragment, hc, copyInto_ok hfit, if_neg hr]; rfl, ?_, rfl⟩
      simp only [owe, hin, ho, if_neg hr, if_true]
      refine h.update_some _ ?_ ?_
      · rw [length_copy hfit]
        omega
      · rw [length_copy hfit, hlen]
        omega

/-! ## The whole path -/

theorem receive_covered {e : Inner} {a : Arrival} (h : Owes o e.recvCache) (hcov : covered o e.ccId a.slot) :
    ∃ out, receive e a = .ok out ∧ Owes (owe o e.ccId a.slot) out.inner.recvCache ∧ out.inner.ccId = e.ccId := by
  obtain ⟨hmax, hcov⟩ := hcov
  rcases hin : a.slot.inline e.ccId with _ | _
  · have howe : owe o e.ccId a.slot = o := by simp [owe, hin]
    rw [howe]
    by_cases hdrop : a.slot.ccId = e.ccId ∨ dataLength + a.slot.remain.toInt ≤ 0
    · exact ⟨_, receive_dropped hmax hdrop, h, rfl⟩
    · rw [not_or, not_le] at hdrop
      have hst : a.slot.storage = true := by
        simpa [SlotMsg.inline, hdrop.1, hdrop.2] using hin
      obtain ⟨out, hout, he⟩ := takeStorage_ok e a.chunks a.slot.readStorageId (dataLength + a.slot.remain.toInt)
      exact ⟨out, by rw [receive_storage hmax hdrop.1 hdrop.2 hst, hout], by rwa [he], by rw [he]⟩
  · rw [receive_inline hmax hin]
    exact takeFragment_covered h hin (hcov hin)

theorem receive_malformed {e : Inner} {a : Arrival} (hmax : dataLength + a.slot.remain.toInt < 2 ^ 31)
    (hbad : a.slot.malformed) : receive e a = .ok ⟨e, a.chunks, none⟩ := by
  by_cases hdrop : a.slot.ccId = e.ccId ∨ dataLength + a.slot.remain.toInt ≤ 0
  · exact receive_dropped hmax hdrop
  · rcases hbad with hneg | ⟨hst, hsid⟩
    · exact absurd (Or.inr hneg) hdrop
    · rw [not_or, not_le] at hdrop
      rw [receive_storage hmax hdrop.1 hdrop.2 hst, takeStorage_of_range hsid]

theorem feed_ok : ∀ {l : List Arrival} {o : Owed} {e : Inner}, Owes o e.recvCache → Covered e.ccId o l →
    ∃ r, feed e l = .ok r
  | [], _, e, _, _ => ⟨(e, []), rfl⟩
  | a :: rest, o, e, h, ⟨hcov, hrest⟩ => by
    obtain ⟨out, hout, howes, hcc⟩ := receive_covered h hcov
    rw [← hcc] at howes hrest
    obtain ⟨r, hr⟩ := feed_ok howes hrest
    refine ⟨(r.1, out.out.toList ++ r.2), ?_⟩
    simp only [feed, hout, hr, bind, Except.bind, pure, Except.pure]

theorem Covered.max : ∀ {l : List Arrival} {o : Owed} {ccId : BitVec 32}, Covered ccId o l →
    ∀ a ∈ l, dataLength + a.slot.remain.toInt < 2 ^ 31
  | a :: rest, _, _, ⟨hcov, hrest⟩, b, hb => by
    rcases List.mem_cons.1 hb with rfl | hb
    · exact hcov.1
    · exact hrest.max b hb

/-- **On every header sequence that stays within what its first fragments announce, the receive path of a fresh endpoint
meets no fault**; and a malformed fragment is dropped. -/
theorem feed_covered (e : Inner) (hfresh : ∀ id, e.recvCache id = none) (l : List Arrival)
    (hcov : Covered e.ccId (fun _ => none) l) :
    (∃ r, feed e l = .ok r) ∧
      ∀ a ∈ l, a.slot.malformed →
        ∀ c, receive { e with recvCache := c } a = .ok ⟨{ e with recvCache := c }, a.chunks, none⟩ :=
  ⟨feed_ok (fun id => by rw [hfresh]) hcov, fun a ha hbad _ => receive_malformed (hcov.max a ha) hbad⟩

/-! ### Two peers -/

/-- A slot record of another endpoint, with a blank payload. -/
def peer (id remain : BitVec 32) (storage : Bool) : Arrival :=
  ⟨⟨2, id, remain, storage, Vector.replicate dataLength 0⟩, fun _ => none⟩

/-- A message of 65 bytes in its two fragments, an empty fragment, and a storage id that nothing is stored under. -/
def mail : List Arrival := [peer 0 1 false, peer 0 (-63) false, peer 7 (-64) false, peer 8 36 true]

theorem feed_covered_mail : (∃ r, feed newcomer mail = .ok r) ∧
    ∀ a ∈ mail, a.slot.malformed →
      ∀ c, receive { newcomer with recvCache := c } a = .ok ⟨{ newcomer with recvCache := c }, a.chunks, none⟩ := by
  refine feed_covered newcomer (fun _ => rfl) mail
    ⟨⟨by decide, ?_⟩, ⟨by decide, ?_⟩, ⟨by decide, ?_⟩, ⟨by decide, ?_⟩, trivial⟩
  all_goals
    intro _
    decide

/-- A second fragment of 64 bytes where one byte is owed goes out of the buffer's range; a size past the largest `i32`
overflows. -/
theorem overrun : feed newcomer [peer 0 1 false, peer 0 100 false] = .error .range ∧
    feed newcomer [peer 0 (BitVec.ofNat 32 (2 ^ 31 - 64)) false] = .error .overflow := by
  constructor <;> rfl

end ThothIpc.Message
