import ThothIpc.Lib.Run
import ThothIpc.Msg

/-!
# The receive path: decode, chunk storage, reassembly

What `recv` and `recv_multi` do with a slot once they have found it readable, up to the buffer they return:

* `decode` reads the header, computes `r_size` and takes the payload bytes or the storage id out of the slot;
* `assembleMessage` reads a large message from the chunk storage, or adds an inline fragment to the reassembly cache;
* `feed` runs both over a stream of slots, with the buffers returned on the way.

Everything that would stop the code is a `Fault`. A slot's record is its bytes: the four header fields over their whole
range and the 64 payload bytes, of which a writer overwrites only as many as its fragment has.
The chunk storage is shared with the peers, so what an arrival finds there is part of the arrival.
-/

namespace ThothIpc.Message

def dataLength : Nat := 64

inductive Fault where
  /-- An `i32` operation left its range. -/
  | overflow
  /-- A slice of a reassembly buffer went out of its range. -/
  | range
  /-- A read went past the slot's payload. -/
  | payload
  /-- A read went past the chunk's payload window. -/
  | window
  /-- `frag.unwrap()` found nothing. -/
  | unwrap
  deriving DecidableEq, Repr

/-- The result of an `i32` operation. -/
def i32 (n : Int) : Except Fault Int :=
  if -2 ^ 31 ≤ n ∧ n < 2 ^ 31 then .ok n else .error .overflow

/-! ## The slot's record -/

/-- The bytes of a slot's `msg_t<64,8>`. -/
structure SlotMsg where
  ccId : BitVec 32
  id : BitVec 32
  remain : BitVec 32
  storage : Bool
  payload : Vector UInt8 dataLength
  deriving DecidableEq

namespace SlotMsg

/-- `write_msg`: the header fields, and as many payload bytes as the fragment has. -/
def writeMsg (old : SlotMsg) (f : MsgT) : SlotMsg where
  ccId := f.ccId
  id := f.id
  remain := BitVec.ofInt 32 f.remain
  storage := f.storage
  payload := Vector.ofFn fun k => f.payload.getD k (old.payload.get k)

def readPayload (s : SlotMsg) (n : Nat) : Except Fault (List UInt8) :=
  if n ≤ dataLength then .ok (s.payload.toList.take n) else .error .payload

/-- `read_storage_id`: the first four payload bytes, least significant first. -/
def readStorageId (s : SlotMsg) : Int :=
  let byte (k : Fin 4) : BitVec 8 := (s.payload.get ⟨k, Nat.lt_trans k.isLt (by decide)⟩).toBitVec
  (byte 3 ++ byte 2 ++ byte 1 ++ byte 0 : BitVec 32).toInt

end SlotMsg

/-! ## Chunk storage -/

/-- `MAX_COUNT`: the chunks of one size. -/
def maxCount : Nat := 32

/-- `CHUNK_HEADER`: a chunk's bytes before its payload. -/
def chunkHeader : Nat := 8

def chunkAlign : Nat := 1024

def calcChunkSize (size : Nat) : Nat :=
  (chunkHeader + size + (chunkAlign - 1)) / chunkAlign * chunkAlign

/-- The chunk shm for chunks of one size: the id pool's free list, and each chunk's `conns` and payload window. -/
structure ChunkShm (chunkSize : Nat) where
  next : Nat → Nat
  cursor : Nat
  conns : Nat → BitVec 32
  payload : Nat → List UInt8
  window : ∀ k, (payload k).length = chunkSize - chunkHeader

namespace ChunkShm

variable {n : Nat}

/-- `ChunkInfo::release`. -/
def release (shm : ChunkShm n) (id : Int) : ChunkShm n :=
  if id < 0 ∨ maxCount ≤ id then shm
  else { shm with next := Function.update shm.next id.toNat shm.cursor, cursor := id.toNat }

/-- `find_storage`, and the read of `size` bytes through the pointer it returns. -/
def findStorage (shm : ChunkShm n) (id : Int) (size : Nat) : Except Fault (Option (List UInt8)) :=
  if id < 0 ∨ maxCount ≤ id then .ok none
  else if size ≤ (shm.payload id.toNat).length then .ok (some ((shm.payload id.toNat).take size))
  else .error .window

/-- `recycle_storage`: clear the receiver's bit; the last reader gives the id back to the pool. -/
def recycleStorage (shm : ChunkShm n) (id : Int) (connId : BitVec 32) : ChunkShm n :=
  if id < 0 ∨ maxCount ≤ id then shm
  else
    let nxt := shm.conns id.toNat &&& ~~~connId
    let shm := { shm with conns := Function.update shm.conns id.toNat nxt }
    if nxt = 0 then shm.release id else shm

end ChunkShm

/-- The chunk shm of each size, where it can be opened. -/
abbrev Chunks : Type := ∀ chunkSize : Nat, Option (ChunkShm chunkSize)

/-! ## Decode and reassembly -/

/-- What a slot says, as `assemble_message` gets it. -/
structure Decoded where
  keep : Bool
  id : BitVec 32
  remain : Int
  rSize : Int
  storageId : Option Int
  frag : Option (List UInt8)

/-- The part of `recv` that reads the slot, on an endpoint with id `ccId`. -/
def decode (ccId : BitVec 32) (s : SlotMsg) : Except Fault Decoded := do
  let remain := s.remain.toInt
  let rSize ← i32 (dataLength + remain)
  let keep := s.ccId != ccId && decide (0 < rSize)
  let storageId := if keep && s.storage then some s.readStorageId else none
  let frag ←
    if keep && !s.storage then some <$> s.readPayload (if remain ≤ 0 then rSize.toNat else dataLength) else pure none
  pure ⟨keep, s.id, remain, rSize, storageId, frag⟩

/-- `buf[off..off + n].copy_from_slice(&frag)`. -/
def copyInto (buf : List UInt8) (off : Nat) (frag : List UInt8) : Except Fault (List UInt8) :=
  if off + frag.length ≤ buf.length then .ok (buf.take off ++ frag ++ buf.drop (off + frag.length)) else .error .range

/-- `recv_cache`: by message id, how far a message has come and its buffer. -/
abbrev Cache : Type := BitVec 32 → Option (Nat × List UInt8)

/-- The fields of the receiving endpoint that the receive path uses. -/
structure Inner where
  ccId : BitVec 32
  connId : BitVec 32
  recvCache : Cache

/-- What a receive finds: a slot's record, and the chunk storage as the peers have left it. -/
structure Arrival where
  slot : SlotMsg
  chunks : Chunks

/-- What a receive leaves: the endpoint, the chunk storage, and the buffer it returns, if any. -/
structure Outcome where
  inner : Inner
  chunks : Chunks
  out : Option (List UInt8)

/-- The large-message branch of `assemble_message`. -/
def takeStorage (e : Inner) (chunks : Chunks) (sid rSize : Int) : Except Fault Outcome :=
  let chunkSize := calcChunkSize rSize.toNat
  match chunks chunkSize with
  | none => .ok ⟨e, chunks, none⟩
  | some shm => do
    let out ← shm.findStorage sid rSize.toNat
    pure ⟨e, Function.update chunks chunkSize (some (shm.recycleStorage sid e.connId)), out⟩

/-- The inline branch of `assemble_message`. -/
def takeFragment (e : Inner) (chunks : Chunks) (id : BitVec 32) (remain rSize : Int) (frag : List UInt8) :
    Except Fault Outcome :=
  match e.recvCache id with
  | some (off, buf) => do
    let buf ← copyInto buf off frag
    if remain ≤ 0 then pure ⟨{ e with recvCache := Function.update e.recvCache id none }, chunks, some buf⟩
    else
      pure ⟨{ e with recvCache := Function.update e.recvCache id (some (off + frag.length, buf)) }, chunks, none⟩
  | none =>
    if remain ≤ 0 then .ok ⟨e, chunks, some frag⟩
    else do
      let buf ← copyInto (List.replicate rSize.toNat 0) 0 frag
      pure ⟨{ e with recvCache := Function.update e.recvCache id (some (frag.length, buf)) }, chunks, none⟩

def assembleMessage (e : Inner) (chunks : Chunks) (d : Decoded) : Except Fault Outcome :=
  if !d.keep then .ok ⟨e, chunks, none⟩
  else
    match d.storageId with
    | some sid => takeStorage e chunks sid d.rSize
    | none =>
      match d.frag with
      | some frag => takeFragment e chunks d.id d.remain d.rSize frag
      | none => .error .unwrap

def receive (e : Inner) (a : Arrival) : Except Fault Outcome := do
  let d ← decode e.ccId a.slot
  assembleMessage e a.chunks d

/-- The receive path over a stream: the endpoint at its end, and the buffers returned, in order. -/
def feed (e : Inner) : List Arrival → Except Fault (Inner × List (List UInt8))
  | [] => .ok (e, [])
  | a :: rest => do
    let o ← receive e a
    let (e, outs) ← feed o.inner rest
    pure (e, o.out.toList ++ outs)

/-- An endpoint that has received nothing. -/
def newcomer : Inner := ⟨1, 1, fun _ => none⟩

/-! ## What the decoder does -/

theorem i32_ok {n : Int} (hlo : -2 ^ 31 ≤ n) (hhi : n < 2 ^ 31) : i32 n = .ok n :=
  if_pos ⟨hlo, hhi⟩

/-- The bytes an inline fragment announces for this slot. -/
def SlotMsg.carried (s : SlotMsg) : Nat :=
  if s.remain.toInt ≤ 0 then (dataLength + s.remain.toInt).toNat else dataLength

/-- The slot's record is kept and is an inline fragment. -/
def SlotMsg.inline (s : SlotMsg) (ccId : BitVec 32) : Bool :=
  s.ccId != ccId && decide (0 < dataLength + s.remain.toInt) && !s.storage

theorem SlotMsg.carried_le (s : SlotMsg) : s.carried ≤ dataLength := by
  unfold SlotMsg.carried
  split <;> omega

theorem SlotMsg.readPayload_carried (s : SlotMsg) : s.readPayload s.carried = .ok (s.payload.toList.take s.carried) :=
  if_pos s.carried_le

theorem SlotMsg.length_take_carried (s : SlotMsg) : (s.payload.toList.take s.carried).length = s.carried := by
  have h := s.carried_le
  simp only [List.length_take, Vector.length_toList]
  omega

variable {e : Inner} {a : Arrival}

theorem receive_dropped (hmax : dataLength + a.slot.remain.toInt < 2 ^ 31)
    (hdrop : a.slot.ccId = e.ccId ∨ dataLength + a.slot.remain.toInt ≤ 0) : receive e a = .ok ⟨e, a.chunks, none⟩ := by
  have hlo : -2 ^ 31 ≤ (dataLength : Int) + a.slot.remain.toInt := by
    have := BitVec.le_toInt a.slot.remain
    simp only [dataLength]
    omega
  have hk : (a.slot.ccId != e.ccId && decide (0 < (dataLength : Int) + a.slot.remain.toInt)) = false := by
    rcases hdrop with h | h
    · simp [h]
    · simp [not_lt.2 h]
  simp only [receive, decode, i32_ok hlo hmax, assembleMessage, hk, bind, Except.bind, pure, Except.pure]
  rfl

theorem receive_storage (hmax : dataLength + a.slot.remain.toInt < 2 ^ 31) (hcc : a.slot.ccId ≠ e.ccId)
    (hpos : 0 < dataLength + a.slot.remain.toInt) (hst : a.slot.storage = true) :
    receive e a = takeStorage e a.chunks a.slot.readStorageId (dataLength + a.slot.remain.toInt) := by
  have hlo : -2 ^ 31 ≤ (dataLength : Int) + a.slot.remain.toInt := by omega
  have hk : (a.slot.ccId != e.ccId && decide (0 < (dataLength : Int) + a.slot.remain.toInt)) = true := by
    simp [hcc, hpos]
  simp only [receive, decode, i32_ok hlo hmax, assembleMessage, hk, hst, bind, Except.bind, pure, Except.pure]
  rfl

/-- An inline fragment goes to the reassembly cache, with the bytes it announces. -/
theorem receive_inline (hmax : dataLength + a.slot.remain.toInt < 2 ^ 31) (hin : a.slot.inline e.ccId = true) :
    receive e a = takeFragment e a.chunks a.slot.id a.slot.remain.toInt (dataLength + a.slot.remain.toInt)
      (a.slot.payload.toList.take a.slot.carried) := by
  simp only [SlotMsg.inline, Bool.and_eq_true, Bool.not_eq_true'] at hin
  obtain ⟨hk, hst⟩ := hin
  have hlo : -2 ^ 31 ≤ (dataLength : Int) + a.slot.remain.toInt := by
    simp only [bne_iff_ne, ne_eq, decide_eq_true_eq] at hk
    omega
  have hp := a.slot.readPayload_carried
  unfold SlotMsg.carried at hp
  simp only [receive, decode, i32_ok hlo hmax, assembleMessage, hk, hst, hp, bind, Except.bind, pure, Except.pure,
    Functor.map, Except.map, SlotMsg.carried]
  rfl

end ThothIpc.Message
