import ThothIpc.Message.Receive

/-!
# Fragments, and one fragment's way through the receive path

* `Sent.fragments`: the fragments `send` pushes for a message, as its loop and its tail make them;
* `Sent.frag`: the same fragments, by their number (`fragments_eq`);
* `Carries`: a slot to which a fragment was written, over whatever the slot held before;
* `Sent.entry`: what the reassembly cache holds for a message of which a number of fragments have come;
* `receive_frag`: the next fragment of a message moves its entry on, and the last one returns the message.
-/

namespace ThothIpc.Message

/-- A message handed to `send`, with its sender's endpoint id and the message id it was given. -/
structure Sent where
  ccId : BitVec 32
  id : BitVec 32
  data : List UInt8

/-- `as i32`. -/
def toI32 (n : Nat) : Int := (BitVec.ofNat 32 n).toInt

theorem toI32_of_lt {n : Nat} (h : n < 2 ^ 31) : toI32 n = n := by
  rw [toI32, BitVec.toInt_eq_toNat_bmod, BitVec.toNat_ofNat, Int.bmod_def]
  omega

namespace Sent

variable {m : Sent} {k : Nat}

/-- The fragments of `send`: the full ones, then what is left over. -/
def fragments (m : Sent) : List MsgT :=
  let size := m.data.length
  let full := size / dataLength
  let tail := size - dataLength * full
  (List.range full).map (fun k => ⟨m.ccId, m.id, toI32 size - toI32 (dataLength * k) - dataLength, false,
    (m.data.drop (dataLength * k)).take dataLength⟩) ++
    if 0 < tail then [⟨m.ccId, m.id, toI32 tail - dataLength, false, m.data.drop (dataLength * full)⟩] else []

def count (m : Sent) : Nat := (m.data.length + (dataLength - 1)) / dataLength

def frag (m : Sent) (k : Nat) : MsgT :=
  ⟨m.ccId, m.id, m.data.length - dataLength * k - dataLength, false, (m.data.drop (dataLength * k)).take dataLength⟩

theorem lt_count : k < m.count ↔ dataLength * k < m.data.length := by
  simp only [count, dataLength]
  omega

theorem succ_eq_count (hk : k < m.count) :
    k + 1 = m.count ↔ (m.data.length : Int) - dataLength * k - dataLength ≤ 0 := by
  simp only [count, dataLength] at *
  omega

theorem count_of_tail (h : 0 < m.data.length - dataLength * (m.data.length / dataLength)) :
    m.count = m.data.length / dataLength + 1 := by
  simp only [count, dataLength] at *
  omega

theorem count_of_full (h : ¬0 < m.data.length - dataLength * (m.data.length / dataLength)) :
    m.count = m.data.length / dataLength := by
  simp only [count, dataLength] at *
  omega

theorem full_eq (hlen : m.data.length < 2 ^ 31) :
    ((List.range (m.data.length / dataLength)).map fun k => (⟨m.ccId, m.id, toI32 m.data.length -
      toI32 (dataLength * k) - dataLength, false, (m.data.drop (dataLength * k)).take dataLength⟩ : MsgT)) =
      (List.range (m.data.length / dataLength)).map m.frag := by
  refine List.map_congr_left fun k hk => ?_
  rw [List.mem_range] at hk
  have hk' : dataLength * k < 2 ^ 31 := by
    simp only [dataLength] at *
    omega
  rw [toI32_of_lt hlen, toI32_of_lt hk', frag]
  push_cast
  rfl

/-- A message that an `i32` can measure is cut into `count` fragments. -/
theorem fragments_eq (hlen : m.data.length < 2 ^ 31) : m.fragments = (List.range m.count).map m.frag := by
  rw [fragments]
  simp only [full_eq hlen]
  by_cases htail : 0 < m.data.length - dataLength * (m.data.length / dataLength)
  · have hlt : m.data.length - dataLength * (m.data.length / dataLength) < dataLength := by
      simp only [dataLength]
      omega
    rw [if_pos htail, count_of_tail htail, List.range_succ, List.map_append, List.map_singleton, frag,
      toI32_of_lt (by omega), List.take_of_length_le (by rw [List.length_drop]; omega)]
    congr 4
    simp only [dataLength] at *
    omega
  · rw [if_neg htail, count_of_full htail, List.append_nil]

theorem length_fragments (hlen : m.data.length < 2 ^ 31) : m.fragments.length = m.count := by
  rw [fragments_eq hlen, List.length_map, List.length_range]

theorem drop_fragments (hlen : m.data.length < 2 ^ 31) (hk : k < m.count) :
    m.fragments.drop k = m.frag k :: m.fragments.drop (k + 1) := by
  have hl := length_fragments hlen
  rw [List.drop_eq_getElem_cons (by omega)]
  congr 1
  simp [fragments_eq hlen]

/-- What the reassembly cache holds for the message once `k` of its fragments have come. -/
def entry (m : Sent) (k : Nat) : Option (Nat × List UInt8) :=
  if 0 < k ∧ k < m.count then
    some (dataLength * k, m.data.take (dataLength * k) ++ List.replicate (m.data.length - dataLength * k) 0)
  else none

theorem entry_zero : m.entry 0 = none :=
  if_neg (by omega)

theorem entry_count (hk : m.count ≤ k) : m.entry k = none :=
  if_neg (by omega)

end Sent

/-! ## A slot that carries a fragment -/

/-- The fragment was written to the slot, over whatever the slot held. -/
def Carries (a : Arrival) (f : MsgT) : Prop :=
  ∃ old : SlotMsg, a.slot = old.writeMsg f

/-- A slot of an all-zero ring, after the fragment was written to it. -/
def written (f : MsgT) : Arrival :=
  ⟨SlotMsg.writeMsg ⟨0, 0, 0, false, Vector.replicate dataLength 0⟩ f, fun _ => none⟩

theorem carries_written (f : MsgT) : Carries (written f) f :=
  ⟨_, rfl⟩

theorem toInt_ofInt_of_range {r : Int} (hlo : -2 ^ 31 ≤ r) (hhi : r < 2 ^ 31) : (BitVec.ofInt 32 r).toInt = r := by
  rw [BitVec.toInt_ofInt, Int.bmod_def]
  omega

theorem take_writeMsg (old : SlotMsg) (f : MsgT) (h : f.payload.length ≤ dataLength) :
    (old.writeMsg f).payload.toList.take f.payload.length = f.payload := by
  refine List.ext_getElem ?_ fun k hk hk' => ?_
  · simp only [List.length_take, Vector.length_toList]
    omega
  · simp [SlotMsg.writeMsg, hk']

section Frag

variable {m : Sent} {k : Nat} {a : Arrival}

theorem length_frag_payload : (m.frag k).payload.length = min dataLength (m.data.length - dataLength * k) := by
  rw [Sent.frag, List.length_take, List.length_drop]

theorem Carries.remain (ha : Carries a (m.frag k)) (hlen : m.data.length < 2 ^ 31) (hk : k < m.count) :
    a.slot.remain.toInt = m.data.length - dataLength * k - dataLength := by
  obtain ⟨old, ha⟩ := ha
  rw [Sent.lt_count] at hk
  rw [ha]
  refine toInt_ofInt_of_range ?_ ?_ <;> simp only [Sent.frag, dataLength] at * <;> omega

theorem Carries.max (ha : Carries a (m.frag k)) (hlen : m.data.length < 2 ^ 31) (hk : k < m.count) :
    dataLength + a.slot.remain.toInt < 2 ^ 31 := by
  have hr := ha.remain hlen hk
  have hpos : (0 : Int) ≤ (dataLength : Int) * k := by positivity
  omega

theorem Carries.carried (ha : Carries a (m.frag k)) (hlen : m.data.length < 2 ^ 31) (hk : k < m.count) :
    a.slot.carried = (m.frag k).payload.length := by
  rw [SlotMsg.carried, ha.remain hlen hk, length_frag_payload]
  rw [Sent.lt_count] at hk
  split <;> omega

theorem Carries.take (ha : Carries a (m.frag k)) (hlen : m.data.length < 2 ^ 31) (hk : k < m.count) :
    a.slot.payload.toList.take a.slot.carried = (m.data.drop (dataLength * k)).take dataLength := by
  rw [ha.carried hlen hk]
  obtain ⟨old, ha⟩ := ha
  rw [ha]
  exact take_writeMsg old _ (by rw [length_frag_payload]; omega)

theorem Carries.inline (ha : Carries a (m.frag k)) (hlen : m.data.length < 2 ^ 31) (hk : k < m.count)
    {ccId : BitVec 32} (hcc : m.ccId ≠ ccId) : a.slot.inline ccId = true := by
  have hr := ha.remain hlen hk
  rw [Sent.lt_count] at hk
  have hpos : 0 < (dataLength : Int) + a.slot.remain.toInt := by omega
  obtain ⟨old, ha⟩ := ha
  have h1 : a.slot.ccId = m.ccId := by rw [ha]; rfl
  have h2 : a.slot.storage = false := by rw [ha]; rfl
  simp [SlotMsg.inline, h1, h2, hcc, hpos]

theorem Carries.id (ha : Carries a (m.frag k)) : a.slot.id = m.id := by
  obtain ⟨old, ha⟩ := ha
  rw [ha]
  rfl

theorem receive_own (ha : Carries a (m.frag k)) (hlen : m.data.length < 2 ^ 31) (hk : k < m.count) {e : Inner}
    (hcc : m.ccId = e.ccId) : receive e a = .ok ⟨e, a.chunks, none⟩ := by
  refine receive_dropped (ha.max hlen hk) (Or.inl ?_)
  obtain ⟨old, ha⟩ := ha
  rw [ha]
  exact hcc

/-! ## The reassembly buffer -/

theorem copyInto_first (h1 : 1 < m.count) :
    copyInto (List.replicate m.data.length 0) 0 (m.data.take dataLength) =
      .ok (m.data.take dataLength ++ List.replicate (m.data.length - dataLength) 0) := by
  rw [Sent.lt_count] at h1
  have hl : (m.data.take dataLength).length = dataLength := by
    rw [List.length_take]
    omega
  rw [copyInto, if_pos (by rw [hl, List.length_replicate]; omega), hl]
  simp

theorem copyInto_next (hk : k < m.count) :
    copyInto (m.data.take (dataLength * k) ++ List.replicate (m.data.length - dataLength * k) 0) (dataLength * k)
        ((m.data.drop (dataLength * k)).take dataLength) =
      .ok (m.data.take (dataLength * (k + 1)) ++ List.replicate (m.data.length - dataLength * (k + 1)) 0) := by
  rw [Sent.lt_count] at hk
  have hl : (m.data.take (dataLength * k)).length = dataLength * k := by
    rw [List.length_take]
    omega
  have hf : ((m.data.drop (dataLength * k)).take dataLength).length = min dataLength
    (m.data.length - dataLength * k) := by
    rw [List.length_take, List.length_drop]
  have hdrop : (m.data.take (dataLength * k)).drop (dataLength * k + min dataLength (m.data.length - dataLength * k)) =
      [] :=
    List.drop_of_length_le (by rw [hl]; omega)
  rw [copyInto, if_pos (by rw [List.length_append, hl, hf, List.length_replicate]; omega), hf,
    List.take_left' hl, List.drop_append, hl, hdrop, List.drop_replicate, List.nil_append]
  congr 2
  · rw [Nat.mul_succ, List.take_add]
  · congr 1
    rw [Nat.mul_succ]
    omega

/-- **The next fragment of a message moves its cache entry on, and the last one returns the message.** -/
theorem receive_frag {e : Inner} (ha : Carries a (m.frag k)) (hlen : m.data.length < 2 ^ 31) (hk : k < m.count)
    (hcc : m.ccId ≠ e.ccId) (hc : e.recvCache m.id = m.entry k) :
    receive e a = .ok ⟨{ e with recvCache := Function.update e.recvCache m.id (m.entry (k + 1)) }, a.chunks,
      if k + 1 = m.count then some m.data else none⟩ := by
  have hr := ha.remain hlen hk
  have hlast := Sent.succ_eq_count hk
  rw [receive_inline (ha.max hlen hk) (ha.inline hlen hk hcc), ha.id, ha.take hlen hk, hr]
  by_cases h0 : k = 0
  · -- the first fragment: it is the message, or it makes the buffer
    subst h0
    rw [Sent.entry_zero] at hc
    by_cases h1 : 0 + 1 = m.count
    · rw [if_pos h1, Sent.entry_count (by omega), Function.update_eq_self_iff.2 hc.symm]
      simp only [takeFragment, hc, if_pos (hlast.1 h1)]
      have hall : (m.data.drop (dataLength * 0)).take dataLength = m.data := by
        rw [Nat.mul_zero, List.drop_zero, List.take_of_length_le (by have := hlast.1 h1; omega)]
      rw [hall]
    · have h1' : 1 < m.count := by omega
      have hbuf := copyInto_first h1'
      have hsize : ((dataLength : Int) + ((m.data.length : Int) - dataLength * (0 : Nat) - dataLength)).toNat =
          m.data.length := by
        omega
      rw [if_neg h1]
      simp only [takeFragment, hc, if_neg (fun h => h1 (hlast.2 h)), hsize, Nat.mul_zero, List.drop_zero, hbuf]
      rw [Sent.entry, if_pos ⟨Nat.zero_lt_succ 0, h1'⟩]
      rw [Sent.lt_count] at h1'
      have hl : (m.data.take dataLength).length = dataLength := by
        rw [List.length_take]
        omega
      simp [bind, Except.bind, pure, Except.pure, hl]
  · have hin : 0 < k ∧ k < m.count := ⟨Nat.pos_of_ne_zero h0, hk⟩
    have hbuf := copyInto_next hk
    rw [Sent.entry, if_pos hin] at hc
    by_cases h1 : k + 1 = m.count
    · have hz : m.data.length ≤ dataLength * (k + 1) := by
        have := hlast.1 h1
        rw [Nat.mul_succ]
        omega
      rw [if_pos h1, Sent.entry_count (by omega)]
      simp only [takeFragment, hc, hbuf, if_pos (hlast.1 h1), bind, Except.bind, pure, Except.pure]
      rw [List.take_of_length_le hz, Nat.sub_eq_zero_of_le hz, List.replicate_zero, List.append_nil]
    · have hin' : 0 < k + 1 ∧ k + 1 < m.count := ⟨Nat.succ_pos k, by omega⟩
      rw [if_neg h1, Sent.entry, if_pos hin']
      simp only [takeFragment, hc, hbuf, if_neg (fun h => h1 (hlast.2 h)), bind, Except.bind, pure, Except.pure]
      rw [Sent.lt_count] at hin'
      have hl : ((m.data.drop (dataLength * k)).take dataLength).length = dataLength := by
        rw [List.length_take, List.length_drop]
        rw [Nat.mul_succ] at hin'
        omega
      rw [hl, Nat.mul_succ]

end Frag

end ThothIpc.Message
