import ThothIpc.Channel.Fifo
import ThothIpc.Message.History
import ThothIpc.Message.Stream
import ThothIpc.Proto.Secure
import ThothIpc.Route.Evict

/-!
# From `send` to `recv`

The rings and the receive path together: what the buffers that `recv` returns have to do with those given to `send`.
A Rust sender cuts every message into fragments, so this is the way of each of its messages.

* `pushed_eq` : as long as a receiver survives, a route publishes what its sender pushes;
* `feed_sequence` : the receive path over messages sent one after the other;
* `route_delivers`, `channel_delivers` : a route's and a channel's receivers return the messages that were sent;
* `secure_delivers` : through the secure codec, they are decoded to what was encoded.
-/

namespace ThothIpc

/-! ## What a route publishes -/

namespace Route
open Steps

variable {ι : Type} {s t : State ι}

/-- The fragment being pushed. -/
def SPc.frag : SPc → List MsgT
  | .idle => []
  | .loadCc f | .loadEpoch f _ | .loadWt f _ _ | .loadRc f _ _ _ | .live f _ _ _ _ _ _ | .busy f _ _ | .cas f _ _ _ _
  | .write f _ _ | .bump f | .forceEpoch f _ _ | .forceRc f _ _ | .forceLive f _ _ _ | .forceConns f _ _
  | .forceSlot f _ _ => [f]

/-- The fragments of the pushes that the run starts. -/
def pushes (acts : List (Act ι)) : List MsgT :=
  acts.filterMap fun
    | .sender (.push f) => some f
    | _ => none

/-- While a receiver is connected and not evicted, a push ends with its fragment published. -/
theorem SPc.step_frag {g g' : Ring} {pc pc' : SPc} {out : List MsgT} {b : Nat} (hc : g.connections.getLsbD b = true)
    (hev : pc.evicts.getLsbD b = false) (h : pc.step g = some (g', pc', out)) : out ++ pc'.frag = pc.frag := by
  have hb := BitVec.lt_of_getLsbD hc
  cases pc
  case loadCc f =>
    simp only [SPc.step] at h
    split at h
    · rename_i h0
      have := congrArg (fun x => BitVec.getLsbD x b) h0
      simp [hc] at this
      omega
    · cases h
      rfl
  case forceConns f wt rem =>
    simp only [SPc.step] at h
    split at h
    · rename_i h0
      have hleft : (g.connections &&& ~~~rem).getLsbD b = true := by
        rw [BitVec.getLsbD_and, BitVec.getLsbD_not, hc, show rem.getLsbD b = false from hev]
        simpa using hb
      rw [h0] at hleft
      simp at hleft
    · cases h
      rfl
  all_goals
    simp only [SPc.step] at h
    repeat' split at h
  all_goals cases h <;> rfl

variable [DecidableEq ι] {w₀ b : Nat} {i : ι} {s₀ : State ι} {acts : List (Act ι)}

/-- Receiver `i` stays and is not evicted, and no claim stamps over a live mark of it from an older epoch. -/
def surviving (i : ι) (b : Nat) (s : State ι) (act : Act ι) : Prop :=
  stays i b s act ∧ s.sender.holdsEpoch s.ring b = true ∧ s.pushed.length < 2 ^ 31

instance (i : ι) (b : Nat) (s : State ι) (act : Act ι) : Decidable (surviving i b s act) :=
  inferInstanceAs (Decidable (_ ∧ _))

theorem Follows.surviving_step {act : Act ι} (h : Follows w₀ s i b w₀ w₀) (hok : surviving i b s act)
    (hst : s.step act = some t) : Follows w₀ t i b w₀ w₀ := by
  obtain ⟨⟨hd, hstay⟩, hep, hlen⟩ := hok
  refine h.step hd (fun _ => h.spares hstay hep fun _ hP => ?_) hst
  simp only [pos, Receiver.next] at hP ⊢
  omega

theorem Follows.step_pushes {act : Act ι} (h : Follows w₀ s i b w₀ w₀) (hok : surviving i b s act)
    (hst : s.step act = some t) : t.pushed ++ t.sender.frag = s.pushed ++ s.sender.frag ++ pushes [act] := by
  rcases State.step_cases hst with ⟨a, g, pc, out, rfl, ha, rfl⟩ | ⟨j, a, g, r, rfl, -, rfl⟩
  · rcases SPc.act_cases ha with ⟨rfl, hgo⟩ | ⟨-, rfl, ⟨f, rfl, hs, rfl⟩ | ⟨f, _, _, _, _, rfl, hs, rfl⟩ |
      ⟨f, _, _, rfl, hs, rfl⟩⟩
    · simp [pushes, ← SPc.step_frag h.attached.guard.conn hok.1.2 hgo]
    all_goals simp [pushes, hs, SPc.frag]
  · simp [pushes]

/-- **A route publishes what its sender pushes, in order**, as long as a receiver survives. -/
theorem pushed_eq (h0 : Connected w₀ i b s₀) (hrun : Run State.step (surviving i b) s₀ acts s) :
    Follows w₀ s i b w₀ w₀ ∧ s.pushed ++ s.sender.frag = pushes acts := by
  induction hrun with
  | nil => exact ⟨h0.follows, by simp [h0.pushed, h0.idle, SPc.frag, pushes]⟩
  | snoc _ hok hst ih =>
    refine ⟨ih.1.surviving_step hok hst, ?_⟩
    rw [ih.1.step_pushes hok hst, ih.2, pushes, pushes, ← List.filterMap_append, pushes]

theorem got_of_pushes (h0 : Connected w₀ i b s₀) (hrun : Run State.step (surviving i b) s₀ acts s) :
    (s.recvs i).got <+: s.pushed ∧ (s.recvs i).got <+: pushes acts := by
  obtain ⟨hinv, hpushed⟩ := pushed_eq h0 hrun
  have hgot := hinv.lossless.got
  rw [Nat.sub_self, List.drop_zero] at hgot
  exact ⟨hgot, hgot.trans (hpushed ▸ List.prefix_append _ _)⟩

end Route

/-! ## One message after the other -/

namespace Message

/-- The number of messages that a stream of fragments has in full, if they come one after the other. -/
structure Upto (msgs : List Sent) (F : List MsgT) (n : Nat) : Prop where
  le : n ≤ msgs.length
  whole : (msgs.take n).flatMap Sent.fragments <+: F
  short : n < msgs.length → F.length < ((msgs.take (n + 1)).flatMap Sent.fragments).length

theorem feed_sequence {e : Inner} (hfresh : ∀ x, e.recvCache x = none) : ∀ {msgs : List Sent} {F : List MsgT}
    {l : List Arrival}, (∀ m ∈ msgs, 1 ≤ m.data.length ∧ m.data.length < 2 ^ 31 ∧ m.ccId ≠ e.ccId) →
    F <+: msgs.flatMap Sent.fragments → List.Forall₂ Carries l F →
    ∃ n e', feed e l = .ok (e', (msgs.take n).map Sent.data) ∧ Upto msgs F n
  | [], F, l, _, hF, hl => by
    obtain rfl := List.prefix_nil.mp hF
    rw [List.forall₂_nil_right_iff] at hl
    subst hl
    exact ⟨0, e, rfl, Nat.le_refl _, List.prefix_rfl, fun h => absurd h (Nat.lt_irrefl 0)⟩
  | m :: msgs, F, l, hm, hF, hl => by
    obtain ⟨h1, hlen, hcc⟩ := hm m List.mem_cons_self
    have hcount := Sent.length_fragments hlen
    have hpos : 0 < m.count := Sent.lt_count.mpr h1
    rw [List.flatMap_cons] at hF
    by_cases hk : m.count ≤ F.length
    · -- the first message is there in full, and the cache is empty again after it
      obtain ⟨F, rfl⟩ := List.prefix_of_prefix_length_le (List.prefix_append m.fragments _) hF (by omega)
      rw [List.prefix_append_right_inj] at hF
      obtain ⟨l, l', rfl, hl, hl'⟩ := carries_append hl
      obtain ⟨n, e', hfeed, hn⟩ := feed_sequence hfresh (fun x hx => hm x (List.mem_cons_of_mem m hx)) hF hl'
      have hfirst := feed_take hlen (hfresh m.id) (k := m.count) (by rwa [← hcount, List.take_length])
      have hcache : cached e.ccId e.recvCache (m, m.count) = e.recvCache := by
        rw [cached, if_neg hcc, Sent.entry_count (Nat.le_refl _)]
        exact Function.update_eq_self_iff.mpr (hfresh m.id).symm
      rw [hcache, returned, if_pos ⟨hcc, hpos, Nat.le_refl _⟩] at hfirst
      refine ⟨n + 1, e', ?_, Nat.succ_le_succ hn.le, ?_, fun h => ?_⟩
      · rw [feed_append hfirst, hfeed]
        rfl
      · rw [List.take_succ_cons, List.flatMap_cons, List.prefix_append_right_inj]
        exact hn.whole
      · rw [List.take_succ_cons, List.flatMap_cons, List.length_append, List.length_append]
        have := hn.short (Nat.lt_of_succ_lt_succ h)
        omega
    · have hpre := List.prefix_of_prefix_length_le hF (List.prefix_append m.fragments _) (by omega)
      rw [List.prefix_iff_eq_take.mp hpre] at hl
      have hfeed := feed_take hlen (hfresh m.id) hl
      rw [returned, if_neg fun h => hk h.2.2] at hfeed
      refine ⟨0, _, hfeed, Nat.zero_le _, List.nil_prefix, fun _ => ?_⟩
      simp only [Nat.zero_add, List.take_succ_cons, List.take_zero, List.flatMap_cons, List.flatMap_nil, List.append_nil]
      omega

theorem Upto.all {msgs : List Sent} {n : Nat} (h : Upto msgs (msgs.flatMap Sent.fragments) n) : n = msgs.length := by
  by_contra hne
  have hlt := h.short (Nat.lt_of_le_of_ne h.le hne)
  have hle := ((List.take_prefix (n + 1) msgs).flatMap Sent.fragments).length_le
  omega

/-! ## Interleaved messages -/

section Interleaved

variable {κ : Type*} [DecidableEq κ] {m : κ → Sent} {ccId : BitVec 32}

/-- The messages of other endpoints that the stream has in full, in the order of their last fragments. -/
def whole (m : κ → Sent) (ccId : BitVec 32) (T : List (κ × MsgT)) : List κ :=
  (tags T).dedup.filter fun k => sub T k = (m k).fragments ∧ (m k).ccId ≠ ccId

theorem completed_eq_filter {L : List κ} {c : κ → Nat} (h : ∀ k, c k + L.count k ≤ (m k).count) :
    completed m ccId c L = L.dedup.filter fun k => c k + L.count k = (m k).count ∧ (m k).ccId ≠ ccId := by
  induction L generalizing c with
  | nil => rfl
  | cons k L ih =>
    have hbump : ∀ j, bump c k j + L.count j = c j + (k :: L).count j := by
      intro j
      by_cases hj : j = k
      · subst hj
        rw [bump_self, List.count_cons_self]
        omega
      · rw [bump_of_ne hj, List.count_cons_of_ne fun he => hj he.symm]
    rw [completed, ih fun j => by rw [hbump]; exact h j]
    simp only [hbump]
    have hk := h k
    rw [List.count_cons_self] at hk
    by_cases hmem : k ∈ L
    · have hpos := List.count_pos_iff.2 hmem
      rw [List.dedup_cons_of_mem hmem, if_neg (fun hl => by omega), List.nil_append]
    · rw [List.dedup_cons_of_notMem hmem, List.filter_cons, List.count_cons_self, List.count_eq_zero_of_not_mem hmem]
      split_ifs <;> simp_all

/-- **The receive path over part of an interleaving**: it returns the messages that are there in full. -/
theorem feed_whole (hlen : ∀ k, (m k).data.length < 2 ^ 31) (hid : Function.Injective fun k => (m k).id)
    {T : List (κ × MsgT)} (hsub : ∀ k, sub T k <+: (m k).fragments) {e : Inner} (hfresh : ∀ x, e.recvCache x = none)
    {l : List Arrival} (hl : Bears l T) :
    ∃ e', feed e l = .ok (e', (whole m e.ccId T).map fun k => (m k).data) := by
  obtain ⟨e', hfeed, -⟩ := feed_stream (c := fun _ => 0) hlen hl hsub (apart_of_injective hid _ _)
    ((holds_iff_empty fun i hp => absurd hp.1 (by omega)).2 hfresh)
  refine ⟨e', hfeed.trans ?_⟩
  have hcount : ∀ k, (tags T).count k = (m k).count ↔ sub T k = (m k).fragments := by
    intro k
    rw [← length_sub, ← Sent.length_fragments (hlen k)]
    exact ⟨(hsub k).eq_of_length, congrArg _⟩
  rw [completed_eq_filter fun k => by
    rw [Nat.zero_add, ← length_sub, ← Sent.length_fragments (hlen k)]; exact (hsub k).length_le]
  simp only [Nat.zero_add, hcount, whole]

end Interleaved

end Message

open Message Steps

/-- A message of two bytes. -/
def note : Sent := ⟨2, 5, [8, 9]⟩

theorem carries_map_written (F : List MsgT) : List.Forall₂ Carries (F.map written) F :=
  List.forall₂_map_left_iff.mpr (List.forall₂_same.mpr fun f _ => carries_written f)

/-! ## The route -/

namespace Route

variable {ι : Type} [DecidableEq ι] {w₀ b : Nat} {i : ι} {s₀ s : State ι} {acts : List (Act ι)}

/-- **A route's receiver returns the messages that were sent, whole, each once and in order.** The sender pushes the
fragments of `msgs` one after the other; other receivers come, go and are evicted. What the receiver has read by then
gives back the messages of which it has read all fragments; and when it finds the ring empty after the last push, all. -/
theorem route_delivers (h0 : Connected w₀ i b s₀) (hrun : Run State.step (surviving i b) s₀ acts s) (msgs : List Sent)
    {e : Inner} (hfresh : ∀ x, e.recvCache x = none)
    (hm : ∀ m ∈ msgs, 1 ≤ m.data.length ∧ m.data.length < 2 ^ 31 ∧ m.ccId ≠ e.ccId)
    (hsend : pushes acts <+: msgs.flatMap Sent.fragments) {l : List Arrival} (hl : List.Forall₂ Carries l (s.recvs i).got) :
    ∃ n e', feed e l = .ok (e', (msgs.take n).map Sent.data) ∧ Upto msgs (s.recvs i).got n ∧
      (pushes acts = msgs.flatMap Sent.fragments → s.sender = .idle → s.ring.writeCursor = (s.recvs i).readCursor →
        n = msgs.length) := by
  obtain ⟨hinv, hpushed⟩ := pushed_eq h0 hrun
  have hloss := hinv.lossless
  obtain ⟨hgot, hpre⟩ := got_of_pushes h0 hrun
  obtain ⟨n, e', hfeed, hn⟩ := feed_sequence hfresh hm (hpre.trans hsend) hl
  refine ⟨n, e', hfeed, hn, fun hall hidle hempty => ?_⟩
  rw [hidle, SPc.frag, List.append_nil, hall] at hpushed
  have hlen : (s.recvs i).got.length = s.pushed.length := by
    rw [hloss.wt, hloss.cursor] at hempty
    have hmod := congrArg BitVec.toNat hempty
    have hlap := hloss.lap
    have hle := hgot.length_le
    have hpast : (s.recvs i).pc.past ≤ 1 := by
      unfold RPc.past
      split <;> omega
    simp only [BitVec.toNat_ofNat] at hmod
    omega
  rw [hgot.eq_of_length hlen, hpushed] at hn
  exact hn.all

/-- Two bytes, pushed and read. -/
theorem route_delivers_note : ∃ s, Run State.step (surviving 1 1) pair
      (pushActs (note.frag 0) ++ readActs 1 ++ [.recv 1 .go]) s ∧
    ∃ e', feed newcomer ((s.recvs 1).got.map written) = .ok (e', [note.data]) := by
  refine exists_run_imp (fun s => s.sender = .idle ∧ s.ring.writeCursor = (s.recvs 1).readCursor) (by decide +kernel)
    fun s hrun hs => ?_
  obtain ⟨n, e', hfeed, -, hall⟩ := route_delivers connected_pair hrun [note] (e := newcomer) (fun _ => rfl)
    (by decide) (by decide +kernel) (carries_map_written _)
  rw [hall (by decide +kernel) hs.1 hs.2] at hfeed
  exact ⟨e', hfeed⟩

end Route

/-! ## The channel -/

namespace Channel

variable {ω ι : Type} {s₀ s : State ω ι}

theorem Opening.settled (h : Opening s) (hall : ∀ i, (s.recvs i).pc = .ready) (hgot : ∀ i, (s.recvs i).got = []) :
    Settled s := by
  refine ⟨h.joint, fun i => by rw [hall i]; rfl, h.table, fun w cc o hw => ?_, fun i => ?_, fun i k m hk => ?_⟩
  · rw [h.idle w] at hw
    cases hw
  · rw [hgot i, (h.ready (by rw [hall i]; rfl)).2.1]
    rfl
  · rw [hgot i] at hk
    cases hk

/-- Once no writer is at work, a receiver that finds nothing to read has read everything. -/
theorem Settled.drained (h : Settled s) (hidle : ∀ w, s.writers w = .idle) {i : ι}
    (hempty : (s.recvs i).recv s.ring = some (s.recvs i)) : s.claims.length ≤ (s.recvs i).got.length := by
  by_contra hlt
  unfold Receiver.recv at hempty
  split at hempty
  · rename_i hpc
    rw [if_pos (h.next hpc (by omega) fun w f => by rw [hidle w]; exact fun hw => by cases hw)] at hempty
    have := congrArg Receiver.pc (Option.some.inj hempty)
    rw [hpc] at this
    cases this
  · cases hempty

variable {κ : Type} [DecidableEq ω] [DecidableEq ι] [DecidableEq κ] {acts : List (Act ω ι)}

end Channel

/-! ## The secure codec over a route -/

namespace Secure
open Bytes Envelope Route

variable {β μ : Type} {codec : Codec β μ} {cipher : Cipher}

/-- `TypedRouteCodec::send_builder` with the secure codec: the message handed to `send`, with its id. -/
def sendBuilder (codec : Codec β μ) (cipher : Cipher) (ccId : BitVec 32) (call : BitVec 32 × Call β) : Sent :=
  ⟨ccId, call.1, (fromInner codec cipher call.2).map UInt8.ofBitVec⟩

/-- `TypedRouteCodec::recv` with the secure codec: what it makes of the buffer. -/
def recv (codec : Codec β μ) (cipher : Cipher) (buf : List UInt8) : Except Bytes.Fault μ :=
  decode codec cipher (buf.map UInt8.toBitVec)

/-- The call has sealed its message, the cipher opens what was sealed, and the envelope fits. -/
structure Opens (codec : Codec β μ) (cipher : Cipher) (call : Call β) : Prop where
  opens : ∀ s, call.sealed = some s → cipher.openSealed s = some (codec.encode call.inner)
  built : fromInner codec cipher call ≠ []
  fits : (fromInner codec cipher call).length < 2 ^ 31

theorem decode_fromInner {call : Call β} (h : Opens codec cipher call) :
    decode codec cipher (fromInner codec cipher call) = .ok (codec.decode (codec.encode call.inner)) := by
  obtain ⟨-, s, hs, hbuild⟩ := (fromInner_eq_iff h.built).mp rfl
  obtain ⟨r, hr, hspec⟩ := parse_spec (fromInner codec cipher call)
  rw [(hspec ⟨cipher.algorithmId, cipher.keyId, s.nonce, s.ciphertext, s.tag⟩).mpr hbuild] at hr
  simp [decode, plainOf, h.built, hr, h.opens s hs, bind, Except.bind, pure, Except.pure]

variable {ι : Type} [DecidableEq ι] {w₀ b : Nat} {i : ι} {s₀ s : State ι} {acts : List (Act ι)}

/-- **A typed route with the secure codec delivers the messages that were built**: a receiver decodes what it has
received to the inner codec's messages, in order, as many as it has read all fragments of. -/
theorem secure_delivers (h0 : Connected w₀ i b s₀) (hrun : Run State.step (surviving i b) s₀ acts s)
    {calls : List (BitVec 32 × Call β)} (hcalls : ∀ c ∈ calls, Opens codec cipher c.2) {ccId : BitVec 32} {e : Inner}
    (hcc : ccId ≠ e.ccId) (hfresh : ∀ x, e.recvCache x = none)
    (hsend : pushes acts <+: (calls.map (sendBuilder codec cipher ccId)).flatMap Sent.fragments)
    {l : List Arrival} (hl : List.Forall₂ Carries l (s.recvs i).got) :
    ∃ n e' bufs, feed e l = .ok (e', bufs) ∧ Upto (calls.map (sendBuilder codec cipher ccId)) (s.recvs i).got n ∧
      bufs.map (recv codec cipher) = (calls.take n).map fun c => .ok (codec.decode (codec.encode c.2.inner)) := by
  obtain ⟨n, e', hfeed, hn⟩ := feed_sequence hfresh (fun m hm => by
    obtain ⟨c, hc, rfl⟩ := List.mem_map.mp hm
    have h := hcalls c hc
    simp only [sendBuilder, List.length_map]
    exact ⟨List.length_pos_iff.mpr h.built, h.fits, hcc⟩) ((got_of_pushes h0 hrun).2.trans hsend) hl
  refine ⟨n, e', _, hfeed, hn, ?_⟩
  rw [← List.map_take, List.map_map, List.map_map]
  refine List.map_congr_left fun c hc => ?_
  have hbytes : ((fromInner codec cipher c.2).map UInt8.ofBitVec).map UInt8.toBitVec = fromInner codec cipher c.2 := by
    rw [List.map_map]
    exact List.map_id _
  exact (congrArg (decode codec cipher) hbytes).trans (decode_fromInner (hcalls c (List.mem_of_mem_take hc)))

/-- The sealed message of one byte, with the id 5. -/
def sealedNote : Sent := sendBuilder plainCodec cipherOne 2 (5, sealedOne)

theorem secure_delivers_one : ∃ s, Run State.step (surviving 1 1) Route.pair
      (pushActs (sealedNote.frag 0) ++ readActs 1 ++ [.recv 1 .go]) s ∧
    ∃ e' bufs, feed newcomer ((s.recvs 1).got.map written) = .ok (e', bufs) ∧
      bufs.map (recv plainCodec cipherOne) = [.ok [6]] := by
  refine exists_run_imp (fun s => (s.recvs 1).got = [sealedNote].flatMap Sent.fragments) (by decide +kernel)
    fun s hrun hs => ?_
  have hopens : ∀ c ∈ [((5 : BitVec 32), sealedOne)], Opens plainCodec cipherOne c.2 := fun c hc => by
    obtain rfl := List.mem_singleton.mp hc
    exact ⟨fun s hs => by cases hs; rfl, by decide +kernel, by decide +kernel⟩
  obtain ⟨n, e', bufs, hfeed, hn, hbufs⟩ := secure_delivers connected_pair hrun hopens
    (show (2 : BitVec 32) ≠ newcomer.ccId by decide) (fun _ => rfl) (by decide +kernel) (carries_map_written _)
  rw [hs] at hn
  rw [hn.all] at hbufs
  exact ⟨e', bufs, hfeed, hbufs⟩

end Secure

end ThothIpc
