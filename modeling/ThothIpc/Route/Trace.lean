import ThothIpc.Route.Reader

/-!
# Whole pushes and reads

What one undisturbed call does, as a run of the system.

* `run_push` : a push that finds its slot free publishes the fragment, marked for every connected receiver;
* `run_recv` : a `recv` that finds a fragment reads it, and `run_read`, the part up to the release of its slot;
* `run_fill` : a fresh ring takes 256 pushes without a read;
* `run_evict` : the timeout path, up to the eviction of a wedged reader.
-/

namespace ThothIpc.Route
open Function Steps

variable {ι : Type} [DecidableEq ι] {C : State ι → Act ι → Prop} {s : State ι}

/-- The actions of one push that is not held up. -/
def pushActs (f : MsgT) : List (Act ι) := .sender (.push f) :: List.replicate 11 (.sender .go)

/-- The ring after a push of `f`. -/
def Ring.published (g : Ring) (f : MsgT) : Ring :=
  { g with
    writeCursor := g.writeCursor + 1
    slots := update g.slots (g.writeCursor.setWidth 8) ⟨f, g.epoch ||| g.connections.setWidth 64⟩ }

theorem slot_published (g : Ring) (f : MsgT) (c : BitVec 32) : (g.published f).slot c =
    if c.setWidth 8 = g.writeCursor.setWidth 8 then ⟨f, g.epoch ||| g.connections.setWidth 64⟩ else g.slot c := by
  simp only [Ring.slot, Ring.published, update_apply]

theorem slot_setRc (g : Ring) (c d : BitVec 32) (rc : BitVec 64) : (g.setRc c rc).slot d =
    if d.setWidth 8 = c.setWidth 8 then { g.slot c with rc := rc } else g.slot d := by
  simp only [Ring.slot, Ring.setRc, update_apply]

/-- No mark on the slot at the write cursor holds up the sender. -/
def Ring.free (g : Ring) : Prop :=
  ¬ ((g.connections.setWidth 64 &&& ((g.slot g.writeCursor).rc &&& epMask) ≠ 0) ∧
    (g.slot g.writeCursor).rc &&& ~~~epMask = g.epoch)

theorem setData_setRc (g : Ring) (c : BitVec 32) (rc : BitVec 64) (d : MsgT) :
    (g.setRc c rc).setData c d = { g with slots := update g.slots (c.setWidth 8) ⟨d, rc⟩ } := by
  simp [Ring.setData, Ring.setRc, Ring.slot, update_idem]

theorem setData_setData (g : Ring) (c : BitVec 32) (d d' : MsgT) : (g.setData c d).setData c d' = g.setData c d' := by
  simp [Ring.setData, Ring.slot, update_idem]

theorem slot_setData (g : Ring) (c : BitVec 32) (d : MsgT) : ((g.setData c d).slot c).data = d := by
  simp [Ring.setData, Ring.slot]

theorem copy_all (f d : MsgT) : f.copy 4 (f.copy 3 (f.copy 2 (f.copy 1 (f.copy 0 d)))) = f := rfl

theorem run_quiet {a : SAct} {pc q : SPc} {g d : Ring} {acts : List (Act ι)} {v : ι → Receiver}
    {l : List MsgT} {u : State ι} (hst : pc.act g a = some (d, q, [])) (ho : C ⟨g, pc, v, l⟩ (.sender a))
    (h : Run State.step C ⟨d, q, v, l⟩ acts u) : Run State.step C ⟨g, pc, v, l⟩ (.sender a :: acts) u := by
  refine Run.head ho ?_ h
  simp only [State.step, hst, Option.map_some, List.append_nil]

theorem run_write {f : MsgT} {wt : BitVec 32} {g : Ring} {acts : List (Act ι)} {recvs : ι → Receiver} {log : List MsgT}
    {u : State ι} (ho : ∀ g' pc', pc'.calm = true → C ⟨g', pc', recvs, log⟩ (.sender .go))
    (h : Run State.step C ⟨g.setData wt f, .bump f, recvs, log⟩ acts u) :
    Run State.step C ⟨g, .write f wt 0, recvs, log⟩ (List.replicate 5 (Act.sender .go) ++ acts) u := by
  refine run_quiet (q := .write f wt 1) rfl (ho _ _ rfl) ?_
  refine run_quiet (q := .write f wt 2) rfl (ho _ _ rfl) ?_
  refine run_quiet (q := .write f wt 3) rfl (ho _ _ rfl) ?_
  refine run_quiet (q := .write f wt 4) rfl (ho _ _ rfl) ?_
  refine run_quiet (q := .bump f) rfl (ho _ _ rfl) ?_
  simp only [slot_setData, setData_setData, copy_all]
  exact h

theorem run_claim {f : MsgT} {g : Ring} {v : ι → Receiver} {l : List MsgT} (hc : g.connections ≠ 0) (hf : g.free)
    (hs : ∀ g' pc', pc'.calm = true → C ⟨g', pc', v, l⟩ (.sender .go)) :
    Run State.step C ⟨g, .loadCc f, v, l⟩ (List.replicate 11 (.sender .go))
      ⟨g.published f, .idle, v, l ++ [f]⟩ := by
  have hcc : g.connections.setWidth 64 ≠ 0 := by
    intro h
    apply hc
    have := congrArg (BitVec.setWidth 32) h
    simpa using this
  refine run_quiet (q := .loadEpoch f (g.connections.setWidth 64)) (if_neg hcc) (hs _ _ rfl) ?_
  refine run_quiet rfl (hs _ _ rfl) (run_quiet rfl (hs _ _ rfl) ?_)
  refine run_quiet (if_neg hf) (hs _ _ rfl) ?_
  refine run_quiet (if_pos rfl) (hs _ _ rfl) ?_
  refine run_write hs (Run.one (hs _ _ rfl) ?_)
  rw [setData_setRc]
  rfl

/-- **A push that finds its slot free publishes.** -/
theorem run_push {f : MsgT} (hi : s.sender = .idle) (hc : s.ring.connections ≠ 0) (hf : s.ring.free)
    (hok : ∀ v act, v.pushed = s.pushed → v.sender.calm = true → (act = .sender (.push f) ∨ act = .sender .go) →
      C v act) :
    Run State.step C s (pushActs f) { s with ring := s.ring.published f, pushed := s.pushed ++ [f] } := by
  obtain ⟨g, pc, recvs, log⟩ := s
  simp only at hi hc hf hok ⊢
  subst hi
  refine run_quiet (q := .loadCc f) rfl (hok _ _ rfl rfl (Or.inl rfl)) ?_
  exact run_claim hc hf fun _ _ h => hok _ _ rfl h (Or.inr rfl)

theorem run_go {i : ι} {g d : Ring} {pc : SPc} {r q : Receiver} {acts : List (Act ι)} {v : ι → Receiver}
    {l : List MsgT} {u : State ι} (hst : r.step g = some (d, q))
    (ho : C ⟨g, pc, update v i r, l⟩ (.recv i .go))
    (h : Run State.step C ⟨d, pc, update v i q, l⟩ acts u) :
    Run State.step C ⟨g, pc, update v i r, l⟩ (.recv i .go :: acts) u := by
  refine Run.head ho ?_ h
  simp only [State.step, Receiver.act, update_self, hst, Option.map_some, update_idem]

/-- The actions of a `recv` call up to the release of its slot. -/
def readActs (i : ι) : List (Act ι) := .recv i .recv :: List.replicate 7 (.recv i .go)

theorem run_read {i : ι} {r : Receiver} {d : MsgT} {rc : BitVec 64} (hr : s.recvs i = r) (hp : r.pc = .ready)
    (hne : s.ring.writeCursor ≠ r.readCursor) (hslot : s.ring.slot r.readCursor = ⟨d, rc⟩) (hm : rc &&& epMask ≠ 0)
    (hok : ∀ v act, v.pushed = s.pushed → v.sender = s.sender → (act = .recv i .recv ∨ act = .recv i .go) → C v act) :
    Run State.step C s (readActs i) { s with
      ring := s.ring.setRc r.readCursor (rc &&& ~~~(r.connId.setWidth 64))
      recvs := update s.recvs i { r with pc := .bump d } } := by
  obtain ⟨g, pc, recvs, log⟩ := s
  obtain ⟨connId, cur, rpc, disc, pid, tok, got⟩ := r
  simp only at hr hp hne hslot hok ⊢
  subst hp
  have hd : (g.slot cur).data = d := by rw [hslot]
  have hrc : (g.slot cur).rc = rc := by rw [hslot]
  have hs : ∀ r', C ⟨g, pc, update recvs i r', log⟩ (.recv i .go) := fun _ => hok _ _ rfl rfl (Or.inr rfl)
  refine Run.head (t := ⟨g, pc, update recvs i ⟨connId, cur, .read 0 blank, disc, pid, tok, got⟩, log⟩)
    (hok _ _ rfl rfl (Or.inl rfl)) ?_ ?_
  · simp only [State.step, Receiver.act, hr, Receiver.recv, if_neg hne, Option.map_some]
  refine run_go (q := ⟨connId, cur, .read 1 _, disc, pid, tok, got⟩) rfl (hs _) ?_
  refine run_go (q := ⟨connId, cur, .read 2 _, disc, pid, tok, got⟩) rfl (hs _) ?_
  refine run_go (q := ⟨connId, cur, .read 3 _, disc, pid, tok, got⟩) rfl (hs _) ?_
  refine run_go (q := ⟨connId, cur, .read 4 _, disc, pid, tok, got⟩) rfl (hs _) ?_
  refine run_go (q := ⟨connId, cur, .relLoad (g.slot cur).data, disc, pid, tok, got⟩) rfl (hs _) ?_
  rw [hd]
  refine run_go (d := g) (q := ⟨connId, cur, .relCas d rc, disc, pid, tok, got⟩)
    (by simp only [Receiver.step, hrc, if_neg hm]) (hs _) ?_
  exact run_go (if_pos hrc) (hs _) .nil

/-- **A whole `recv`.** -/
theorem run_recv {i : ι} {r : Receiver} {d : MsgT} {rc : BitVec 64} (hr : s.recvs i = r) (hp : r.pc = .ready)
    (hne : s.ring.writeCursor ≠ r.readCursor) (hslot : s.ring.slot r.readCursor = ⟨d, rc⟩) (hm : rc &&& epMask ≠ 0)
    (hok : ∀ v act, v.pushed = s.pushed → v.sender = s.sender → (act = .recv i .recv ∨ act = .recv i .go) → C v act) :
    Run State.step C s (readActs i ++ [Act.recv i .go]) { s with
      ring := s.ring.setRc r.readCursor (rc &&& ~~~(r.connId.setWidth 64))
      recvs := update s.recvs i
        { r with readCursor := r.readCursor + 1, pc := .ready, got := r.got ++ [d] } } := by
  refine (run_read hr hp hne hslot hm hok).trans (run_go rfl ?_ .nil)
  exact hok _ _ rfl rfl (Or.inr rfl)

/-! ## Filling a fresh ring -/

/-- A fresh ring after `n` pushes of `f` that nobody has read. -/
structure Filled (s₀ : State ι) (f : MsgT) (n : Nat) (s : State ι) : Prop where
  idle : s.sender = .idle
  recvs : s.recvs = s₀.recvs
  connections : s.ring.connections = s₀.ring.connections
  owners : s.ring.owners = s₀.ring.owners
  epoch : s.ring.epoch = 0
  wt : s.ring.writeCursor = BitVec.ofNat 32 n
  pushed : s.pushed = List.replicate n f
  data : ∀ p < n, (slotAt s.ring p).data = f
  unread : ∀ p < n, (slotAt s.ring p).rc = s₀.ring.connections.setWidth 64
  clear : ∀ p < 256, n ≤ p → (slotAt s.ring p).rc = 0

omit [DecidableEq ι] in
theorem Filled.push {s₀ : State ι} {f : MsgT} {n : Nat} (h : Filled s₀ f n s) (hn : n < 256) :
    s.ring.free ∧ Filled s₀ f (n + 1) { s with ring := s.ring.published f, pushed := s.pushed ++ [f] } := by
  have hslot : ∀ p, slotAt (s.ring.published f) p = if BitVec.ofNat 8 p = BitVec.ofNat 8 n then
      ⟨f, s₀.ring.connections.setWidth 64⟩ else slotAt s.ring p := by
    intro p
    simp only [slotAt, Ring.published, update_apply, h.epoch, h.connections, h.wt,
      BitVec.setWidth_ofNat_of_le (by decide : 8 ≤ 32), show (0 : BitVec 64) = 0#64 from rfl, BitVec.zero_or]
  have hold : ∀ p < n + 1, ¬ BitVec.ofNat 8 p = BitVec.ofNat 8 n → p < n := by
    intro p hp hne
    have : p ≠ n := fun he => hne (by rw [he])
    omega
  constructor
  · intro hb
    apply hb.1
    rw [h.wt, slot_ofNat, h.clear n hn (Nat.le_refl n)]
    simp
  · refine ⟨h.idle, h.recvs, h.connections, h.owners, h.epoch, ?_, ?_, ?_, ?_, ?_⟩
    · simp only [Ring.published, h.wt, Bits.ofNat_add_one]
    · simp only [h.pushed, List.replicate_succ']
    · intro p hp
      simp only [hslot]
      split
      · rfl
      · rename_i hne
        exact h.data p (hold p hp hne)
    · intro p hp
      simp only [hslot]
      split
      · rfl
      · rename_i hne
        exact h.unread p (hold p hp hne)
    · intro p hp hle
      have hne : ¬ BitVec.ofNat 8 p = BitVec.ofNat 8 n := by
        rw [eq_comm, slot_inj (by omega) (by omega)]
        omega
      simp only [hslot, if_neg hne]
      exact h.clear p hp (by omega)

/-- **A fresh ring takes a full lap of pushes.** -/
theorem run_fill {s₀ : State ι} {f : MsgT} (h0 : Filled s₀ f 0 s₀) (hc : s₀.ring.connections ≠ 0)
    (hok : ∀ v act, v.pushed.length < 256 → v.sender.calm = true → (act = .sender (.push f) ∨ act = .sender .go) →
      C v act) :
    ∀ n ≤ 256, ∃ acts s, Run State.step C s₀ acts s ∧ Filled s₀ f n s := by
  intro n
  induction n with
  | zero => exact fun _ => ⟨[], s₀, .nil, h0⟩
  | succ n ih =>
    intro hn
    obtain ⟨acts, s, hrun, hfill⟩ := ih (by omega)
    obtain ⟨hfree, hnext⟩ := hfill.push (by omega)
    have hpush := run_push (C := C) hfill.idle (by rw [hfill.connections]; exact hc) hfree
      (fun v act hv hcalm hact => hok v act (by rw [hv, hfill.pushed, List.length_replicate]; omega) hcalm hact)
    exact ⟨_, _, hrun.trans hpush, hnext⟩

/-- A ring just initialised, with the receivers of `c` connected at position 0. -/
def freshRing (c : BitVec 32) : Ring := ⟨c, 0, 0, fun _ => ⟨blank, 0⟩, fun _ => ⟨1, 0, 1⟩⟩

/-- A receiver with bit `b`, connected at position 0. -/
def reader (b : Nat) : Receiver := ⟨BitVec.twoPow 32 b, 0, .ready, false, 1, 1, []⟩

def fresh (c : BitVec 32) (recvs : ι → Receiver) : State ι := ⟨freshRing c, .idle, recvs, []⟩

omit [DecidableEq ι] in
theorem atRest_fresh (c : BitVec 32) (recvs : ι → Receiver) : AtRest 0 (fresh c recvs) :=
  ⟨rfl, rfl, fun b _ => by simp [fresh, freshRing], rfl⟩

omit [DecidableEq ι] in
theorem filled_zero (c : BitVec 32) (recvs : ι → Receiver) (f : MsgT) : Filled (fresh c recvs) f 0 (fresh c recvs) :=
  ⟨rfl, rfl, rfl, rfl, rfl, rfl, rfl, nofun, nofun, fun _ _ _ => rfl⟩

/-! ## The timeout path -/

/-- The actions from a push to the eviction of a reader wedged on its slot. -/
def evictActs (f : MsgT) : List (Act ι) :=
  .sender (.push f) :: List.replicate 6 (.sender .go) ++ .sender .timeout :: List.replicate 5 (.sender .go)

theorem counted_one {c : BitVec 32} (h : c.getLsbD 0 = true) : c.setWidth 64 &&& (1#64 &&& epMask) = 1#64 := by
  rw [show 1#64 &&& epMask = 1#64 by decide]
  refine BitVec.eq_of_getLsbD_eq fun i hi => ?_
  rw [BitVec.getLsbD_and, Bits.getLsbD_zeroExtend]
  by_cases h0 : i = 0
  · subst h0; rw [h]; rfl
  · have : (1#64).getLsbD i = false := by simp [h0]
    simp [this]

theorem liveStep_one {owners : Nat → SlotOwner} (h : (owners 0).since = 0) :
    liveStep owners (256#32 - ringLap) 1#32 0#32 = (0#32, 1#32) := by
  simp only [liveStep, show 1#32 &&& -1#32 = 1#32 by decide, show slotIndex 1#32 = 0 by decide, h]
  decide

/-- **The eviction of the reader with bit 0**, alone on the slot at the write cursor: the epoch moves on and the bit is
cleared. -/
theorem run_evict {f : MsgT} {g : Ring} {v : ι → Receiver} {l : List MsgT} (h0 : g.connections.getLsbD 0 = true)
    (he : g.epoch = 0) (hw : g.writeCursor = 256#32) (hrc : (g.slot 256#32).rc = 1#64) (hs : (g.owners 0).since = 0)
    (hok : ∀ g' pc a, (∀ f' wt rem, pc = .forceConns f' wt rem → rem = 1#32) → C ⟨g', pc, v, l⟩ (.sender a)) :
    Run State.step C ⟨g, .idle, v, l⟩ (evictActs f)
      ⟨{ g with epoch := epIncr, connections := g.connections &&& ~~~1#32 },
        if g.connections &&& ~~~1#32 = 0 then .idle else .forceSlot f 256#32 1#32, v, l⟩ := by
  obtain ⟨c, w, e, slots, owners⟩ := g
  simp only at h0 he hw hs ⊢
  subst he hw
  have hcnt := counted_one h0
  have hcc : c.setWidth 64 ≠ 0 := by
    intro h
    rw [h] at hcnt
    exact absurd hcnt (by decide)
  have hs' : liveStep owners (256#32 - ringLap) 1#32 0#32 = (0#32, 1#32) := liveStep_one hs
  refine run_quiet (q := .loadCc f) rfl (hok _ _ _ (by simp)) ?_
  refine run_quiet (q := .loadEpoch f (c.setWidth 64)) (if_neg hcc) (hok _ _ _ (by simp)) ?_
  refine run_quiet rfl (hok _ _ _ (by simp)) (run_quiet rfl (hok _ _ _ (by simp)) ?_)
  refine run_quiet (d := ⟨c, 256#32, 0, slots, owners⟩) (q := .live f (c.setWidth 64) 0 256#32 1#64 1#32 0) ?_
    (hok _ _ _ (by simp)) ?_
  · simp only [SPc.act, SPc.step, hrc, hcnt]
    rfl
  refine run_quiet (d := ⟨c, 256#32, 0, slots, owners⟩) (q := .live f (c.setWidth 64) 0 256#32 1#64 0 1#32) ?_
    (hok _ _ _ (by simp)) ?_
  · simp only [SPc.act, SPc.step, show (0 : BitVec 32) = 0#32 from rfl, hs']
    rfl
  refine run_quiet (q := .busy f (c.setWidth 64) 256#32) rfl (hok _ _ _ (by simp)) ?_
  refine run_quiet (q := .forceEpoch f (c.setWidth 64) 256#32) rfl (hok _ _ _ (by simp)) ?_
  refine run_quiet (d := ⟨c, 256#32, epIncr, slots, owners⟩) (q := .forceRc f (c.setWidth 64) 256#32) ?_
    (hok _ _ _ (by simp)) ?_
  · simp only [SPc.act, SPc.step, show (0 : BitVec 64) + epIncr = epIncr by decide]
  refine run_quiet (d := ⟨c, 256#32, epIncr, slots, owners⟩)
    (q := .forceLive f 256#32 1#32 0) ?_ (hok _ _ _ (by simp)) ?_
  · have : (slots ((256#32).setWidth 8)).rc &&& epMask &&& c.setWidth 64 = 1#64 := by
      rw [show (slots ((256#32).setWidth 8)).rc = 1#64 from hrc, BitVec.and_comm, hcnt]
    simp only [SPc.act, SPc.step, Ring.slot, this]
    rfl
  refine run_quiet (d := ⟨c, 256#32, epIncr, slots, owners⟩)
    (q := .forceLive f 256#32 0 1#32) ?_ (hok _ _ _ (by simp)) ?_
  · simp only [SPc.act, SPc.step, show (0 : BitVec 32) = 0#32 from rfl, hs']
    rfl
  refine run_quiet (q := .forceConns f 256#32 1#32) rfl (hok _ _ _ (by simp)) ?_
  exact run_quiet rfl (hok _ _ _ fun _ _ _ h => by cases h; rfl) .nil

end ThothIpc.Route
