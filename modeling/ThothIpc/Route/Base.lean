import ThothIpc.Route.Model

/-!
# The route ring by position

Positions are natural numbers here, cursors their values modulo `2 ^ 32`. `w₀` is the position of the write cursor at
the start, so `w₀ + pushed.length` is where it stands now (`pos`).

* `slotAt g p`, `marked g p b` : the slot of position `p`, and whether it carries the mark of bit `b`;
* `Base w₀ s` : the write cursor is at `pos`, the sender's loaded cursor and epoch are the ring's (it is their only
  writer), and every slot of the last lap holds the fragment published at its position;
* `Base.step` : every step of every thread preserves it.
-/

namespace ThothIpc.Route

/-! ## Words -/

theorem getLsbD_epMask (i : Nat) : epMask.getLsbD i = decide (i < 32) := by
  rw [show epMask = BitVec.ofNat 64 (2 ^ 32 - 1) from rfl, BitVec.getLsbD_ofNat, Nat.testBit_two_pow_sub_one]
  by_cases h : i < 32
  · simp [h, show i < 64 by omega]
  · simp [h]

def LowClear (x : BitVec 64) : Prop := ∀ b < 32, x.getLsbD b = false

theorem lowClear_add_epIncr {x : BitVec 64} (h : LowClear x) : LowClear (x + epIncr) := by
  rw [LowClear, Bits.low_clear_iff] at h ⊢
  rw [BitVec.toNat_add, show epIncr.toNat = 2 ^ 32 from rfl]
  omega

theorem stamp_epoch {ep : BitVec 64} {cc : BitVec 32} (h : LowClear ep) :
    (ep ||| cc.setWidth 64) &&& ~~~epMask = ep := by
  refine BitVec.eq_of_getLsbD_eq fun i hi => ?_
  rw [BitVec.getLsbD_and, BitVec.getLsbD_or, Bits.getLsbD_zeroExtend, BitVec.getLsbD_not, getLsbD_epMask]
  by_cases hb : i < 32
  · simp [hb, h i hb]
  · simp [hb, hi, BitVec.getLsbD_of_ge cc i (by omega)]

theorem stamp_mark {ep : BitVec 64} {cc : BitVec 32} {b : Nat} (h : LowClear ep) (hb : b < 32) :
    (ep ||| cc.setWidth 64).getLsbD b = cc.getLsbD b := by
  rw [BitVec.getLsbD_or, h b hb, Bits.getLsbD_zeroExtend, Bool.false_or]

theorem clear_epoch (rc : BitVec 64) (x : BitVec 32) :
    (rc &&& ~~~(x.setWidth 64)) &&& ~~~epMask = rc &&& ~~~epMask := by
  refine BitVec.eq_of_getLsbD_eq fun i hi => ?_
  simp only [BitVec.getLsbD_and, BitVec.getLsbD_not, getLsbD_epMask, Bits.getLsbD_zeroExtend, hi, decide_true,
    Bool.true_and]
  by_cases hb : i < 32
  · simp [hb]
  · simp [BitVec.getLsbD_of_ge x i (by omega)]

theorem clear_mark (rc : BitVec 64) (x : BitVec 32) {b : Nat} (hb : b < 32) :
    (rc &&& ~~~(x.setWidth 64)).getLsbD b = (rc.getLsbD b && !x.getLsbD b) := by
  rw [BitVec.getLsbD_and, BitVec.getLsbD_not, Bits.getLsbD_zeroExtend]
  simp [show b < 64 by omega]

theorem and_connId_eq_zero {rc : BitVec 64} {b : Nat} (hb : b < 32) :
    rc &&& (BitVec.twoPow 32 b).setWidth 64 = 0 ↔ rc.getLsbD b = false := by
  have hw : (BitVec.twoPow 32 b).setWidth 64 = BitVec.twoPow 64 b := by
    refine BitVec.eq_of_getLsbD_eq fun i _ => ?_
    rw [Bits.getLsbD_zeroExtend, BitVec.getLsbD_twoPow, BitVec.getLsbD_twoPow]
    simp [hb, show b < 64 by omega]
  rw [hw, Bits.and_twoPow_eq_zero (by omega)]

theorem getLsbD_counted (cc rc : BitVec 64) {b : Nat} (hb : b < 32) :
    ((cc &&& (rc &&& epMask)).setWidth 32).getLsbD b = (cc.getLsbD b && rc.getLsbD b) := by
  simp [getLsbD_epMask, hb]

theorem marked_ne_zero {x : BitVec 64} {b : Nat} (h : x.getLsbD b = true) : x ≠ 0 := by
  rintro rfl
  simp at h

/-! ## Positions -/

def slotAt (g : Ring) (p : Nat) : Slot := g.slots (BitVec.ofNat 8 p)

/-- The slot of position `p` carries the mark of bit `b`. -/
def marked (g : Ring) (p b : Nat) : Bool := (slotAt g p).rc.getLsbD b

theorem slot_ofNat (g : Ring) (p : Nat) : g.slot (BitVec.ofNat 32 p) = slotAt g p := by
  rw [Ring.slot, slotAt, BitVec.setWidth_ofNat_of_le (by decide)]

theorem slotAt_setRc (g : Ring) (p q : Nat) (rc : BitVec 64) :
    slotAt (g.setRc (BitVec.ofNat 32 p) rc) q =
      if BitVec.ofNat 8 q = BitVec.ofNat 8 p then { slotAt g p with rc := rc } else slotAt g q := by
  simp only [slotAt, Ring.setRc, Function.update_apply, slot_ofNat, BitVec.setWidth_ofNat_of_le (by decide : 8 ≤ 32)]

theorem slotAt_setData (g : Ring) (p q : Nat) (d : MsgT) :
    slotAt (g.setData (BitVec.ofNat 32 p) d) q =
      if BitVec.ofNat 8 q = BitVec.ofNat 8 p then { slotAt g p with data := d } else slotAt g q := by
  simp only [slotAt, Ring.setData, Function.update_apply, slot_ofNat, BitVec.setWidth_ofNat_of_le (by decide : 8 ≤ 32)]

theorem slot_inj {p q : Nat} (hpq : p ≤ q) (hd : q < p + 256) : BitVec.ofNat 8 p = BitVec.ofNat 8 q ↔ p = q :=
  Bits.ofNat_inj_near hpq (by omega)

theorem slot_lap (p : Nat) : BitVec.ofNat 8 (p + 256) = BitVec.ofNat 8 p := by
  apply BitVec.eq_of_toNat_eq
  simp

/-! ## What the receivers leave alone -/

theorem slotIndex_ne {x : BitVec 32} {b : Nat} (hb : b < 32) (h : x.getLsbD b = false) : slotIndex x ≠ b := by
  intro he
  have hlt : (List.range maxSlots).findIdx (fun j => x.getLsbD j) < (List.range maxSlots).length := by
    rw [show (List.range maxSlots).findIdx (fun j => x.getLsbD j) = b from he]
    simpa [maxSlots] using hb
  have hx := List.findIdx_getElem (w := hlt)
  rw [List.getElem_range, show (List.range maxSlots).findIdx (fun j => x.getLsbD j) = b from he, h] at hx
  cases hx

/-- The receivers never touch the cursor, the epoch or the payloads. -/
structure Quiet (g g' : Ring) : Prop where
  wt : g'.writeCursor = g.writeCursor
  epoch : g'.epoch = g.epoch
  data : ∀ i, (g'.slots i).data = (g.slots i).data
  high : ∀ i, (g'.slots i).rc &&& ~~~epMask = (g.slots i).rc &&& ~~~epMask

/-- What concerns bit `b` is left alone as well: its marks, its connection and its `since`. -/
structure Keeps (b : Nat) (g g' : Ring) : Prop extends Quiet g g' where
  mark : ∀ i, (g'.slots i).rc.getLsbD b = (g.slots i).rc.getLsbD b
  conn : g.connections.getLsbD b = true → g'.connections.getLsbD b = true
  since : (g'.owners b).since = (g.owners b).since

theorem Quiet.refl (g : Ring) : Quiet g g := ⟨rfl, rfl, fun _ => rfl, fun _ => rfl⟩

theorem Keeps.refl (b : Nat) (g : Ring) : Keeps b g g := ⟨Quiet.refl g, fun _ => rfl, id, rfl⟩

theorem quiet_setOwner (g : Ring) (x : BitVec 32) (f : SlotOwner → SlotOwner) : Quiet g (g.setOwner x f) :=
  ⟨rfl, rfl, fun _ => rfl, fun _ => rfl⟩

theorem quiet_connections (g : Ring) (c : BitVec 32) : Quiet g { g with connections := c } :=
  ⟨rfl, rfl, fun _ => rfl, fun _ => rfl⟩

theorem quiet_clear (g : Ring) (c : BitVec 32) (x : BitVec 32) :
    Quiet g (g.setRc c ((g.slot c).rc &&& ~~~(x.setWidth 64))) := by
  refine ⟨rfl, rfl, fun i => ?_, fun i => ?_⟩ <;> simp only [Ring.setRc, Function.update_apply] <;> split
  · rename_i h; rw [h]; rfl
  · rfl
  · rename_i h; rw [h]; exact clear_epoch _ _
  · rfl

/-- Storing a field other than `since` concerns no bit; storing `since` only the bit itself. -/
theorem keeps_setOwner {b : Nat} (hb : b < 32) (g : Ring) (x : BitVec 32) (f : SlotOwner → SlotOwner)
    (h : x.getLsbD b = false ∨ ∀ o, (f o).since = o.since) : Keeps b g (g.setOwner x f) := by
  refine ⟨quiet_setOwner g x f, fun _ => rfl, id, ?_⟩
  simp only [Ring.setOwner, Function.update_apply]
  split
  · rename_i he
    rcases h with h | h
    · exact absurd he.symm (slotIndex_ne hb h)
    · rw [he, h]
  · rfl

theorem keeps_clear {b : Nat} (hb : b < 32) (g : Ring) (c : BitVec 32) (x : BitVec 32) (h : x.getLsbD b = false) :
    Keeps b g (g.setRc c ((g.slot c).rc &&& ~~~(x.setWidth 64))) := by
  refine ⟨quiet_clear g c x, fun i => ?_, id, rfl⟩
  simp only [Ring.setRc, Function.update_apply]
  split
  · rename_i hi
    rw [hi, clear_mark _ _ hb, h]
    simp [Ring.slot]
  · rfl

variable {g g' : Ring} {r r' : Receiver}

theorem Receiver.step_quiet (h : r.step g = some (g', r')) : Quiet g g' := by
  unfold Receiver.step at h
  split at h
  case h_4 since curr _ =>
    simp only at h
    split at h <;> cases h
    · exact quiet_connections g _
    · exact Quiet.refl g
  case h_14 m rc _ =>
    split at h <;> cases h
    · rename_i hrc
      rw [← hrc]
      exact quiet_clear g _ _
    · exact Quiet.refl g
  all_goals
    (try simp only at h)
    (try split at h) <;> cases h <;> first | exact Quiet.refl g | exact quiet_setOwner g _ _

/-- A receiver's step concerns bit `b` only if the bit is its own and it records `since` or releases a mark. -/
theorem Receiver.step_keeps {b : Nat} (hb : b < 32) (h : r.step g = some (g', r'))
    (hc : r.connId.getLsbD b = false ∨ (∀ x, r.pc ≠ .setSince x) ∧ ∀ m x, r.pc ≠ .relCas m x) : Keeps b g g' := by
  unfold Receiver.step at h
  split at h
  case h_4 since curr _ =>
    simp only at h
    split at h <;> cases h
    · rename_i hcur
      refine ⟨quiet_connections g _, fun _ => rfl, fun hg => ?_, rfl⟩
      simp only
      rw [BitVec.getLsbD_or, ← hcur, hg, Bool.true_or]
    · exact Keeps.refl b g
  case h_5 since hpc =>
    cases h
    refine keeps_setOwner hb g _ _ (Or.inl ?_)
    rcases hc with hc | hc
    · exact hc
    · exact absurd hpc (hc.1 since)
  case h_14 m rc hpc =>
    split at h <;> cases h
    · rename_i hrc
      rw [← hrc]
      refine keeps_clear hb g _ _ ?_
      rcases hc with hc | hc
      · exact hc
      · exact absurd hpc (hc.2 m rc)
    · exact Keeps.refl b g
  all_goals
    (try simp only at h)
    (try split at h) <;> cases h <;> first | exact Keeps.refl b g | exact keeps_setOwner hb g _ _ (Or.inr fun _ => rfl)

theorem Receiver.disconnect_quiet (h : r.disconnect g = some (g', r')) : Quiet g g' := by
  unfold Receiver.disconnect at h
  split at h
  · split at h <;> cases h
    · exact Quiet.refl g
    · exact quiet_connections g _
  · cases h

theorem Receiver.act_quiet {a : RAct} (h : r.act g a = some (g', r')) : Quiet g g' := by
  obtain ⟨-, h⟩ | ⟨-, h⟩ | ⟨rfl, -⟩ := Receiver.act_cases h
  · exact Receiver.step_quiet h
  · exact Receiver.disconnect_quiet h
  · exact Quiet.refl g'

theorem Receiver.disconnect_keeps {b : Nat} (hb : b < 32) (h : r.disconnect g = some (g', r'))
    (hc : r.connId.getLsbD b = false) : Keeps b g g' := by
  unfold Receiver.disconnect at h
  split at h
  · split at h <;> cases h
    · exact Keeps.refl b g
    · refine ⟨quiet_connections g _, fun _ => rfl, fun hg => ?_, rfl⟩
      simp only [BitVec.getLsbD_and, BitVec.getLsbD_not, hg, hc, hb, decide_true, Bool.not_false, Bool.and_self]
  · cases h

/-! ## The ring holds the last lap -/

section Inv
variable {ι : Type}
def pos (w₀ : Nat) (s : State ι) : Nat := w₀ + s.pushed.length

/-- The sender has stamped the slot at the write cursor and not yet moved the cursor past it. -/
def SPc.claimed : SPc → Bool
  | .write _ _ _ => true
  | .bump _ => true
  | _ => false

/-- What the sender has loaded of the words only it writes is current; its connection mask is a widened one. -/
def SPc.Local (g : Ring) : SPc → Prop
  | .loadEpoch _ cc => ∃ c : BitVec 32, cc = c.setWidth 64
  | .loadWt _ cc ep => (∃ c : BitVec 32, cc = c.setWidth 64) ∧ ep = g.epoch
  | .loadRc _ cc ep wt => (∃ c : BitVec 32, cc = c.setWidth 64) ∧ ep = g.epoch ∧ wt = g.writeCursor
  | .live _ cc ep wt _ _ _ => (∃ c : BitVec 32, cc = c.setWidth 64) ∧ ep = g.epoch ∧ wt = g.writeCursor
  | .cas _ cc ep wt _ => (∃ c : BitVec 32, cc = c.setWidth 64) ∧ ep = g.epoch ∧ wt = g.writeCursor
  | .busy _ _ wt => wt = g.writeCursor
  | .write _ wt _ => wt = g.writeCursor
  | .forceEpoch _ _ wt => wt = g.writeCursor
  | .forceRc _ _ wt => wt = g.writeCursor
  | .forceLive _ wt _ _ => wt = g.writeCursor
  | .forceConns _ wt _ => wt = g.writeCursor
  | .forceSlot _ wt _ => wt = g.writeCursor
  | _ => True

/-- How far the sender has written the fragment into slot `d`. -/
def SPc.Written (d : MsgT) : SPc → Prop
  | .write f _ k => k < MsgT.fields ∧ f.Agree k d
  | .bump f => f = d
  | _ => True

/-- The invariant of the ring as the sender keeps it. -/
structure Base (w₀ : Nat) (s : State ι) : Prop where
  wt : s.ring.writeCursor = BitVec.ofNat 32 (pos w₀ s)
  epoch : LowClear s.ring.epoch
  snd : s.sender.Local s.ring
  data : ∀ p, w₀ ≤ p → p < pos w₀ s → pos w₀ s ≤ p + 256 → (s.sender.claimed = true → pos w₀ s ≠ p + 256) →
    s.pushed[p - w₀]? = some (slotAt s.ring p).data
  written : s.sender.Written (slotAt s.ring (pos w₀ s)).data

theorem SPc.Local.quiet {pc : SPc} (h : pc.Local g) (hq : Quiet g g') : pc.Local g' := by
  cases pc <;> simp_all [SPc.Local, hq.wt, hq.epoch]

theorem Base.quiet {w₀ : Nat} {s t : State ι} (h : Base w₀ s) (hq : Quiet s.ring t.ring) (hs : t.sender = s.sender)
    (hp : t.pushed = s.pushed) : Base w₀ t := by
  have hpos : pos w₀ t = pos w₀ s := by simp [pos, hp]
  have hd : ∀ p, (slotAt t.ring p).data = (slotAt s.ring p).data := fun p => hq.data _
  refine ⟨?_, ?_, ?_, fun p => ?_, ?_⟩
  · rw [hq.wt, hpos, h.wt]
  · rw [hq.epoch]; exact h.epoch
  · rw [hs]; exact h.snd.quiet hq
  · rw [hpos, hs, hp, hd]; exact h.data p
  · rw [hpos, hs, hd]; exact h.written

theorem Base.move {w₀ : Nat} {s : State ι} {pc : SPc} (h : Base w₀ s) (hs : s.sender.claimed = false)
    (hl : pc.Local s.ring) (hc : pc.claimed = false) : Base w₀ { s with sender := pc } := by
  refine ⟨h.wt, h.epoch, hl, fun p h1 h2 h3 _ => h.data p h1 h2 h3 (by simp [hs]), ?_⟩
  cases pc <;> trivial

theorem Base.forceEpoch {w₀ : Nat} {s : State ι} {f : MsgT} {cc e : BitVec 64} {wt : BitVec 32} (h : Base w₀ s)
    (hs : s.sender = .forceEpoch f cc wt) (he : LowClear e) :
    Base w₀ { s with ring := { s.ring with epoch := e }, sender := .forceRc f cc wt } := by
  have hl : wt = s.ring.writeCursor := by have := h.snd; rw [hs] at this; exact this
  have hc : s.sender.claimed = false := by rw [hs]; rfl
  exact ⟨h.wt, he, hl, fun p h1 h2 h3 _ => h.data p h1 h2 h3 (by simp [hc]), trivial⟩

theorem Base.stamp {w₀ : Nat} {s : State ι} {f : MsgT} (h : Base w₀ s) (hs : s.sender.claimed = false)
    (rc : BitVec 64) :
    Base w₀ { s with ring := s.ring.setRc s.ring.writeCursor rc, sender := .write f s.ring.writeCursor 0 } := by
  refine ⟨h.wt, h.epoch, rfl, fun p h1 h2 h3 h4 => ?_, ⟨by decide, MsgT.agree_zero _ _⟩⟩
  have hd := h.data p h1 h2 h3 (by simp [hs])
  simp only [h.wt, slotAt_setRc]
  split
  · rename_i he
    rw [hd]
    simp [slotAt, he]
  · exact hd

theorem Base.copy {w₀ : Nat} {s : State ι} {f : MsgT} {wt : BitVec 32} {k : Nat} (h : Base w₀ s)
    (hs : s.sender = .write f wt k) :
    Base w₀ { s with
      ring := s.ring.setData wt (f.copy k (s.ring.slot wt).data)
      sender := if k + 1 = MsgT.fields then .bump f else .write f wt (k + 1) } := by
  have hwt : wt = s.ring.writeCursor := by have := h.snd; rw [hs] at this; exact this
  obtain ⟨hk, hag⟩ : k < MsgT.fields ∧ f.Agree k (slotAt s.ring (pos w₀ s)).data := by
    have := h.written; rw [hs] at this; exact this
  have hcl : s.sender.claimed = true := by rw [hs]; rfl
  have hag' := hag.copy hk
  rw [hwt, h.wt, slot_ofNat]
  refine ⟨h.wt, h.epoch, ?_, fun p h1 h2 h3 h4 => ?_, ?_⟩
  · simp only
    split
    · trivial
    · exact h.wt.symm
  · have hne : pos w₀ s ≠ p + 256 := by
      apply h4
      simp only
      split <;> rfl
    have hslot : ¬ BitVec.ofNat 8 p = BitVec.ofNat 8 (pos w₀ s) := by
      have hlt : p < pos w₀ s := h2
      have hle : pos w₀ s ≤ p + 256 := h3
      rw [slot_inj (by omega) (by omega)]
      omega
    have hd := h.data p h1 h2 h3 (fun _ => hne)
    simp only [slotAt_setData, if_neg hslot]
    exact hd
  · simp only [pos, slotAt_setData, if_true] at hag' ⊢
    split
    · rename_i hend
      exact hag'.eq (by omega)
    · exact ⟨by omega, hag'⟩

theorem Base.publish {w₀ : Nat} {s : State ι} {f : MsgT} (h : Base w₀ s) (hs : s.sender = .bump f) :
    Base w₀ { s with
      ring := { s.ring with writeCursor := s.ring.writeCursor + 1 }
      sender := .idle
      pushed := s.pushed ++ [f] } := by
  have hf : f = (slotAt s.ring (pos w₀ s)).data := by have := h.written; rw [hs] at this; exact this
  refine ⟨?_, h.epoch, trivial, fun p h1 h2 h3 _ => ?_, trivial⟩
  · simp only [h.wt, pos, List.length_append, List.length_singleton, Bits.ofNat_add_one, Nat.add_assoc]
  · simp only [pos, List.length_append, List.length_singleton] at h2 h3
    by_cases hp : p < pos w₀ s
    · have hle : p - w₀ < s.pushed.length := by simp only [pos] at hp; omega
      rw [List.getElem?_append_left hle]
      exact h.data p h1 hp (by simp only [pos]; omega) (fun _ => by simp only [pos]; omega)
    · have he : p = pos w₀ s := by simp only [pos] at hp ⊢; omega
      subst he
      rw [List.getElem?_append_right (by simp [pos])]
      simp [pos, hf, slotAt]

theorem Base.sender {w₀ : Nat} {s : State ι} {g' : Ring} {pc : SPc} {out : List MsgT} (h : Base w₀ s)
    (hst : s.sender.step s.ring = some (g', pc, out)) :
    Base w₀ { s with ring := g', sender := pc, pushed := s.pushed ++ out } := by
  have hl := h.snd
  cases hpc : s.sender with
  | idle => simp [hpc, SPc.step] at hst
  | loadCc f =>
    simp only [hpc, SPc.step] at hst
    split at hst <;> cases hst <;> rw [List.append_nil]
    · exact h.move (by rw [hpc]; rfl) trivial rfl
    · exact h.move (by rw [hpc]; rfl) ⟨_, rfl⟩ rfl
  | loadEpoch f cc =>
    simp only [hpc, SPc.step] at hst
    cases hst
    rw [List.append_nil]
    rw [hpc] at hl
    exact h.move (by rw [hpc]; rfl) ⟨hl, rfl⟩ rfl
  | loadWt f cc ep =>
    simp only [hpc, SPc.step] at hst
    cases hst
    rw [List.append_nil]
    rw [hpc] at hl
    exact h.move (by rw [hpc]; rfl) ⟨hl.1, hl.2, rfl⟩ rfl
  | loadRc f cc ep wt =>
    rw [hpc] at hl
    simp only [hpc, SPc.step] at hst
    split at hst <;> cases hst <;> rw [List.append_nil] <;> exact h.move (by rw [hpc]; rfl) hl rfl
  | live f cc ep wt rc todo acc =>
    rw [hpc] at hl
    simp only [hpc, SPc.step] at hst
    split at hst
    · split at hst <;> cases hst <;> rw [List.append_nil]
      · exact h.move (by rw [hpc]; rfl) hl.2.2 rfl
      · exact h.move (by rw [hpc]; rfl) hl rfl
    · cases hst
      rw [List.append_nil]
      exact h.move (by rw [hpc]; rfl) hl rfl
  | busy f cc wt =>
    simp only [hpc, SPc.step] at hst
    cases hst
    rw [List.append_nil]
    exact h.move (by rw [hpc]; rfl) trivial rfl
  | cas f cc ep wt rc =>
    rw [hpc] at hl
    simp only [hpc, SPc.step] at hst
    split at hst <;> cases hst <;> rw [List.append_nil]
    · rw [hl.2.2]
      exact h.stamp (by rw [hpc]; rfl) _
    · exact h.move (by rw [hpc]; rfl) trivial rfl
  | write f wt k =>
    simp only [hpc, SPc.step] at hst
    cases hst
    rw [List.append_nil]
    exact h.copy hpc
  | bump f =>
    simp only [hpc, SPc.step] at hst
    cases hst
    exact h.publish hpc
  | forceEpoch f cc wt =>
    rw [hpc] at hl
    simp only [hpc, SPc.step] at hst
    cases hst
    rw [List.append_nil]
    exact h.forceEpoch hpc (lowClear_add_epIncr h.epoch)
  | forceRc f cc wt =>
    rw [hpc] at hl
    simp only [hpc, SPc.step] at hst
    cases hst
    rw [List.append_nil]
    exact h.move (by rw [hpc]; rfl) hl rfl
  | forceLive f wt todo acc =>
    rw [hpc] at hl
    simp only [hpc, SPc.step] at hst
    split at hst
    · split at hst <;> cases hst <;> rw [List.append_nil]
      · exact h.move (by rw [hpc]; rfl) hl rfl
      · exact h.move (by rw [hpc]; rfl) trivial rfl
    · cases hst
      rw [List.append_nil]
      exact h.move (by rw [hpc]; rfl) hl rfl
  | forceConns f wt rem =>
    rw [hpc] at hl
    simp only [hpc, SPc.step] at hst
    cases hst
    rw [List.append_nil]
    have hq := h.quiet (t := { s with ring := { s.ring with connections := s.ring.connections &&& ~~~rem } })
      (quiet_connections _ _) rfl rfl
    refine hq.move (by simp only [hpc]; rfl) ?_ ?_ <;> split <;> first | exact hl | trivial
  | forceSlot f wt rem =>
    rw [hpc] at hl
    simp only [hpc, SPc.step] at hst
    cases hst
    rw [List.append_nil]
    have hq := h.quiet (t := { s with ring := s.ring.setRc wt ((s.ring.slot wt).rc &&& ~~~(rem.setWidth 64)) })
      (quiet_clear _ _ _) rfl rfl
    exact hq.move (by simp only [hpc]; rfl) trivial rfl

/-- **Every step keeps the ring's invariant.** -/
theorem Base.step [DecidableEq ι] {w₀ : Nat} {s t : State ι} {act : Act ι} (h : Base w₀ s)
    (hst : s.step act = some t) : Base w₀ t := by
  rcases State.step_cases hst with ⟨a, g, pc, out, -, hp, rfl⟩ | ⟨i, a, g, r, -, hr, rfl⟩
  · rcases SPc.act_cases hp with ⟨-, hp⟩ | ⟨rfl, rfl, hmv⟩
    · exact h.sender hp
    · rw [List.append_nil]
      have hl := h.snd
      obtain ⟨f, -, hpc, rfl⟩ | ⟨f, cc, ep, wt, rc, -, hpc, rfl⟩ | ⟨f, cc, wt, -, hpc, rfl⟩ := hmv
      · exact h.move (by rw [hpc]; rfl) trivial rfl
      · exact h.move (by rw [hpc]; rfl) trivial rfl
      · rw [hpc] at hl
        exact h.move (by rw [hpc]; rfl) hl rfl
  · exact h.quiet (Receiver.act_quiet hr) rfl rfl

end Inv

end ThothIpc.Route
