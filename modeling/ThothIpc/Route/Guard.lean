import ThothIpc.Route.Base

/-!
# What the writer owes one connection bit

* `Guarded w₀ s b m σ` : bit `b` is connected since `σ`, every position published from `m` on carries its mark, the
  writer is at most a lap past `m`, and nothing the sender has loaded lets it stamp over those marks;
* `SPc.Spares` : what the sender's next step must not do to the bit: find its mark too old for `live_marks`, claim the
  slot under it because the mark is of another epoch, or evict it;
* `Guarded.sender` : a sender step that spares the bit keeps the guard, `Guarded.keeps` : so does any step that leaves
  the bit alone, `Guarded.release` : taking the mark off the first position moves the guard on;
* `Current w₀ s` : without timeouts every slot of the last lap is of the ring's epoch, so no claim ignores a mark.
-/

namespace ThothIpc.Route

variable {ι : Type} {w₀ b m σ : Nat} {s t : State ι}

/-- What the values the sender holds owe bit `b`, whose owner has read everything before `m`. -/
def SPc.Owes (g : Ring) (b m P : Nat) : SPc → Prop
  | .loadEpoch _ cc => cc.getLsbD b = true ∨ P < m
  | .loadWt _ cc _ => cc.getLsbD b = true ∨ P < m
  | .loadRc _ cc _ _ => cc.getLsbD b = true ∨ P < m
  | .live _ cc _ _ _ todo acc =>
    (cc.getLsbD b = true ∨ P < m) ∧ (P = m + 256 → todo.getLsbD b = true ∨ acc.getLsbD b = true)
  | .cas _ cc ep _ rc => (cc.getLsbD b = true ∨ P < m) ∧ (P = m + 256 → rc &&& ~~~epMask ≠ ep)
  | .write _ _ _ => P < m + 256 ∧ (marked g P b = true ∨ P < m)
  | .bump _ => P < m + 256 ∧ (marked g P b = true ∨ P < m)
  | .forceSlot _ _ rem => rem.getLsbD b = false
  | _ => True

/-- The bit's marks from position `m` on are in place and the sender respects them. -/
structure Guarded (w₀ : Nat) (s : State ι) (b m σ : Nat) : Prop where
  bit : b < 32
  conn : s.ring.connections.getLsbD b = true
  since : (s.ring.owners b).since = BitVec.ofNat 32 σ
  since_le : σ ≤ m
  marks : ∀ p, m ≤ p → p < pos w₀ s → marked s.ring p b = true
  lap : pos w₀ s ≤ m + 256
  snd : s.sender.Owes s.ring b m (pos w₀ s)

/-- The sender's next step neither ages the bit's mark away, nor claims over it across epochs, nor evicts it. -/
def SPc.Spares (g : Ring) (b m σ P : Nat) : SPc → Prop
  | .live _ _ _ _ _ _ _ => P = m + 256 → (m - σ) % 2 ^ 32 < 2 ^ 31
  | .cas _ _ ep wt rc => (g.slot wt).rc = rc → P = m + 256 → rc &&& ~~~epMask = ep
  | .forceConns _ _ rem => rem.getLsbD b = false
  | _ => True

theorem SPc.Owes.mono {g : Ring} {pc : SPc} {m' P : Nat} (h : pc.Owes g b m P) (hm : m ≤ m') (hP : P ≤ m + 256) :
    pc.Owes g b m' P := by
  cases pc <;> simp only [SPc.Owes] at h ⊢ <;> grind

theorem SPc.Owes.keeps {g g' : Ring} {pc : SPc} {P : Nat} (h : pc.Owes g b m P) (hk : Keeps b g g') :
    pc.Owes g' b m P := by
  have hm : marked g' P b = marked g P b := hk.mark _
  cases pc <;> simp only [SPc.Owes, hm] at h ⊢ <;> exact h

theorem Guarded.keeps (h : Guarded w₀ s b m σ) (hk : Keeps b s.ring t.ring) (hs : t.sender = s.sender)
    (hp : t.pushed = s.pushed) : Guarded w₀ t b m σ := by
  have hpos : pos w₀ t = pos w₀ s := by simp [pos, hp]
  refine ⟨h.bit, hk.conn h.conn, hk.since.trans h.since, h.since_le, fun p h1 h2 => ?_, hpos ▸ h.lap, ?_⟩
  · rw [hpos] at h2
    exact (hk.mark _).trans (h.marks p h1 h2)
  · rw [hs, hpos]
    exact h.snd.keeps hk

theorem Guarded.move {pc : SPc} (h : Guarded w₀ s b m σ) (hs : pc.Owes s.ring b m (pos w₀ s)) :
    Guarded w₀ { s with sender := pc } b m σ :=
  ⟨h.bit, h.conn, h.since, h.since_le, h.marks, h.lap, hs⟩

theorem Guarded.setEpoch {pc : SPc} {e : BitVec 64} (h : Guarded w₀ s b m σ)
    (hs : pc.Owes { s.ring with epoch := e } b m (pos w₀ s)) :
    Guarded w₀ { s with ring := { s.ring with epoch := e }, sender := pc } b m σ :=
  ⟨h.bit, h.conn, h.since, h.since_le, h.marks, h.lap, hs⟩

/-- The mark of the guarded bit on the slot about to be reused is found. -/
theorem Guarded.found (h : Guarded w₀ s b m σ) (hP : pos w₀ s = m + 256) :
    marked s.ring (pos w₀ s) b = true := by
  have hm := h.marks m (Nat.le_refl m) (by omega)
  rw [hP]
  simpa only [marked, slotAt, slot_lap] using hm

theorem Guarded.loadRc {f : MsgT} {cc ep : BitVec 64} {wt : BitVec 32} {g' : Ring} {pc : SPc} {out : List MsgT}
    (h : Guarded w₀ s b m σ) (hb : Base w₀ s) (hpc : s.sender = .loadRc f cc ep wt)
    (hst : (SPc.loadRc f cc ep wt).step s.ring = some (g', pc, out)) :
    Guarded w₀ { s with ring := g', sender := pc, pushed := s.pushed ++ out } b m σ := by
  have ho := h.snd
  have hl := hb.snd
  rw [hpc] at ho hl
  have hslot : s.ring.slot wt = slotAt s.ring (pos w₀ s) := by rw [hl.2.2, hb.wt, slot_ofNat]
  simp only [SPc.step] at hst
  split at hst <;> cases hst <;> rw [List.append_nil] <;> refine h.move ⟨ho, fun hP => ?_⟩
  all_goals
    have hcc : cc.getLsbD b = true := by
      rcases ho with ho | ho
      · exact ho
      · omega
    have hrc : (s.ring.slot wt).rc.getLsbD b = true := by rw [hslot]; exact h.found hP
  · left
    rw [getLsbD_counted _ _ h.bit, hcc, hrc]
    rfl
  · rename_i hne
    intro he
    refine hne ⟨fun hz => ?_, he⟩
    have hcnt := getLsbD_counted cc (s.ring.slot wt).rc h.bit
    rw [hz, hcc, hrc] at hcnt
    simp at hcnt

theorem Guarded.live {f : MsgT} {cc ep rc : BitVec 64} {wt todo acc : BitVec 32} {g' : Ring} {pc : SPc}
    {out : List MsgT} (h : Guarded w₀ s b m σ) (hb : Base w₀ s) (hpc : s.sender = .live f cc ep wt rc todo acc)
    (hsp : pos w₀ s = m + 256 → (m - σ) % 2 ^ 32 < 2 ^ 31)
    (hst : (SPc.live f cc ep wt rc todo acc).step s.ring = some (g', pc, out)) :
    Guarded w₀ { s with ring := g', sender := pc, pushed := s.pushed ++ out } b m σ := by
  have ho := h.snd
  have hl := hb.snd
  rw [hpc] at ho hl
  simp only [SPc.step] at hst
  split at hst
  · rename_i hz
    split at hst <;> cases hst <;> rw [List.append_nil]
    · exact h.move trivial
    · rename_i hacc
      refine h.move ⟨ho.1, fun hP => ?_⟩
      rcases ho.2 hP with hc | hc
      · rw [hz] at hc; simp at hc
      · rw [not_not.mp hacc] at hc; simp at hc
  · rename_i hz
    cases hst
    rw [List.append_nil]
    refine h.move ⟨ho.1, fun hP => ?_⟩
    obtain ⟨l, hl32, hml, -, h1, h2⟩ := liveStep_spec s.ring.owners (wt - ringLap) todo acc hz
    rw [h1, h2]
    by_cases hbl : b = l
    · -- the bit is the one looked at, and its receiver had started
      have hcur : wt - ringLap = BitVec.ofNat 32 m := by
        rw [hl.2.2, hb.wt, hP, show ringLap = BitVec.ofNat 32 256 from rfl, Bits.ofNat_sub_ofNat (by omega)]
        rw [Nat.add_sub_cancel]
      right
      subst hbl
      rw [h.since, hcur, (isLive_iff h.since_le).mpr (hsp hP)]
      simp
    · rcases ho.2 hP with hc | hc
      · left; simp [hc, hbl]
      · right; simp [hc]

/-- The claim stamps the slot: it is not one the bit still has to read. -/
theorem Guarded.stamp {f : MsgT} {cc ep rc : BitVec 64} {wt : BitVec 32} (h : Guarded w₀ s b m σ) (hb : Base w₀ s)
    (hpc : s.sender = .cas f cc ep wt rc) (hsp : pos w₀ s = m + 256 → rc &&& ~~~epMask = ep) :
    Guarded w₀ { s with ring := s.ring.setRc wt (ep ||| cc), sender := .write f wt 0 } b m σ := by
  have ho := h.snd
  have hl := hb.snd
  rw [hpc] at ho hl
  obtain ⟨⟨c, rfl⟩, rfl, rfl⟩ := hl
  have hlt : pos w₀ s < m + 256 := by
    have hne : pos w₀ s ≠ m + 256 := fun hP => ho.2 hP (hsp hP)
    have := h.lap
    omega
  have hbit : (s.ring.epoch ||| c.setWidth 64).getLsbD b = c.getLsbD b := stamp_mark hb.epoch h.bit
  refine ⟨h.bit, h.conn, h.since, h.since_le, fun p h1 h2 => ?_, h.lap, ⟨hlt, ?_⟩⟩
  · have h2' : p < pos w₀ s := h2
    have hne : ¬ BitVec.ofNat 8 p = BitVec.ofNat 8 (pos w₀ s) := by
      rw [slot_inj (by omega) (by omega)]
      omega
    simp only [marked, hb.wt, slotAt_setRc, if_neg hne]
    exact h.marks p h1 h2
  · rcases ho.1 with hc | hc
    · left
      rw [Bits.getLsbD_zeroExtend] at hc
      simp only [marked, hb.wt, pos, slotAt_setRc, if_true]
      rw [hbit, hc]
    · exact Or.inr hc

theorem marked_setData (g : Ring) (c : BitVec 32) (d : MsgT) (p b : Nat) :
    marked (g.setData c d) p b = marked g p b := by
  simp only [marked, slotAt, Ring.setData, Function.update_apply]
  split
  · rename_i h; rw [h]; rfl
  · rfl

/-- Publishing: the position published carries the mark unless it is before `m`. -/
theorem Guarded.publish {f : MsgT} (h : Guarded w₀ s b m σ) (hpc : s.sender = .bump f) (c : BitVec 32) :
    Guarded w₀ { s with
      ring := { s.ring with writeCursor := c }
      sender := .idle
      pushed := s.pushed ++ [f] } b m σ := by
  have ho := h.snd
  rw [hpc] at ho
  obtain ⟨hlt, hm⟩ : pos w₀ s < m + 256 ∧ (marked s.ring (pos w₀ s) b = true ∨ pos w₀ s < m) := ho
  have hpos : pos w₀ { s with
      ring := { s.ring with writeCursor := c }
      sender := SPc.idle
      pushed := s.pushed ++ [f] } = pos w₀ s + 1 := by simp [pos]; omega
  refine ⟨h.bit, h.conn, h.since, h.since_le, fun p h1 h2 => ?_, by omega, trivial⟩
  rw [hpos] at h2
  rcases Nat.lt_succ_iff_lt_or_eq.mp h2 with h2 | rfl
  · exact h.marks p h1 h2
  · rcases hm with hm | hm
    · exact hm
    · omega

/-- **A sender step that spares the bit keeps its guard.** -/
theorem Guarded.sender {g' : Ring} {pc : SPc} {out : List MsgT} (h : Guarded w₀ s b m σ) (hb : Base w₀ s)
    (hsp : s.sender.Spares s.ring b m σ (pos w₀ s)) (hst : s.sender.step s.ring = some (g', pc, out)) :
    Guarded w₀ { s with ring := g', sender := pc, pushed := s.pushed ++ out } b m σ := by
  have ho := h.snd
  cases hpc : s.sender with
  | idle => simp [hpc, SPc.step] at hst
  | loadCc f =>
    simp only [hpc, SPc.step] at hst
    split at hst <;> cases hst <;> rw [List.append_nil]
    · exact h.move trivial
    · exact h.move (Or.inl (by rw [Bits.getLsbD_zeroExtend]; exact h.conn))
  | loadEpoch f cc =>
    rw [hpc] at ho hst
    cases hst
    rw [List.append_nil]
    exact h.move ho
  | loadWt f cc ep =>
    rw [hpc] at ho hst
    cases hst
    rw [List.append_nil]
    exact h.move ho
  | loadRc f cc ep wt =>
    rw [hpc] at hst
    exact h.loadRc hb hpc hst
  | live f cc ep wt rc todo acc =>
    rw [hpc] at hst hsp
    exact h.live hb hpc hsp hst
  | busy f cc wt =>
    rw [hpc] at hst
    cases hst
    rw [List.append_nil]
    exact h.move trivial
  | cas f cc ep wt rc =>
    rw [hpc] at hsp
    simp only [hpc, SPc.step] at hst
    split at hst <;> cases hst <;> rw [List.append_nil]
    · rename_i hrc
      exact h.stamp hb hpc (hsp hrc)
    · exact h.move trivial
  | write f wt k =>
    simp only [hpc, SPc.step] at hst
    cases hst
    rw [hpc] at ho
    rw [List.append_nil]
    refine ⟨h.bit, h.conn, h.since, h.since_le, fun p h1 h2 => ?_, h.lap, ?_⟩
    · rw [marked_setData]; exact h.marks p h1 h2
    · simp only
      split <;> simp only [SPc.Owes, marked_setData] <;> exact ho
  | bump f =>
    simp only [hpc, SPc.step] at hst
    cases hst
    exact h.publish hpc _
  | forceEpoch f cc wt =>
    simp only [hpc, SPc.step] at hst
    cases hst
    rw [List.append_nil]
    exact h.setEpoch trivial
  | forceRc f cc wt =>
    rw [hpc] at hst
    cases hst
    rw [List.append_nil]
    exact h.move trivial
  | forceLive f wt todo acc =>
    simp only [hpc, SPc.step] at hst
    split at hst
    · split at hst <;> cases hst <;> rw [List.append_nil] <;> exact h.move trivial
    · cases hst
      rw [List.append_nil]
      exact h.move trivial
  | forceConns f wt rem =>
    rw [hpc] at hsp
    simp only [hpc, SPc.step] at hst
    cases hst
    rw [List.append_nil]
    have hrem : rem.getLsbD b = false := hsp
    refine ⟨h.bit, ?_, h.since, h.since_le, h.marks, h.lap, ?_⟩
    · rw [BitVec.getLsbD_and, BitVec.getLsbD_not, h.conn, hrem]
      simp [h.bit]
    · simp only
      split
      · trivial
      · exact hrem
  | forceSlot f wt rem =>
    rw [hpc] at ho
    simp only [hpc, SPc.step] at hst
    cases hst
    rw [List.append_nil]
    have hk := h.keeps (t := { s with ring := s.ring.setRc wt ((s.ring.slot wt).rc &&& ~~~(rem.setWidth 64)) })
      (keeps_clear h.bit _ _ _ ho) rfl rfl
    exact hk.move trivial

theorem Guarded.release (h : Guarded w₀ s b m σ) (hm : m < pos w₀ s) (x : BitVec 64) :
    Guarded w₀ { s with ring := s.ring.setRc (BitVec.ofNat 32 m) x } b (m + 1) σ := by
  have hlap := h.lap
  have hkeep : ∀ p, m < p → p < m + 256 →
      marked (s.ring.setRc (BitVec.ofNat 32 m) x) p b = marked s.ring p b := by
    intro p h1 h2
    have hne : ¬ BitVec.ofNat 8 p = BitVec.ofNat 8 m := by
      rw [eq_comm, slot_inj (by omega) (by omega)]
      omega
    rw [marked, slotAt_setRc, if_neg hne, marked]
  refine ⟨h.bit, h.conn, h.since, by have := h.since_le; omega, fun p h1 h2 => ?_, ?_, ?_⟩
  · have h2' : p < pos w₀ s := h2
    rw [hkeep p (by omega) (by omega)]
    exact h.marks p (by omega) h2'
  · have : pos w₀ s ≤ m + 1 + 256 := by omega
    exact this
  · have hs := h.snd.mono (Nat.le_succ m) hlap
    have ho := h.snd
    have hP := hkeep (pos w₀ s) hm
    change s.sender.Owes (s.ring.setRc (BitVec.ofNat 32 m) x) b (m + 1) (pos w₀ s)
    cases hpc : s.sender <;> rw [hpc] at hs ho <;> simp only [SPc.Owes] at hs ho ⊢ <;> grind

/-! ## Runs without a timeout -/

/-- The sender is not in the timeout path. -/
def SPc.calm : SPc → Bool
  | .forceEpoch _ _ _ => false
  | .forceRc _ _ _ => false
  | .forceLive _ _ _ _ => false
  | .forceConns _ _ _ => false
  | .forceSlot _ _ _ => false
  | _ => true

/-- The sender is comparing the marks of a slot with `since`. -/
def SPc.comparing : SPc → Bool
  | .live _ _ _ _ _ _ _ => true
  | _ => false

/-- Every slot of the last lap is of the ring's epoch. -/
structure Current (w₀ : Nat) (s : State ι) : Prop where
  calm : s.sender.calm = true
  lap : ∀ p, w₀ ≤ p → p < pos w₀ s → pos w₀ s ≤ p + 256 → (s.sender.claimed = true → pos w₀ s ≠ p + 256) →
    (slotAt s.ring p).rc &&& ~~~epMask = s.ring.epoch
  top : s.sender.claimed = true → (slotAt s.ring (pos w₀ s)).rc &&& ~~~epMask = s.ring.epoch

theorem Current.quiet (h : Current w₀ s) (hq : Quiet s.ring t.ring) (hs : t.sender = s.sender)
    (hp : t.pushed = s.pushed) : Current w₀ t := by
  have hpos : pos w₀ t = pos w₀ s := by simp [pos, hp]
  have hh : ∀ p, (slotAt t.ring p).rc &&& ~~~epMask = (slotAt s.ring p).rc &&& ~~~epMask := fun p => hq.high _
  refine ⟨hs ▸ h.calm, fun p => ?_, ?_⟩
  · rw [hpos, hs, hh, hq.epoch]; exact h.lap p
  · rw [hpos, hs, hh, hq.epoch]; exact h.top

theorem Current.move {pc : SPc} (h : Current w₀ s) (hs : s.sender.claimed = false) (hc : pc.claimed = false)
    (hf : pc.calm = true) : Current w₀ { s with sender := pc } := by
  refine ⟨hf, fun p h1 h2 h3 _ => h.lap p h1 h2 h3 (by simp [hs]), fun h' => ?_⟩
  rw [hc] at h'
  cases h'

theorem high_setData (g : Ring) (c : BitVec 32) (d : MsgT) (p : Nat) :
    (slotAt (g.setData c d) p).rc = (slotAt g p).rc := by
  simp only [slotAt, Ring.setData, Function.update_apply]
  split
  · rename_i h; rw [h]; rfl
  · rfl

theorem Current.sender {g' : Ring} {pc : SPc} {out : List MsgT} (h : Current w₀ s) (hb : Base w₀ s)
    (hst : s.sender.step s.ring = some (g', pc, out)) :
    Current w₀ { s with ring := g', sender := pc, pushed := s.pushed ++ out } := by
  have hcalm := h.calm
  have hl := hb.snd
  cases hpc : s.sender with
  | idle => simp [hpc, SPc.step] at hst
  | cas f cc ep wt rc =>
    rw [hpc] at hl
    simp only [hpc, SPc.step] at hst
    split at hst <;> cases hst <;> rw [List.append_nil]
    · obtain ⟨⟨c, rfl⟩, rfl, rfl⟩ := hl
      have hcl : s.sender.claimed = false := by rw [hpc]; rfl
      refine ⟨rfl, fun p h1 h2 h3 h4 => ?_, fun _ => ?_⟩
      · simp only [hb.wt, slotAt_setRc]
        split
        · exact stamp_epoch hb.epoch
        · exact h.lap p h1 h2 h3 (by simp [hcl])
      · simp only [hb.wt, pos, slotAt_setRc, if_true]
        exact stamp_epoch hb.epoch
    · exact h.move (by rw [hpc]; rfl) rfl rfl
  | write f wt k =>
    simp only [hpc, SPc.step] at hst
    cases hst
    rw [List.append_nil]
    have hcl : s.sender.claimed = true := by rw [hpc]; rfl
    have hcl' : (if k + 1 = MsgT.fields then SPc.bump f else SPc.write f wt (k + 1)).claimed = true := by
      split <;> rfl
    refine ⟨?_, fun p h1 h2 h3 h4 => ?_, fun _ => ?_⟩
    · simp only
      split <;> rfl
    · rw [high_setData]
      exact h.lap p h1 h2 h3 (fun _ => h4 hcl')
    · rw [high_setData]
      exact h.top hcl
  | bump f =>
    simp only [hpc, SPc.step] at hst
    cases hst
    have hcl : s.sender.claimed = true := by rw [hpc]; rfl
    refine ⟨rfl, fun p h1 h2 h3 _ => ?_, (fun h => by cases h)⟩
    simp only [pos, List.length_append, List.length_singleton] at h2 h3
    by_cases hp : p < pos w₀ s
    · exact h.lap p h1 hp (by simp only [pos]; omega) (fun _ => by simp only [pos]; omega)
    · have he : p = pos w₀ s := by simp only [pos] at hp ⊢; omega
      rw [he]
      exact h.top hcl
  | forceEpoch f cc wt => rw [hpc] at hcalm; cases hcalm
  | forceRc f cc wt => rw [hpc] at hcalm; cases hcalm
  | forceLive f wt todo acc => rw [hpc] at hcalm; cases hcalm
  | forceConns f wt rem => rw [hpc] at hcalm; cases hcalm
  | forceSlot f wt rem => rw [hpc] at hcalm; cases hcalm
  | _ =>
    simp only [hpc, SPc.step] at hst
    repeat' split at hst
    all_goals
      cases hst
      rw [List.append_nil]
      exact h.move (by rw [hpc]; rfl) rfl rfl

theorem Current.step [DecidableEq ι] {act : Act ι} (h : Current w₀ s) (hb : Base w₀ s) (ht : act ≠ .sender .timeout)
    (hst : s.step act = some t) : Current w₀ t := by
  rcases State.step_cases hst with ⟨a, g, pc, out, rfl, hp, rfl⟩ | ⟨i, a, g, r, -, hr, rfl⟩
  · rcases SPc.act_cases hp with ⟨-, hp⟩ | ⟨rfl, rfl, hmv⟩
    · exact h.sender hb hp
    · rw [List.append_nil]
      obtain ⟨f, -, hpc, rfl⟩ | ⟨f, cc, ep, wt, rc, -, hpc, rfl⟩ | ⟨f, cc, wt, rfl, -, -⟩ := hmv
      · exact h.move (by rw [hpc]; rfl) rfl rfl
      · exact h.move (by rw [hpc]; rfl) rfl rfl
      · exact absurd rfl ht
  · exact h.quiet (Receiver.act_quiet hr) rfl rfl

/-- In a current ring the sender can only fail the bit by its `since`. -/
theorem Current.spares (h : Current w₀ s) (hb : Base w₀ s) (hm : w₀ ≤ m)
    (hn : s.sender.comparing = true → pos w₀ s = m + 256 → (m - σ) % 2 ^ 32 < 2 ^ 31) :
    s.sender.Spares s.ring b m σ (pos w₀ s) := by
  have hcalm := h.calm
  have hl := hb.snd
  cases hpc : s.sender with
  | live f cc ep wt rc todo acc => exact hn (by rw [hpc]; rfl)
  | cas f cc ep wt rc =>
    intro hrc hP
    rw [hpc] at hl
    have hcl : s.sender.claimed = false := by rw [hpc]; rfl
    have he := h.lap m hm (by omega) (by omega) (by simp [hcl])
    rw [hl.2.1, ← he, ← hrc, hl.2.2, hb.wt, slot_ofNat, hP]
    simp only [slotAt, slot_lap]
  | forceConns f wt rem => rw [hpc] at hcalm; cases hcalm
  | _ => trivial

end ThothIpc.Route
