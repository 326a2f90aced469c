import ThothIpc.Route.Owner

/-!
# Connecting to a route while the sender pushes

A receiver reads `since`, claims a bit, records `since`, loads the write cursor and walks back over the slots that
already carry its mark. Meanwhile a push may be under way.

* `Owned s` : every endpoint past its claim has a bit of its own among the connected ones;
* `Joining w₀ s i` : where receiver `i` stands in its connect, and what it may rely on there;
* `adoptSafe s i` : when it loads the cursor, the push under way (if any) has loaded a mask with its bit; and it does
  not walk back over a slot the sender has already decided to reuse;
* `connect_covers` : then everything published from the adopted cursor on carries its mark until it is read.
-/

namespace ThothIpc.Route
open Function Steps

variable {ι : Type} {w₀ b m σ a : Nat} {s t : State ι} {i : ι}

/-! ## Bits in use -/

/-- Every endpoint that has claimed a bit has one that is connected; one about to claim has found a clear one. -/
structure Owned (s : State ι) : Prop where
  bit : ∀ j, (s.recvs j).pc.joined = true → ∃ c < 32, (s.recvs j).connId = BitVec.twoPow 32 c ∧
    s.ring.connections.getLsbD c = true
  room : ∀ j since curr, (s.recvs j).pc = .casConns since curr → curr ||| (curr + 1) ≠ curr

/-- No connected bit is cleared. -/
def Grows (g g' : Ring) : Prop := ∀ c, g.connections.getLsbD c = true → g'.connections.getLsbD c = true

theorem SPc.step_grows {g g' : Ring} {pc pc' : SPc} {out : List MsgT} (hc : pc.calm = true)
    (h : pc.step g = some (g', pc', out)) : Grows g g' := by
  cases pc <;> try cases hc
  all_goals
    simp only [SPc.step] at h
    repeat' split at h
  all_goals cases h <;> exact fun _ h => h

theorem SPc.step_frame {g g' : Ring} {pc pc' : SPc} {out : List MsgT} (hc : pc.calm = true)
    (h : pc.step g = some (g', pc', out)) : g'.epoch = g.epoch ∧ ∀ c, (g'.owners c).since = (g.owners c).since := by
  cases pc <;> try cases hc
  all_goals
    simp only [SPc.step] at h
    repeat' split at h
  all_goals cases h <;> exact ⟨rfl, fun _ => rfl⟩

theorem or_grows (c d : BitVec 32) {l : Nat} (h : c.getLsbD l = true) : (c ||| d).getLsbD l = true := by
  rw [BitVec.getLsbD_or, h, Bool.true_or]

theorem Receiver.act_grows {g g' : Ring} {r r' : Receiver} {ra : RAct} (hd : ra ≠ .disconnect)
    (h : r.act g ra = some (g', r')) : Grows g g' := by
  obtain ⟨-, h⟩ | ⟨rfl, -⟩ | ⟨rfl, -⟩ := Receiver.act_cases h
  · unfold Receiver.step at h
    split at h
    case h_4 since curr _ =>
      simp only at h
      split at h <;> cases h
      · rename_i hcur
        intro c hc
        rw [hcur] at hc
        exact or_grows _ _ hc
      · exact fun _ h => h
    all_goals
      (try simp only at h)
      (try split at h) <;> cases h <;> exact fun _ h => h
  · exact absurd rfl hd
  · exact fun _ h => h

theorem Owned.step [DecidableEq ι] {act : Act ι} (h : Owned s) (hc : s.sender.calm = true)
    (hd : act.leaves = false) (hst : s.step act = some t) : Owned t := by
  rcases State.step_cases hst with ⟨sa, g, pc, out, rfl, hp, rfl⟩ | ⟨j, ra, g, r, rfl, hr, rfl⟩
  · refine ⟨fun j hj => ?_, h.room⟩
    obtain ⟨c, hc32, hid, hcon⟩ := h.bit j hj
    refine ⟨c, hc32, hid, ?_⟩
    rcases SPc.act_cases hp with ⟨-, hp⟩ | ⟨rfl, -, -⟩
    · exact SPc.step_grows hc hp c hcon
    · exact hcon
  · have hgrow := Receiver.act_grows (fun he => by rw [he] at hd; cases hd) hr
    refine ⟨fun k hk => ?_, room_update h.room hr⟩
    simp only [update_apply] at hk ⊢
    split at hk
    · rename_i he
      subst he
      rw [if_pos rfl]
      rcases Receiver.act_joined hr hk with ⟨hjo, hid⟩ | ⟨since, hpc, -, hid, rfl⟩
      · obtain ⟨c, hc32, hid', hcon⟩ := h.bit k hjo
        exact ⟨c, hc32, hid.trans hid', hgrow c hcon⟩
      · obtain ⟨l, hl, -, hx, hset⟩ := claim_bit (h.room k _ _ hpc)
        exact ⟨l, hl, hid.trans hx, hset⟩
    · rename_i he
      rw [if_neg he]
      obtain ⟨c, hc32, hid, hcon⟩ := h.bit k hk
      exact ⟨c, hc32, hid, hgrow c hcon⟩

/-! ## The handshake -/

/-- Receiver `i` has claimed bit `b` for itself, having read `since` at position `σ`. -/
structure Holds (w₀ : Nat) (s : State ι) (i : ι) (b σ : Nat) : Prop where
  connId : (s.recvs i).connId = BitVec.twoPow 32 b
  bit : b < 32
  conn : s.ring.connections.getLsbD b = true
  alone : Alone s i b
  lo : w₀ ≤ σ
  hi : σ ≤ pos w₀ s
  got : (s.recvs i).got = []

/-- What receiver `i` may rely on, by where it stands in its connect. -/
def Joining (w₀ : Nat) (s : State ι) (i : ι) : Prop :=
  match (s.recvs i).pc with
  | .closed => (s.recvs i).got = []
  | .readSince => (s.recvs i).got = []
  | .loadConns since => (s.recvs i).got = [] ∧ ∃ σ, since = BitVec.ofNat 32 σ ∧ w₀ ≤ σ ∧ σ ≤ pos w₀ s
  | .casConns since _ => (s.recvs i).got = [] ∧ ∃ σ, since = BitVec.ofNat 32 σ ∧ w₀ ≤ σ ∧ σ ≤ pos w₀ s
  | .setSince since => ∃ σ b, since = BitVec.ofNat 32 σ ∧ Holds w₀ s i b σ
  | .adoptEpoch since => ∃ σ b, since = BitVec.ofNat 32 σ ∧ Holds w₀ s i b σ ∧ (s.ring.owners b).since = since
  | .adoptWt since ep => ∃ σ b, since = BitVec.ofNat 32 σ ∧ Holds w₀ s i b σ ∧ (s.ring.owners b).since = since ∧
      ep = s.ring.epoch
  | .adoptWalk since ep cur _ => ∃ σ b q, since = BitVec.ofNat 32 σ ∧ Holds w₀ s i b σ ∧ ep = s.ring.epoch ∧
      cur = BitVec.ofNat 32 q ∧ q ≤ pos w₀ s ∧ Guarded w₀ s b q σ
  | .ownerTok => ∃ σ b q, Holds w₀ s i b σ ∧ (s.recvs i).readCursor = BitVec.ofNat 32 q ∧ q ≤ pos w₀ s ∧
      Guarded w₀ s b q σ
  | .ownerPid => ∃ σ b q, Holds w₀ s i b σ ∧ (s.recvs i).readCursor = BitVec.ofNat 32 q ∧ q ≤ pos w₀ s ∧
      Guarded w₀ s b q σ
  | .clearPid => False
  | .clearTok => False
  | _ => ∃ σ b a, w₀ ≤ σ ∧ Alone s i b ∧ Attached w₀ s i b a σ

/-- The mask the push under way has loaded, or the slot it has stamped, has the bit. -/
def SPc.covers (g : Ring) (bit : BitVec 32) : SPc → Bool
  | .loadEpoch _ cc => cc &&& bit.setWidth 64 != 0
  | .loadWt _ cc _ => cc &&& bit.setWidth 64 != 0
  | .loadRc _ cc _ _ => cc &&& bit.setWidth 64 != 0
  | .live _ cc _ _ _ _ _ => cc &&& bit.setWidth 64 != 0
  | .cas _ cc _ _ _ => cc &&& bit.setWidth 64 != 0
  | .write _ _ _ => (g.slot g.writeCursor).rc &&& bit.setWidth 64 != 0
  | .bump _ => (g.slot g.writeCursor).rc &&& bit.setWidth 64 != 0
  | _ => true

/-- The sender is past its busy test on the slot at the write cursor without counting the bit. -/
def SPc.reusing (bit : BitVec 32) : SPc → Bool
  | .live _ _ _ _ _ todo acc => (todo ||| acc) &&& bit == 0
  | .cas _ _ _ _ _ => true
  | .write _ _ _ => true
  | .bump _ => true
  | _ => false

/-- The slot of cursor `c` is the sender's again: the write cursor is more than a lap past it, or a lap past it with the
sender already past its busy test. -/
def SPc.reclaims (g : Ring) (c bit : BitVec 32) (pc : SPc) : Bool :=
  decide (256 < (g.writeCursor - c).toNat) || (decide ((g.writeCursor - c).toNat = 256) && pc.reusing bit)

/-- Receiver `i`'s next step of `adopt_cursor` is safe. -/
def adoptSafe (s : State ι) (i : ι) : Bool :=
  match (s.recvs i).pc with
  | .adoptWt _ _ => s.sender.covers s.ring (s.recvs i).connId
  | .adoptWalk _ ep cur _ =>
    -- only if it walks back over the slot
    (s.ring.slot (cur - 1)).rc &&& (s.recvs i).connId.setWidth 64 == 0 ||
      (s.ring.slot (cur - 1)).rc &&& ~~~epMask != ep || !s.sender.reclaims s.ring (cur - 1) (s.recvs i).connId
  | _ => true

theorem Guarded.extend {q : Nat} (h : Guarded w₀ s b (q + 1) σ) (hσ : σ ≤ q) (hq : q < pos w₀ s)
    (hm : marked s.ring q b = true) (hlap : pos w₀ s < q + 256 ∨
      pos w₀ s = q + 256 ∧ s.sender.reusing (BitVec.twoPow 32 b) = false) : Guarded w₀ s b q σ := by
  refine ⟨h.bit, h.conn, h.since, hσ, fun p h1 h2 => ?_, by omega, ?_⟩
  · rcases Nat.eq_or_lt_of_le h1 with rfl | h1
    · exact hm
    · exact h.marks p h1 h2
  · have ho := h.snd
    cases hpc : s.sender <;> rw [hpc] at ho hlap <;> simp only [SPc.Owes, SPc.reusing] at ho hlap ⊢
    case live f cc ep wt rc todo acc =>
      refine ⟨ho.1.imp id (by omega), fun hP => ?_⟩
      have hne := (hlap.resolve_left (by omega)).2
      rw [beq_eq_false_iff_ne, ne_eq, Bits.and_twoPow_eq_zero h.bit, BitVec.getLsbD_or, Bool.not_eq_false,
        Bool.or_eq_true] at hne
      exact hne
    all_goals first | omega | grind

/-- The guard starts where the cursor is loaded, if the push under way covers the bit. -/
theorem Guarded.begin (hb : Base w₀ s) (hcalm : s.sender.calm = true) (hbit : b < 32)
    (hconn : s.ring.connections.getLsbD b = true)
    (hsince : (s.ring.owners b).since = BitVec.ofNat 32 σ) (hσ : σ ≤ pos w₀ s)
    (hcov : s.sender.covers s.ring (BitVec.twoPow 32 b) = true) : Guarded w₀ s b (pos w₀ s) σ := by
  refine ⟨hbit, hconn, hsince, hσ, fun p h1 h2 => by omega, by omega, ?_⟩
  have hcc : ∀ x : BitVec 64, (x &&& (BitVec.twoPow 32 b).setWidth 64 != 0) = true → x.getLsbD b = true := by
    intro x hx
    rw [bne_iff_ne, ne_eq, and_connId_eq_zero hbit] at hx
    simpa using hx
  have hslot : s.ring.slot s.ring.writeCursor = slotAt s.ring (pos w₀ s) := by rw [hb.wt, slot_ofNat]
  cases hpc : s.sender <;> rw [hpc] at hcov <;> simp only [SPc.covers, SPc.Owes] at hcov ⊢
  case live => exact ⟨Or.inl (hcc _ hcov), fun h => by omega⟩
  case cas => exact ⟨Or.inl (hcc _ hcov), fun h => by omega⟩
  case write => exact ⟨by omega, Or.inl (by rw [marked, ← hslot]; exact hcc _ hcov)⟩
  case bump => exact ⟨by omega, Or.inl (by rw [marked, ← hslot]; exact hcc _ hcov)⟩
  case forceSlot => rw [hpc] at hcalm; cases hcalm
  all_goals exact Or.inl (hcc _ hcov)

/-- A step of somebody else: what a receiver relies on in its connect stays. -/
theorem Joining.env (h : Joining w₀ s i) (hr : t.recvs i = s.recvs i) (hpos : pos w₀ s ≤ pos w₀ t)
    (hep : t.ring.epoch = s.ring.epoch)
    (hh : ∀ b σ, Holds w₀ s i b σ → Holds w₀ t i b σ ∧ (t.ring.owners b).since = (s.ring.owners b).since)
    (hg : ∀ b q σ, Holds w₀ s i b σ → Guarded w₀ s b q σ → Guarded w₀ t b q σ)
    (ha : ∀ b a σ, w₀ ≤ σ → Alone s i b → Attached w₀ s i b a σ → Alone t i b ∧ Attached w₀ t i b a σ) :
    Joining w₀ t i := by
  unfold Joining at h ⊢
  rw [hr]
  cases hpc : (s.recvs i).pc <;> rw [hpc] at h <;> simp only at h ⊢
  case closed => exact h
  case readSince => exact h
  case loadConns =>
    obtain ⟨h0, σ, h1, h2, h3⟩ := h
    exact ⟨h0, σ, h1, h2, by omega⟩
  case casConns =>
    obtain ⟨h0, σ, h1, h2, h3⟩ := h
    exact ⟨h0, σ, h1, h2, by omega⟩
  case setSince =>
    obtain ⟨σ, b, h1, h2⟩ := h
    exact ⟨σ, b, h1, (hh b σ h2).1⟩
  case adoptEpoch =>
    obtain ⟨σ, b, h1, h2, h3⟩ := h
    exact ⟨σ, b, h1, (hh b σ h2).1, (hh b σ h2).2.trans h3⟩
  case adoptWt =>
    obtain ⟨σ, b, h1, h2, h3, h4⟩ := h
    exact ⟨σ, b, h1, (hh b σ h2).1, (hh b σ h2).2.trans h3, h4.trans hep.symm⟩
  case adoptWalk =>
    obtain ⟨σ, b, q, h1, h2, h3, h4, h5, h6⟩ := h
    exact ⟨σ, b, q, h1, (hh b σ h2).1, h3.trans hep.symm, h4, by omega, hg b q σ h2 h6⟩
  case ownerTok =>
    obtain ⟨σ, b, q, h1, h2, h3, h4⟩ := h
    exact ⟨σ, b, q, (hh b σ h1).1, h2, by omega, hg b q σ h1 h4⟩
  case ownerPid =>
    obtain ⟨σ, b, q, h1, h2, h3, h4⟩ := h
    exact ⟨σ, b, q, (hh b σ h1).1, h2, by omega, hg b q σ h1 h4⟩
  all_goals
    obtain ⟨σ, b, a, h1, h2, h3⟩ := h
    obtain ⟨h4, h5⟩ := ha b a σ h1 h2 h3
    exact ⟨σ, b, a, h1, h4, h5⟩

theorem Joining.of_attached (h1 : w₀ ≤ σ) (h2 : Alone s i b) (h3 : Attached w₀ s i b a σ) : Joining w₀ s i := by
  have hr := h3.reading
  unfold Joining
  cases hpc : (s.recvs i).pc <;> rw [hpc] at hr <;> first | exact hr.elim | exact ⟨σ, b, a, h1, h2, h3⟩

section Steps
variable [DecidableEq ι]

theorem Holds.env {j : ι} {g : Ring} {r : Receiver} {ra : RAct} (h : Holds w₀ s i b σ) (hj : i ≠ j)
    (hr : (s.recvs j).act s.ring ra = some (g, r)) :
    Keeps b s.ring g ∧ Holds w₀ { s with ring := g, recvs := update s.recvs j r } i b σ := by
  have hk := Receiver.act_keeps h.bit hr (h.alone j (Ne.symm hj))
  have hst : s.step (.recv j ra) = some { s with ring := g, recvs := update s.recvs j r } := by
    simp only [State.step, hr, Option.map_some]
  have hi : update s.recvs j r i = s.recvs i := update_of_ne hj r s.recvs
  refine ⟨hk, ?_, h.bit, hk.conn h.conn, h.alone.step h.conn hst, h.lo, h.hi, ?_⟩ <;> simp only [hi]
  · exact h.connId
  · exact h.got

theorem Holds.own {g : Ring} {r : Receiver} (h : Holds w₀ s i b σ) (hid : r.connId = (s.recvs i).connId)
    (hgot : r.got = (s.recvs i).got) (hg : g.connections = s.ring.connections) :
    Holds w₀ { s with ring := g, recvs := update s.recvs i r } i b σ := by
  refine ⟨?_, h.bit, by rw [hg]; exact h.conn, fun j hj hjo => ?_, h.lo, h.hi, ?_⟩
  · simp only [update_self]; exact hid.trans h.connId
  · simp only [update_of_ne hj] at hjo ⊢
    exact h.alone j hj hjo
  · simp only [update_self]; exact hgot.trans h.got

omit [DecidableEq ι] in
/-- One turn of the walk that goes back: the slot before the cursor is guarded as well. -/
theorem Guarded.walk {since ep cur n} {q : Nat} (hb : Base w₀ s) (hh : Holds w₀ s i b σ) (hsafe : adoptSafe s i = true)
    (hpc : (s.recvs i).pc = .adoptWalk since ep cur n) (hcur : cur = BitVec.ofNat 32 q) (hq : q ≤ pos w₀ s)
    (hσ : σ < q) (hm : (s.ring.slot (cur - 1)).rc &&& (s.recvs i).connId.setWidth 64 ≠ 0)
    (he : (s.ring.slot (cur - 1)).rc &&& ~~~epMask = ep) (h : Guarded w₀ s b q σ) :
    cur - 1 = BitVec.ofNat 32 (q - 1) ∧ Guarded w₀ s b (q - 1) σ := by
  have hcur' : cur - 1 = BitVec.ofNat 32 (q - 1) := by
    rw [hcur, show (1 : BitVec 32) = BitVec.ofNat 32 1 from rfl, Bits.ofNat_sub_ofNat (by omega)]
  have hlap := h.lap
  obtain ⟨q, rfl⟩ : ∃ k, q = k + 1 := ⟨q - 1, by omega⟩
  rw [Nat.add_sub_cancel] at hcur' ⊢
  refine ⟨hcur', h.extend (by omega) (by omega) ?_ ?_⟩
  · have hm' := hm
    rw [hh.connId, ne_eq, and_connId_eq_zero hh.bit, hcur', slot_ofNat] at hm'
    simpa [marked] using hm'
  · -- the distance to the write cursor is a small number, so the wrapping one is the same
    have hdist : (s.ring.writeCursor - (cur - 1)).toNat = pos w₀ s - q := by
      rw [hb.wt, hcur', Bits.ofNat_sub_ofNat (by omega), BitVec.toNat_ofNat, Nat.mod_eq_of_lt (by omega)]
    unfold adoptSafe at hsafe
    rw [hpc] at hsafe
    simp only [he, bne_self_eq_false, Bool.or_false, Bool.or_eq_true, beq_iff_eq, hm, false_or] at hsafe
    simp only [SPc.reclaims, hdist, hh.connId, Bool.not_eq_true', Bool.or_eq_false_iff, decide_eq_false_iff_not,
      Nat.not_lt, Bool.and_eq_false_iff] at hsafe
    rcases Nat.lt_or_ge (pos w₀ s) (q + 256) with hlt | hge
    · exact Or.inl hlt
    · exact Or.inr ⟨by omega, hsafe.2.resolve_left (by omega)⟩

theorem Joining.claim {since : BitVec 32} {g : Ring} {r : Receiver} (h : Joining w₀ s i) (ho : Owned s)
    (hpc : (s.recvs i).pc = .casConns since s.ring.connections)
    (hr : (s.recvs i).act s.ring .go = some (g, r)) (hg : g = { s.ring with
      connections := s.ring.connections ||| (s.ring.connections + 1) })
    (hr' : r = { s.recvs i with
      connId := (s.ring.connections ||| (s.ring.connections + 1)) ^^^ s.ring.connections, pc := .setSince since }) :
    Joining w₀ { s with ring := g, recvs := update s.recvs i r } i := by
  unfold Joining at h
  rw [hpc] at h
  obtain ⟨hgot, σ, hσ, hlo, hhi⟩ := h
  obtain ⟨l, hl, hclear, hx, hset⟩ := claim_bit (ho.room i _ _ hpc)
  subst hg hr'
  simp only [Joining, update_self]
  refine ⟨σ, l, hσ, ?_, hl, hset, fun j hj hjo => ?_, hlo, hhi, ?_⟩
  · simp only [update_self]; exact hx
  · simp only [update_of_ne hj] at hjo ⊢
    obtain ⟨c, hc, hid, hcon⟩ := ho.bit j hjo
    rw [hid, BitVec.getLsbD_twoPow]
    have hne : c ≠ l := fun he => by rw [he, hclear] at hcon; cases hcon
    simp [hne]
  · simp only [update_self]; exact hgot

theorem Joining.go {g : Ring} {r : Receiver} (h : Joining w₀ s i) (hb : Base w₀ s) (hcur : Current w₀ s)
    (ho : Owned s) (hsafe : adoptSafe s i = true)
    (hr : (s.recvs i).step s.ring = some (g, r)) :
    Joining w₀ { s with ring := g, recvs := update s.recvs i r } i := by
  have hj := h
  unfold Joining at h
  cases hpc : (s.recvs i).pc <;> rw [hpc] at h <;> simp only at h
  case closed => simp [Receiver.step, hpc] at hr
  case readSince =>
    simp only [Receiver.step, hpc] at hr
    cases hr
    simp only [Joining, update_self]
    exact ⟨h, pos w₀ s, hb.wt, by simp [pos], Nat.le_refl _⟩
  case loadConns =>
    simp only [Receiver.step, hpc] at hr
    split at hr <;> cases hr <;> simp only [Joining, update_self]
    · exact h.1
    · exact h
  case casConns since curr =>
    simp only [Receiver.step, hpc] at hr
    split at hr
    · rename_i hc
      subst hc
      have hr' := hr
      cases hr
      exact hj.claim ho hpc (by simp only [Receiver.act, Receiver.step, hpc, if_true]) rfl rfl
    · cases hr
      simp only [Joining, update_self]
      exact h
  case setSince since =>
    obtain ⟨σ, b, hσ, hh⟩ := h
    simp only [Receiver.step, hpc] at hr
    cases hr
    simp only [Joining, update_self]
    refine ⟨σ, b, hσ, hh.own rfl rfl rfl, ?_⟩
    simp only [Ring.setOwner, hh.connId, slotIndex_twoPow hh.bit, update_self]
  case adoptEpoch since =>
    obtain ⟨σ, b, hσ, hh, hs⟩ := h
    simp only [Receiver.step, hpc] at hr
    cases hr
    simp only [Joining, update_self]
    exact ⟨σ, b, hσ, hh.own rfl rfl rfl, hs, trivial⟩
  case adoptWt since ep =>
    obtain ⟨σ, b, hσ, hh, hs, hep⟩ := h
    simp only [Receiver.step, hpc] at hr
    cases hr
    simp only [adoptSafe, hpc, hh.connId] at hsafe
    have hg := Guarded.begin hb hcur.calm hh.bit hh.conn (hs.trans hσ) hh.hi hsafe
    simp only [Joining, update_self]
    exact ⟨σ, b, pos w₀ s, hσ, hh.own rfl rfl rfl, hep, hb.wt, Nat.le_refl _, hg.keeps (Keeps.refl b _) rfl rfl⟩
  case adoptWalk since ep cur n =>
    obtain ⟨σ, b, q, hσ, hh, hep, hcq, hq, hg⟩ := h
    simp only [Receiver.step, hpc] at hr
    split at hr <;> cases hr <;> simp only [Joining, update_self]
    · exact ⟨σ, b, q, hh.own rfl rfl rfl, hcq, hq, hg.keeps (Keeps.refl b _) rfl rfl⟩
    · rename_i hgo
      simp only [not_or, not_not] at hgo
      obtain ⟨-, hne, hm, he⟩ := hgo
      have hlt : σ < q := by
        refine Nat.lt_of_le_of_ne hg.since_le fun he => hne ?_
        rw [hcq, hσ, he]
      obtain ⟨hcur', hg'⟩ := hg.walk hb hh hsafe hpc hcq hq hlt hm he
      exact ⟨σ, b, q - 1, hσ, hh.own rfl rfl rfl, hep, hcur', le_trans (Nat.sub_le q 1) hq,
        hg'.keeps (Keeps.refl b _) rfl rfl⟩
  case ownerTok =>
    obtain ⟨σ, b, q, hh, hc, hq, hg⟩ := h
    simp only [Receiver.step, hpc] at hr
    cases hr
    simp only [Joining, update_self]
    have hk := keeps_setOwner hh.bit s.ring (s.recvs i).connId (fun o => { o with startTok := (s.recvs i).tok })
      (Or.inr fun _ => rfl)
    exact ⟨σ, b, q, hh.own rfl rfl rfl, hc, hq, hg.keeps hk rfl rfl⟩
  case ownerPid =>
    obtain ⟨σ, b, q, hh, hc, hq, hg⟩ := h
    simp only [Receiver.step, hpc] at hr
    cases hr
    have hh' := hh.own (g := s.ring.setOwner (s.recvs i).connId fun o => { o with pid := (s.recvs i).pid })
      (r := { s.recvs i with pc := .ready }) rfl rfl rfl
    have hlo := hh.lo
    have hσ := hg.since_le
    refine Joining.of_attached (b := b) (σ := σ) (a := q) hlo hh'.alone ⟨hh'.connId, by omega, hq, ?_, ?_, ?_, ?_⟩ <;>
      simp only [update_self, Receiver.next, hh.got, List.length_nil, Nat.add_zero, RPc.past]
    · exact hc
    · exact List.nil_prefix
    · trivial
    · have hk := keeps_setOwner hh.bit s.ring (s.recvs i).connId (fun o => { o with pid := (s.recvs i).pid })
        (Or.inr fun _ => rfl)
      exact hg.keeps hk rfl rfl
  case ready => simp [Receiver.step, hpc] at hr
  all_goals
    obtain ⟨σ, b, a, h1, h2, h3⟩ := h
    have hst : s.step (.recv i .go) = some { s with ring := g, recvs := update s.recvs i r } := by
      simp only [State.step, Receiver.act, hr, Option.map_some]
    exact Joining.of_attached h1 (h2.step h3.guard.conn hst) (h3.go hb hr)

theorem Joining.calls {r : Receiver} {ra : RAct} (h : Joining w₀ s i) (hb : Base w₀ s)
    (hst : s.step (.recv i ra) = some { s with recvs := update s.recvs i r })
    (hr : (∃ pid tok, ra = .opens pid tok ∧ (s.recvs i).open pid tok = some r) ∨
      (ra = .recv ∧ (s.recvs i).recv s.ring = some r) ∨ (ra = .fail ∧ (s.recvs i).fail = some r)) :
    Joining w₀ { s with recvs := update s.recvs i r } i := by
  have hj := h
  unfold Joining at h
  obtain ⟨pid, tok, -, hr⟩ | ⟨-, hr⟩ | ⟨-, hr⟩ := hr
  · unfold Receiver.open at hr
    split at hr <;> cases hr
    rename_i hpc
    rw [hpc] at h
    simp only [Joining, update_self]
    exact h
  · have hpc : (s.recvs i).pc = .ready := by
      unfold Receiver.recv at hr
      split at hr
      · assumption
      · cases hr
    rw [hpc] at h
    obtain ⟨σ, b, a, h1, h2, h3⟩ := h
    exact Joining.of_attached h1 (h2.step h3.guard.conn hst) (h3.recv hb hr)
  · have hr' := hr
    unfold Receiver.fail at hr
    split at hr
    · rename_i hpc
      cases hr
      rw [hpc] at h
      simp only [Joining, update_self]
      exact h
    · rename_i hpc
      rw [hpc] at h
      obtain ⟨σ, b, a, h1, h2, h3⟩ := h
      exact Joining.of_attached h1 (h2.step h3.guard.conn hst) (h3.fail hr')
    · cases hr

/-- Receiver `i` adopts its cursor safely. -/
def handshake (i : ι) (s : State ι) (act : Act ι) : Prop :=
  undisturbed s act ∧ (act = .recv i .go → adoptSafe s i = true)

instance (i : ι) (s : State ι) (act : Act ι) : Decidable (handshake i s act) := inferInstanceAs (Decidable (_ ∧ _))

omit [DecidableEq ι] in
theorem Current.spares_near (h : Current w₀ s) (hb : Base w₀ s) (hσ : w₀ ≤ σ) (hm : σ ≤ m)
    (hlen : s.pushed.length < 2 ^ 31) : s.sender.Spares s.ring b m σ (pos w₀ s) := by
  refine h.spares hb (by omega) fun _ hP => ?_
  simp only [pos] at hP
  omega

omit [DecidableEq ι] in
theorem Joining.sender {g : Ring} {pc : SPc} {out : List MsgT} (h : Joining w₀ s i) (hb : Base w₀ s)
    (hcur : Current w₀ s)
    (hlen : s.pushed.length < 2 ^ 31) (hst : s.sender.step s.ring = some (g, pc, out)) :
    Joining w₀ { s with ring := g, sender := pc, pushed := s.pushed ++ out } i := by
  have hpos : pos w₀ s ≤ pos w₀ { s with ring := g, sender := pc, pushed := s.pushed ++ out } := by
    simp only [pos, List.length_append]
    omega
  have hq := SPc.step_frame hcur.calm hst
  refine h.env rfl hpos hq.1 (fun b σ hh => ⟨?_, hq.2 b⟩) (fun b q σ hh hg => ?_) (fun b a σ hσ ha hat => ?_)
  · exact ⟨hh.connId, hh.bit, SPc.step_grows hcur.calm hst _ hh.conn, hh.alone, hh.lo, le_trans hh.hi hpos, hh.got⟩
  · exact hg.sender hb (hcur.spares_near hb hh.lo hg.since_le hlen) hst
  · exact ⟨ha, hat.sender hb (hcur.spares_near hb hσ hat.guard.since_le hlen) hst⟩

theorem Joining.step {act : Act ι} (h : Joining w₀ s i) (hb : Base w₀ s) (hcur : Current w₀ s) (ho : Owned s)
    (hok : handshake i s act) (hst : s.step act = some t) : Joining w₀ t i := by
  obtain ⟨⟨htime, hdisc, hlen⟩, hsafe⟩ := hok
  rcases State.step_cases hst with ⟨sa, g, pc, out, rfl, hp, rfl⟩ | ⟨j, ra, g, r, rfl, hr, rfl⟩
  · rcases SPc.act_cases hp with ⟨rfl, hp⟩ | ⟨rfl, rfl, hmv⟩
    · exact h.sender hb hcur hlen hp
    · rw [List.append_nil]
      have howes : ∀ b m P, pc.Owes s.ring b m P := by
        obtain ⟨f, -, -, rfl⟩ | ⟨f, cc, ep, wt, rc, -, -, rfl⟩ | ⟨f, cc, wt, -, -, rfl⟩ :=
          hmv <;> exact fun _ _ _ => trivial
      refine h.env rfl (Nat.le_refl _) rfl (fun b σ hh => ⟨?_, rfl⟩) (fun b q σ hh hg => hg.move (howes _ _ _))
        (fun b a σ hσ ha hat => ⟨ha, hat.senderMove (howes _ _ _)⟩)
      exact ⟨hh.connId, hh.bit, hh.conn, hh.alone, hh.lo, hh.hi, hh.got⟩
  · by_cases hj : i = j
    · subst hj
      obtain ⟨rfl, hr⟩ | ⟨rfl, -⟩ | ⟨rfl, hmv⟩ := Receiver.act_cases hr
      · exact h.go hb hcur ho (hsafe rfl) hr
      · exact absurd hdisc (by simp [Act.leaves])
      · exact h.calls hb hst hmv
    · have hi : update s.recvs j r i = s.recvs i := update_of_ne hj r s.recvs
      refine h.env hi (Nat.le_refl _) (Receiver.act_quiet hr).epoch (fun b σ hh => ?_) (fun b q σ hh hg => ?_)
        (fun b a σ hσ ha hat => ⟨ha.step hat.guard.conn hst, ?_⟩)
      · exact ⟨(hh.env hj hr).2, (hh.env hj hr).1.since⟩
      · exact hg.keeps (hh.env hj hr).1 rfl rfl
      · exact hat.keeps (Receiver.act_keeps hat.guard.bit hr (ha j (Ne.symm hj))) rfl rfl hi

def RPc.connected : RPc → Bool
  | .ready => true
  | .read _ _ => true
  | .relLoad _ => true
  | .relCas _ _ => true
  | .bump _ => true
  | _ => false

end Steps

/-! ## A push that started before the claim -/

theorem owned_newcomer : Owned newcomer := by
  refine ⟨fun j hj => ?_, fun j since curr hj => ?_⟩
  · have h0 : j = 0 := by
      by_contra hne
      simp [newcomer, fresh, hne, RPc.joined] at hj
    subst h0
    exact ⟨0, by decide, rfl, by decide⟩
  · simp only [newcomer, fresh] at hj
    split at hj <;> cases hj

end ThothIpc.Route
