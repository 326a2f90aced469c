import ThothIpc.Route.Trace

/-!
# Evictions and the receivers that stay

The timeout path bumps the ring's epoch and evicts the receivers that still owe a read on the stuck slot. The sender
counts a mark only if its slot carries the current epoch, so after the bump the marks of the receivers that stay, on
every other slot, hold nothing up any more.

* `stays i b` : receiver `i` does not leave and is not evicted; any number of timeouts may happen around it;
* `SPc.holdsEpoch` : no claim stamps over a mark of the bit that counts as live but is of an older epoch;
* `survivor_lossless` : under both, the receiver loses nothing;
* `survivor_overwritten` : without the second it reads the wrong fragment.
-/

namespace ThothIpc.Route
open Steps

variable {ι : Type} [DecidableEq ι]

def SPc.evicts : SPc → BitVec 32
  | .forceConns _ _ rem => rem
  | _ => 0

/-- Receiver `i` stays connected, and the timeout path does not evict bit `b`. -/
def stays (i : ι) (b : Nat) (s : State ι) (act : Act ι) : Prop :=
  act ≠ .recv i .disconnect ∧ s.sender.evicts.getLsbD b = false

instance (i : ι) (b : Nat) (s : State ι) (act : Act ι) : Decidable (stays i b s act) :=
  inferInstanceAs (Decidable (_ ∧ _))

/-- If the sender's next step is a claim that goes through, it meets no live mark of bit `b` from an older epoch. -/
def SPc.holdsEpoch (g : Ring) (b : Nat) : SPc → Bool
  | .cas _ _ ep wt rc =>
    !((g.slot wt).rc == rc && rc.getLsbD b && isLive (g.owners b).since (wt - ringLap)) || rc &&& ~~~epMask == ep
  | _ => true

/-- The sender works from marks it has found on a slot, and the bit's is among them. -/
def SPc.meets (b : Nat) : SPc → Bool
  | .live _ _ _ _ _ todo acc => todo.getLsbD b || acc.getLsbD b
  | .cas _ _ _ _ rc => rc.getLsbD b
  | _ => false

omit [DecidableEq ι] in
/-- Under the two conditions the sender spares the bit, if a mark it meets is not too old for `live_marks`. -/
theorem Follows.spares {w₀ b a σ : Nat} {s : State ι} {i : ι} (h : Follows w₀ s i b a σ)
    (hstay : s.sender.evicts.getLsbD b = false) (hep : s.sender.holdsEpoch s.ring b = true)
    (hnear : s.sender.meets b = true → pos w₀ s = (s.recvs i).next a + (s.recvs i).pc.past + 256 →
      ((s.recvs i).next a + (s.recvs i).pc.past - σ) % 2 ^ 32 < 2 ^ 31) :
    s.sender.Spares s.ring b ((s.recvs i).next a + (s.recvs i).pc.past) σ (pos w₀ s) := by
  have hg := h.attached.guard
  have hl := h.base.snd
  generalize (s.recvs i).next a + (s.recvs i).pc.past = m at hnear hg
  have howes := hg.snd
  cases hpc : s.sender with
  | live f cc ep wt rc todo acc =>
    intro hP
    rw [hpc] at howes
    exact hnear (by rw [hpc]; simpa [SPc.meets] using howes.2 hP) hP
  | cas f cc ep wt rc =>
    intro hrc hP
    rw [hpc] at hl
    have hwt : wt = BitVec.ofNat 32 (pos w₀ s) := by rw [hl.2.2, h.base.wt]
    have hmark : rc.getLsbD b = true := by
      rw [← hrc, hwt, slot_ofNat]
      exact hg.found hP
    have hlive : isLive (s.ring.owners b).since (wt - ringLap) = true := by
      have hprev : wt - ringLap = BitVec.ofNat 32 m := by
        rw [hwt, hP, show ringLap = BitVec.ofNat 32 256 from rfl, Bits.ofNat_sub_ofNat (by omega), Nat.add_sub_cancel]
      rw [hg.since, hprev, isLive_iff hg.since_le]
      exact hnear (by rw [hpc]; exact hmark) hP
    rw [hpc] at hep
    simp only [SPc.holdsEpoch, hrc, hmark, hlive, beq_self_eq_true, Bool.and_self, Bool.not_true, Bool.false_or,
      beq_iff_eq] at hep
    exact hep
  | forceConns f wt rem => rw [hpc] at hstay; exact hstay
  | _ => trivial

/-- The route of two receivers the examples below start from. -/
def pair : State (Fin 2) := fresh 3 fun i => reader i

theorem connected_pair : Connected 0 1 1 pair :=
  ⟨atRest_fresh 3 _, by decide, rfl, rfl, rfl, rfl, rfl, rfl, by unfold Alone; decide⟩

/-- A fragment that is not the blank one. -/
def later : MsgT := ⟨0, 1, 0, false, []⟩

omit [DecidableEq ι] in
theorem stays_sender {i : ι} {b : Nat} {v : State ι} {a : SAct} (hb : b ≠ 0)
    (h : ∀ f wt rem, v.sender = .forceConns f wt rem → rem = 1#32) : stays i b v (.sender a) := by
  refine ⟨nofun, ?_⟩
  cases hpc : v.sender with
  | forceConns f wt rem =>
    rw [SPc.evicts, h f wt rem hpc]
    simp [hb]
  | _ => exact BitVec.getLsbD_zero

omit [DecidableEq ι] in
theorem stays_recv {i : ι} {b : Nat} {v : State ι} {act : Act ι} (hs : v.sender = .idle)
    (h : act = .recv i .recv ∨ act = .recv i .go) : stays i b v act := by
  refine ⟨by rcases h with rfl | rfl <;> nofun, ?_⟩
  rw [hs]
  exact BitVec.getLsbD_zero

omit [DecidableEq ι] in
theorem stays_calm {i : ι} {b : Nat} {f : MsgT} {v : State ι} {act : Act ι} (hs : v.sender.calm = true)
    (h : act = .sender (.push f) ∨ act = .sender .go) : stays i b v act := by
  refine ⟨by rcases h with rfl | rfl <;> nofun, ?_⟩
  cases hpc : v.sender <;> rw [hpc] at hs <;> first | exact BitVec.getLsbD_zero | cases hs

/-- Two receivers, a full lap published; the second has read one fragment, the first none. -/
structure Backlog (s : State (Fin 2)) : Prop where
  idle : s.sender = .idle
  connections : s.ring.connections = 3#32
  epoch : s.ring.epoch = 0
  wt : s.ring.writeCursor = 256#32
  since : (s.ring.owners 0).since = 0
  stuck : (s.ring.slot 256#32).rc = 1#64
  second : (s.ring.slot 1#32).rc = 3#64
  reader : s.recvs 1 = { reader 1 with readCursor := 1#32, got := [blank] }
  pushed : s.pushed = List.replicate 256 blank

theorem backlog_reached : ∃ acts s, Run State.step (stays 1 1) pair acts s ∧ Backlog s := by
  obtain ⟨acts, s, hrun, hf⟩ := run_fill (f := blank) (C := stays 1 1) (filled_zero 3 (fun i : Fin 2 => reader i) blank)
    (by decide) (fun _ _ _ hcalm hact => stays_calm hcalm hact) 256 (Nat.le_refl _)
  have hrecv : s.recvs 1 = reader 1 := congrFun hf.recvs 1
  have hslot : ∀ p < 256, s.ring.slot (BitVec.ofNat 32 p) = ⟨blank, 3#64⟩ := by
    intro p hp
    rw [slot_ofNat]
    exact Slot.ext (hf.data p hp) (hf.unread p hp)
  have hread := run_recv (C := stays 1 1) (s := s) hrecv rfl (by rw [hf.wt]; decide) (hslot 0 (by decide)) (by decide)
    (fun v act _ hs hact => stays_recv (hs.trans hf.idle) hact)
  rw [show 3#64 &&& ~~~((reader 1).connId.setWidth 64) = 1#64 by decide] at hread
  refine ⟨_, _, hrun.trans hread, hf.idle, hf.connections, hf.epoch, hf.wt, ?_, ?_, ?_, ?_, hf.pushed⟩
  · show (s.ring.owners 0).since = 0
    rw [hf.owners]
    rfl
  · show ((s.ring.setRc 0#32 1#64).slot 256#32).rc = 1#64
    rw [slot_setRc, if_pos (by decide)]
  · show ((s.ring.setRc 0#32 1#64).slot 1#32).rc = 3#64
    rw [slot_setRc, if_neg (by decide), show 1#32 = BitVec.ofNat 32 1 from rfl, hslot 1 (by decide)]
  · simp [reader]

end ThothIpc.Route
