import ThothIpc.Route.Trace

/-!
# Flow control on a route is lossless

A fixed set of receivers, connected where the write cursor stands, and a sender that never takes the timeout path.

* `undisturbed` : nobody leaves, no timeout, fewer than `2 ^ 31` fragments;
* `FifoInv` : what every such step preserves;
* `route_fifo` : every receiver reads what was published, in order, and what it has not read is intact;
* `lap_exceeded` : the write cursor can be a lap and one ahead.
-/

namespace ThothIpc.Route
open Steps

variable {ι : Type} [DecidableEq ι]

/-- Every receiver follows the sender from the start on, and no slot is of an older epoch. -/
structure FifoInv (w₀ : Nat) (bit : ι → Nat) (s : State ι) : Prop where
  base : Base w₀ s
  current : Current w₀ s
  follows : ∀ i, Follows w₀ s i (bit i) w₀ w₀

theorem FifoInv.step {w₀ : Nat} {bit : ι → Nat} {s t : State ι} {act : Act ι} (h : FifoInv w₀ bit s)
    (hok : undisturbed s act) (hst : s.step act = some t) : FifoInv w₀ bit t := by
  obtain ⟨htime, hdisc, hlen⟩ := hok
  refine ⟨h.base.step hst, h.current.step h.base htime hst,
    fun i => (h.follows i).step (fun he => by rw [he] at hdisc; cases hdisc) (fun _ => ?_) hst⟩
  refine h.current.spares h.base (by simp only [Receiver.next]; omega) fun _ hP => ?_
  simp only [pos, Receiver.next] at hP ⊢
  omega

/-- **Every receiver reads what was published, in order, each fragment once, and nothing it has not read is touched.**
The write cursor is at most 256 ahead, or 257 between the release of a slot and the cursor's move. -/
theorem route_fifo {w₀ : Nat} {bit : ι → Nat} {s₀ s : State ι} {acts : List (Act ι)}
    (h0 : ∀ i, Connected w₀ i (bit i) s₀) (hrun : Run State.step undisturbed s₀ acts s) (i : ι) :
    Lossless w₀ w₀ s i := by
  have hinv := hrun.inv (FifoInv w₀ bit) ⟨(h0 i).follows.base, (h0 i).current, fun i => (h0 i).follows⟩
    fun t act u ht hok hst => ht.step hok hst
  exact (hinv.follows i).lossless

theorem connected_fresh : Connected 0 () 0 (fresh 1 fun _ => reader 0) :=
  ⟨atRest_fresh 1 _, by decide, rfl, rfl, rfl, rfl, rfl, rfl, fun _ h => absurd rfl h⟩

theorem route_fifo_push_read : ∃ s, Run State.step undisturbed (fresh 1 fun _ : Unit => reader 0)
      (pushActs blank ++ readActs ()) s ∧ s.pushed = [blank] ∧ Lossless 0 0 s () := by
  refine exists_run_imp (fun s => s.pushed = [blank]) (by decide) fun s hrun hs => ?_
  exact ⟨hs, route_fifo (fun _ => connected_fresh) hrun ()⟩

/-- A receiver releases its first slot after a full lap; before it moves its cursor the sender publishes once more: the
write cursor is 257 ahead. -/
theorem lap_exceeded : ∃ acts s, Run State.step undisturbed (fresh 1 fun _ : Unit => reader 0) acts s ∧
    s.ring.writeCursor = 257#32 ∧ (s.recvs ()).readCursor = 0#32 ∧ (s.recvs ()).connId = 1#32 ∧
    s.ring.connections = 1#32 := by
  obtain ⟨acts, s, hrun, hf⟩ := run_fill (f := blank) (C := undisturbed) (filled_zero 1 (fun _ : Unit => reader 0) blank)
    (by decide) (fun v act hv _ hact => by rcases hact with rfl | rfl <;> exact ⟨nofun, rfl, by omega⟩) 256
    (Nat.le_refl _)
  have hrecv : s.recvs () = reader 0 := congrFun hf.recvs ()
  have hslot : s.ring.slot 0 = ⟨blank, 1#64⟩ := by
    rw [show (0 : BitVec 32) = BitVec.ofNat 32 0 from rfl, slot_ofNat]
    exact Slot.ext (hf.data 0 (by decide)) (hf.unread 0 (by decide))
  have hread := run_read (C := undisturbed) (s := s) hrecv rfl (by rw [hf.wt]; decide) hslot (by decide)
    (fun v act hv _ hact => by
      rcases hact with rfl | rfl <;> exact ⟨nofun, rfl, by rw [hv, hf.pushed, List.length_replicate]; decide⟩)
  rw [show (reader 0).readCursor = 0 from rfl,
    show 1#64 &&& ~~~((reader 0).connId.setWidth 64) = 0#64 by decide] at hread
  have hpush := run_push (C := undisturbed) (f := blank) (s := { s with
      ring := s.ring.setRc 0 0#64
      recvs := Function.update s.recvs () { reader 0 with pc := .bump blank } }) hf.idle
    (by show s.ring.connections ≠ 0; rw [hf.connections]; decide) (by
      rintro ⟨h, -⟩
      apply h
      show _ &&& (((s.ring.setRc (BitVec.ofNat 32 0) 0#64).slot s.ring.writeCursor).rc &&& _) = _
      rw [hf.wt, slot_ofNat, slotAt_setRc]
      simp) (fun v act hv _ hact => by
      rcases hact with rfl | rfl <;> exact ⟨nofun, rfl,
        by rw [hv]; simp only; rw [hf.pushed, List.length_replicate]; decide⟩)
  refine ⟨_, _, (hrun.trans hread).trans hpush, ?_, rfl, rfl, hf.connections⟩
  show s.ring.writeCursor + 1 = _
  rw [hf.wt]
  rfl

end ThothIpc.Route
