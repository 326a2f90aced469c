import ThothIpc.Route.Evict

/-!
# Marks over the whole life of a connection

`since` is recorded once, at the connect, and compared with later positions modulo `2 ^ 32` as a signed distance. A mark
is counted in the first half of each wrap and taken for a previous owner's leftover in the second.

* `nearHalf` : the sender meets a mark of the bit only at positions in the first half of a wrap from where the run
  started;
* `Follows.counted` : which unread marks `live_marks` counts, `lasting_follows` : what then holds in every run;
* `steady i` : receiver `i` stays, no timeout; any number of fragments may be published;
* `run_cycle` : a push and a read, any number of times; `mark_expired` : after `2 ^ 31` of them the next unread mark is
  not counted.
-/

namespace ThothIpc.Route
open Steps

variable {ι : Type} [DecidableEq ι]

/-- Receiver `i` stays connected and the sender's wait does not time out. -/
def steady (i : ι) (act : Act ι) : Prop := act ≠ .sender .timeout ∧ act ≠ .recv i .disconnect

instance (i : ι) (act : Act ι) : Decidable (steady i act) := inferInstanceAs (Decidable (_ ∧ _))

/-- If the sender works from a mark of the bit, the mark's position is in the first half of a wrap from where the run
started. -/
def nearHalf (b : Nat) (s : State ι) : Prop := s.sender.meets b = true → (s.pushed.length - 256) % 2 ^ 32 < 2 ^ 31

instance (b : Nat) (s : State ι) : Decidable (nearHalf b s) := inferInstanceAs (Decidable (_ → _))

/-- Receiver `i` stays connected, its marks are not claimed over across epochs, and none is met past the first half of a
wrap. -/
def lasting (i : ι) (b : Nat) (s : State ι) (act : Act ι) : Prop :=
  stays i b s act ∧ s.sender.holdsEpoch s.ring b = true ∧ nearHalf b s

instance (i : ι) (b : Nat) (s : State ι) (act : Act ι) : Decidable (lasting i b s act) :=
  inferInstanceAs (Decidable (_ ∧ _))

omit [DecidableEq ι] in
/-- Of a receiver's unread marks `live_marks` counts exactly those in the first half of a wrap from its `since`. -/
theorem Follows.counted {w₀ b a σ p : Nat} {s : State ι} {i : ι} (h : Follows w₀ s i b a σ)
    (h1 : (s.recvs i).next a + (s.recvs i).pc.past ≤ p) (h2 : p < pos w₀ s) :
    (liveMarks s.ring.owners ((slotAt s.ring p).rc.setWidth 32) (BitVec.ofNat 32 p)).getLsbD b = true ↔
      (p - σ) % 2 ^ 32 < 2 ^ 31 := by
  have hg := h.attached.guard
  have hm : (slotAt s.ring p).rc.getLsbD b = true := hg.marks p h1 h2
  have hσ := hg.since_le
  rw [getLsbD_liveMarks, hg.since, BitVec.getLsbD_setWidth, hm, ← isLive_iff (by omega : σ ≤ p)]
  simp [hg.bit]

/-- The receiver follows the sender as long as no mark of it is compared in the second half of a wrap. -/
theorem lasting_follows {w₀ b : Nat} {i : ι} {s₀ s : State ι} {acts : List (Act ι)} (h0 : Connected w₀ i b s₀)
    (hrun : Run State.step (lasting i b) s₀ acts s) : Follows w₀ s i b w₀ w₀ := by
  refine hrun.inv (Follows w₀ · i b w₀ w₀) h0.follows ?_
  intro t act u hf ⟨⟨hd, hstay⟩, hep, hn⟩ hst
  refine hf.step hd (fun _ => hf.spares hstay hep fun hmeet hP => ?_) hst
  have := hn hmeet
  simp only [pos, Receiver.next] at hP ⊢
  rwa [show w₀ + (t.recvs i).got.length + (t.recvs i).pc.past - w₀ = t.pushed.length - 256 by omega]

/-! ## Half a wrap of pushes and reads -/

/-- One receiver that has read every one of `n` fragments. -/
structure Cycled (n : Nat) (s : State Unit) : Prop where
  idle : s.sender = .idle
  connections : s.ring.connections = 1#32
  epoch : s.ring.epoch = 0
  wt : s.ring.writeCursor = BitVec.ofNat 32 n
  since : (s.ring.owners 0).since = 0
  clear : ∀ i, (s.ring.slots i).rc = 0
  pushed : s.pushed.length = n
  got : (s.recvs ()).got.length = n
  reader : s.recvs () = { reader 0 with readCursor := BitVec.ofNat 32 n, got := (s.recvs ()).got }

/-- The ring of a reader that keeps up takes the next push, and leaves the fragment marked for it. -/
theorem Cycled.push {n : Nat} {s : State Unit} (h : Cycled n s) :
    s.ring.free ∧ (s.ring.published blank).slot (BitVec.ofNat 32 n) = ⟨blank, 1#64⟩ := by
  constructor
  · rintro ⟨hb, -⟩
    apply hb
    simp only [Ring.slot, h.clear]
    simp
  · rw [slot_published, h.wt, if_pos rfl, h.epoch, h.connections]
    rfl

theorem run_cycle : ∀ n, ∃ acts s, Run State.step (fun _ act => steady () act)
    (fresh 1 fun _ : Unit => reader 0) acts s ∧ Cycled n s := by
  intro n
  induction n with
  | zero => exact ⟨[], _, .nil, rfl, rfl, rfl, rfl, rfl, fun _ => rfl, rfl, rfl, rfl⟩
  | succ n ih =>
    obtain ⟨acts, s, hrun, h⟩ := ih
    obtain ⟨hfree, hslot⟩ := h.push
    have hpush := run_push (C := fun _ act => steady () act) (f := blank) h.idle (by rw [h.connections]; decide) hfree
      (fun v act _ _ hact => by rcases hact with rfl | rfl <;> exact ⟨nofun, nofun⟩)
    have hread := run_recv (C := fun _ act => steady () act)
      (s := { s with ring := s.ring.published blank, pushed := s.pushed ++ [blank] }) h.reader rfl (by
        show s.ring.writeCursor + 1 ≠ BitVec.ofNat 32 n
        rw [h.wt, Bits.ofNat_add_one, ne_eq, eq_comm, Bits.ofNat_inj_near (by omega) (by omega)]
        omega) hslot (by decide)
      (fun v act _ _ hact => by rcases hact with rfl | rfl <;> exact ⟨nofun, nofun⟩)
    refine ⟨_, _, (hrun.trans hpush).trans hread, h.idle, h.connections, h.epoch, ?_, h.since, fun i => ?_, ?_, ?_, ?_⟩
    · show s.ring.writeCursor + 1 = _
      rw [h.wt, Bits.ofNat_add_one]
    · simp only [Ring.setRc, Function.update_apply]
      split
      · show 1#64 &&& ~~~((BitVec.twoPow 32 0).setWidth 64) = 0
        decide
      · rename_i hi
        simp only [Ring.published, Function.update_apply, h.wt]
        rw [if_neg hi]
        exact h.clear i
    · simp [h.pushed]
    · simp [h.got]
    · simp only [Function.update_self, Bits.ofNat_add_one]
      rfl

/-- **A mark expires.** A receiver that connected at position 0 has read `2 ^ 31` fragments. The next one is unread, its
slot carries the mark, and `live_marks` does not count it. -/
theorem mark_expired : ∃ acts s,
    Run State.step (fun _ act => steady () act) (fresh 1 fun _ : Unit => reader 0) acts s ∧
    s.pushed.length = 2 ^ 31 + 1 ∧ (s.recvs ()).got.length = 2 ^ 31 ∧
    (s.recvs ()).readCursor = BitVec.ofNat 32 (2 ^ 31) ∧
    s.ring.connections = 1#32 ∧ (s.ring.slot (s.recvs ()).readCursor).rc = 1#64 ∧
    liveMarks s.ring.owners 1#32 (s.recvs ()).readCursor = 0 := by
  obtain ⟨acts, s, hrun, h⟩ := run_cycle (2 ^ 31)
  obtain ⟨hfree, hslot⟩ := h.push
  have hpush := run_push (C := fun _ act => steady () act) (f := blank) h.idle (by rw [h.connections]; decide) hfree
    (fun v act _ _ hact => by rcases hact with rfl | rfl <;> exact ⟨nofun, nofun⟩)
  have hcur : (s.recvs ()).readCursor = BitVec.ofNat 32 (2 ^ 31) := by rw [h.reader]
  refine ⟨_, _, hrun.trans hpush, by simp [h.pushed], h.got, hcur, h.connections, ?_, ?_⟩
  · rw [hcur, hslot]
  · refine BitVec.eq_of_getLsbD_eq fun j _ => ?_
    rw [getLsbD_liveMarks]
    by_cases hj : j = 0
    · subst hj
      show ((1#32).getLsbD 0 && isLive (s.ring.owners 0).since (s.recvs ()).readCursor) = _
      rw [h.since, hcur]
      decide
    · simp [hj]

end ThothIpc.Route
