import ThothIpc.Channel.Model

/-!
# What a committing writer drops

The tail of `commit_multi` takes off the marks of receivers that started after the position it has committed. It
compares the position with the recorded `since`, which stays what it is as long as the bit stays claimed.

* `WPc.tail`, `WPc.Keeps` : a writer in that tail, and that it will not drop a bit whose `since` counts its position;
* `Recorded` : the bit's `since` is recorded and every tail keeps it, `Recorded.step` : so it stays while the bit is
  set;
* `Recorded.counted` : which positions count, `Recorded.mark` : the marks of the bit on a slot outlast the tail.
-/

namespace ThothIpc.Channel
open Steps

variable {ω ι : Type} {b : Nat} {since : BitVec 32}

/-- The position a writer has committed and whose marks it looks at. -/
def WPc.tail : WPc → Option (BitVec 32)
  | .loadMarks ct => some ct
  | .live ct _ _ _ => some ct
  | .drop ct _ => some ct
  | .rel ct _ _ _ => some ct
  | _ => none

/-- If its position counts as at or after `since`, the writer does not drop bit `b`. -/
def WPc.Keeps (since : BitVec 32) (b : Nat) : WPc → Prop
  | .live ct bits todo acc => isLive since ct = true → bits.getLsbD b = true →
    todo.getLsbD b = true ∨ acc.getLsbD b = true
  | .drop ct stale => isLive since ct = true → stale.getLsbD b = false
  | .rel ct stale bit _ => isLive since ct = true → stale.getLsbD b = false ∧ bit.getLsbD b = false
  | _ => True

/-- The owner of bit `b` has recorded `since`: nobody is about to record another, and every writer in the tail of a
commit keeps its mark where `since` says so. -/
structure Recorded (b : Nat) (since : BitVec 32) (s : State ω ι) : Prop where
  bit : b < 32
  table : (s.ring.owners b).since = since
  others : ∀ i σ, (s.recvs i).pc = .setSince σ → slotIndex (s.recvs i).connId ≠ b
  tails : ∀ w, (s.writers w).Keeps since b

/-! ## The writers -/

theorem MPc.step_owners {g : Ring} {x : BitVec 8} {pos bit : BitVec 32} (m : MPc) :
    (m.step g x pos bit).1.owners = g.owners := by
  cases m <;> simp only [MPc.step] <;> (try split) <;> rfl

theorem WPc.act_owners {g g' : Ring} {n : Nat} {pc pc' : WPc} {a : WAct} {out : List (BitVec 32 × MsgT)}
    (h : pc.act g n a = some (g', pc', out)) : g'.owners = g.owners := by
  unfold WPc.act at h
  split at h
  · split at h <;> cases h <;> rfl
  · unfold WPc.step at h
    split at h
    case h_18 => cases h; exact MPc.step_owners _
    all_goals
      (try simp only at h)
      (try split at h) <;> cases h <;> rfl
  · split at h <;> cases h <;> rfl
  · split at h <;> cases h
    rfl

theorem liveStep_keeps {owners : Nat → SlotOwner} {ct todo acc : BitVec 32} (hs : isLive (owners b).since ct = true)
    (h : todo.getLsbD b = true ∨ acc.getLsbD b = true) :
    (liveStep owners ct todo acc).1.getLsbD b = true ∨ (liveStep owners ct todo acc).2.getLsbD b = true := by
  by_cases h0 : todo = 0
  · right
    simp only [h0, BitVec.ofNat_eq_ofNat, BitVec.getLsbD_zero, Bool.false_eq_true, false_or] at h
    simp only [liveStep]
    split
    · rw [BitVec.getLsbD_or, h, Bool.true_or]
    · exact h
  · obtain ⟨l, -, -, -, h1, h2⟩ := liveStep_spec owners ct todo acc h0
    rw [h1, h2]
    by_cases hl : b = l
    · subst hl
      exact Or.inr (by simp [hs])
    · rcases h with h | h <;> simp [h, hl]

theorem WPc.Keeps.act {g g' : Ring} {n : Nat} {pc pc' : WPc} {a : WAct} {out : List (BitVec 32 × MsgT)}
    (h : pc.Keeps since b) (hs : (g.owners b).since = since) (hst : pc.act g n a = some (g', pc', out)) :
    pc'.Keeps since b := by
  have hrel : ∀ {ct stale bit : BitVec 32} {m : Option MPc},
      (isLive since ct = true → stale.getLsbD b = false ∧ bit.getLsbD b = false) →
      (WPc.relNext ct stale bit m).Keeps since b := by
    intro ct stale bit m hk
    cases m with
    | none => exact fun hl => (hk hl).1
    | some m => exact hk
  cases a with
  | call k f =>
    simp only [WPc.act] at hst
    split at hst <;> cases hst <;> trivial
  | giveUp =>
    simp only [WPc.act] at hst
    split at hst <;> cases hst
    trivial
  | fail =>
    simp only [WPc.act] at hst
    split at hst <;> cases hst
    case h_4 => exact h
    all_goals trivial
  | go =>
    cases pc
    case loadMarks ct =>
      cases hst
      split
      · trivial
      · exact fun _ hb => Or.inl hb
    case live ct bits todo acc =>
      simp only [WPc.act, WPc.step] at hst
      split at hst <;> cases hst
      · rename_i h0
        intro hl
        -- the loop has ended: every bit of the slot that counts has been kept
        rw [BitVec.getLsbD_and, BitVec.getLsbD_not]
        by_cases hb : bits.getLsbD b = true
        · have hacc := h hl hb
          simp only [h0, BitVec.ofNat_eq_ofNat, BitVec.getLsbD_zero, Bool.false_eq_true, false_or] at hacc
          simp [hacc]
        · simp [hb]
      · exact fun hl hb => liveStep_keeps (by rw [hs]; exact hl) (h hl hb)
    case drop ct stale =>
      cases hst
      split
      · trivial
      · rename_i hne
        intro hl
        obtain ⟨l, -, hml, -, hbit, hrest⟩ := Bits.exists_lowest stale hne
        have hno := h hl
        have hlb : b ≠ l := by
          rintro rfl
          rw [hno] at hml
          cases hml
        rw [hrest, hbit, BitVec.getLsbD_twoPow, hno]
        simp [hlb.symm]
    case rel ct stale bit m =>
      cases hst
      exact hrel h
    all_goals
      simp only [WPc.act, WPc.step] at hst
      (try split at hst) <;> cases hst <;> first | trivial | skip
    case loadCc.isTrue.refl k f ep _ => cases k <;> trivial
    case loadRc.refl k f ep cc ct seen =>
      simp only [WPc.tested]
      split <;> split <;> first | trivial | (split <;> trivial)
    case busy.isFalse.refl k f ep _ => cases k <;> trivial
    case validate.isFalse.refl k f ep ct _ => split <;> trivial

/-! ## The receivers -/

theorem slotIndex_claim {c : BitVec 32} (hb : b < 32) (hc : c.getLsbD b = true) :
    slotIndex ((c ||| (c + 1)) ^^^ c) ≠ b := by
  by_cases hfull : c ||| (c + 1) = c
  · rw [hfull, BitVec.xor_self]
    exact fun h => absurd (h ▸ hb) (by decide)
  · obtain ⟨l, hl, hcl, -, hx, -⟩ := Bits.exists_lowest_clear c hfull
    rw [hx, slotIndex_twoPow hl]
    rintro rfl
    rw [hc] at hcl
    cases hcl

/-- A receiver's step leaves the recorded `since` of the bit, and comes to record another only with another bit. -/
theorem Receiver.act_since {g g' : Ring} {r r' : Receiver} {a : RAct} (hb : b < 32) (hc : g.connections.getLsbD b = true)
    (hr : ∀ σ, r.pc = .setSince σ → slotIndex r.connId ≠ b) (h : r.act g a = some (g', r')) :
    (g'.owners b).since = (g.owners b).since ∧ ∀ σ, r'.pc = .setSince σ → slotIndex r'.connId ≠ b := by
  have hset : ∀ (bit : BitVec 32) (f : SlotOwner → SlotOwner), (∀ o, (f o).since = o.since) →
      ((g.setOwner bit f).owners b).since = (g.owners b).since := by
    intro bit f hf
    simp only [Ring.setOwner, Function.update_apply]
    split
    · rename_i he
      rw [hf, he]
    · rfl
  cases a with
  | opens p t =>
    obtain ⟨r₁, h, he⟩ := Option.map_eq_some_iff.mp h
    cases he
    unfold Receiver.open at h
    split at h <;> cases h
    exact ⟨rfl, nofun⟩
  | recv =>
    obtain ⟨r₁, h, he⟩ := Option.map_eq_some_iff.mp h
    cases he
    unfold Receiver.recv at h
    split at h <;> cases h
    refine ⟨rfl, fun σ hσ => ?_⟩
    split at hσ
    · cases hσ
    · exact absurd hσ (by simp [*])
  | fail =>
    obtain ⟨r₁, h, he⟩ := Option.map_eq_some_iff.mp h
    cases he
    unfold Receiver.fail at h
    split at h <;> cases h <;> exact ⟨rfl, nofun⟩
  | disconnect =>
    simp only [Receiver.act, Receiver.disconnect] at h
    split at h
    · split at h <;> cases h
      · exact ⟨rfl, hr⟩
      · exact ⟨rfl, nofun⟩
    · cases h
  | go =>
    simp only [Receiver.act, Receiver.step] at h
    split at h
    case h_4 σ curr hpc =>
      split at h <;> cases h
      · rename_i he
        exact ⟨rfl, fun _ _ => by simp only; rw [← he]; exact slotIndex_claim hb hc⟩
      · exact ⟨rfl, nofun⟩
    case h_5 σ hpc =>
      cases h
      refine ⟨?_, fun _ hσ => ?_⟩
      · simp only [Ring.setOwner]
        rw [Function.update_of_ne (hr σ hpc).symm]
      · simp only [RPc.staleFrom] at hσ
        split at hσ <;> cases hσ
    case h_7 σ idx pos m hpc =>
      cases h
      refine ⟨by simp only [MPc.step_owners], fun _ hσ => ?_⟩
      cases hs : (m.step g (BitVec.ofNat 8 idx) pos r.connId).2 <;>
        simp only [hs, RPc.relNext, RPc.staleFrom] at hσ <;> (try split at hσ) <;> cases hσ
    all_goals (try split at h) <;> cases h
    all_goals
      refine ⟨by first | rfl | exact hset _ _ fun _ => rfl, fun _ hσ => ?_⟩
      simp only [RPc.staleFrom] at hσ
      repeat' split at hσ
    all_goals cases hσ

/-! ## The system -/

variable [DecidableEq ω] [DecidableEq ι]

theorem Recorded.step {s t : State ω ι} {act : Act ω ι} (h : Recorded b since s)
    (hc : s.ring.connections.getLsbD b = true) (hst : s.step act = some t) : Recorded b since t := by
  obtain ⟨w, a, g, pc, out, -, hp, rfl⟩ | ⟨i, a, g, r, -, hr, rfl⟩ := State.step_cases hst
  · refine ⟨h.bit, ?_, h.others, fun w' => ?_⟩
    · rw [WPc.act_owners hp]
      exact h.table
    · by_cases hw : w' = w
      · subst hw
        simpa using (h.tails w').act h.table hp
      · simpa [hw] using h.tails w'
  · obtain ⟨h1, h2⟩ := Receiver.act_since h.bit hc (h.others i) hr
    refine ⟨h.bit, h1.trans h.table, fun j => ?_, h.tails⟩
    by_cases hj : j = i
    · subst hj
      simpa using h2
    · simpa [hj] using h.others j

omit [DecidableEq ω] [DecidableEq ι] in
/-- Of the bit's marks `live_marks` counts exactly those in the first half of a wrap from its `since`. -/
theorem Recorded.counted {s : State ω ι} {σ p : Nat} {bits : BitVec 32} (h : Recorded b (BitVec.ofNat 32 σ) s)
    (hp : σ ≤ p)
    (hm : bits.getLsbD b = true) :
    (liveMarks s.ring.owners bits (BitVec.ofNat 32 p)).getLsbD b = true ↔ (p - σ) % 2 ^ 32 < 2 ^ 31 := by
  rw [getLsbD_liveMarks, h.table, hm, Bool.true_and, isLive_iff hp]

/-- A writer in the tail of its commit leaves the bit's mark on every slot, if its position counts. -/
theorem Recorded.mark {s t : State ω ι} {w : ω} {a : WAct} {ct : BitVec 32} (h : Recorded b since s)
    (hw : (s.writers w).tail = some ct) (hl : isLive since ct = true) (hst : s.step (.writer w a) = some t)
    (x : BitVec 8) :
    (marks (t.ring.slots x).rc).getLsbD b = (marks (s.ring.slots x).rc).getLsbD b := by
  have hk := h.tails w
  obtain ⟨⟨g, pc, out⟩, hp, rfl⟩ := Option.map_eq_some_iff.mp hst
  cases a with
  | call k f =>
    simp only [WPc.act] at hp
    split at hp <;> cases hp <;> rfl
  | giveUp =>
    simp only [WPc.act] at hp
    split at hp <;> cases hp
    rfl
  | fail =>
    simp only [WPc.act] at hp
    split at hp <;> cases hp <;> rfl
  | go =>
    cases hpc : s.writers w <;> rw [hpc] at hw hp hk <;> cases hw
    case rel.refl stale bit m =>
      cases hp
      simp only
      cases m with
      | load => rfl
      | fl rc ver => rfl
      | cas rc ver =>
        simp only [MPc.step]
        split
        · rename_i hrc
          simp only [Ring.setRc, Function.update_apply]
          split
          · rename_i hx
            rw [hx, hrc, marks_unmark, BitVec.getLsbD_and, BitVec.getLsbD_not, (hk hl).2]
            simp [h.bit]
          · rfl
        · rfl
      | free =>
        simp only [MPc.step]
        split
        · simp only [Ring.setFl, Function.update_apply]
          split
          · rename_i hx
            rw [hx]
          · rfl
        · rfl
    case live.refl bits todo acc =>
      simp only [WPc.act, WPc.step] at hp
      split at hp <;> cases hp <;> rfl
    all_goals
      cases hp
      rfl

end ThothIpc.Channel
