import ThothIpc.Route.Wrap
import ThothIpc.Route.Fifo
import ThothIpc.Channel.Exclusive
import ThothIpc.Channel.Since

/-!
# Marks on routes and channels

`live_marks` takes the distance of a position from the recorded `since` modulo `2 ^ 32` as a signed number, and `since`
is recorded once, at the connect. So a mark counts in the first half of each wrap, however long its receiver stays.

* `marks_last` : on a route and on a channel.
-/

namespace ThothIpc
open Steps

/-- **A mark counts exactly in the first half of each wrap from `since`.** A sender that meets the marks only there
overwrites nothing unread; a writer that commits there takes the receiver's mark off no slot. -/
theorem marks_last (ω ι : Type) [DecidableEq ω] [DecidableEq ι] (b : Nat) :
    (∀ (w₀ : Nat) (i : ι) (s₀ s : Route.State ι) (acts : List (Route.Act ι)),
      Route.Connected w₀ i b s₀ → Run Route.State.step (Route.lasting i b) s₀ acts s →
        Route.Lossless w₀ w₀ s i ∧
        ∀ p, w₀ + (s.recvs i).got.length + (s.recvs i).pc.past ≤ p → p < w₀ + s.pushed.length →
          ((liveMarks s.ring.owners ((Route.slotAt s.ring p).rc.setWidth 32) (BitVec.ofNat 32 p)).getLsbD b = true ↔
            (p - w₀) % 2 ^ 32 < 2 ^ 31)) ∧
    ∀ (σ : Nat) (s₀ s : Channel.State ω ι) (acts : List (Channel.Act ω ι)),
      Channel.Recorded b (BitVec.ofNat 32 σ) s₀ →
      Run Channel.State.step (fun s _ => s.ring.connections.getLsbD b = true) s₀ acts s →
        ∀ p, σ ≤ p →
          (∀ bits : BitVec 32, bits.getLsbD b = true →
            ((liveMarks s.ring.owners bits (BitVec.ofNat 32 p)).getLsbD b = true ↔ (p - σ) % 2 ^ 32 < 2 ^ 31)) ∧
          ((p - σ) % 2 ^ 32 < 2 ^ 31 → ∀ w a t x, (s.writers w).tail = some (BitVec.ofNat 32 p) →
            s.step (.writer w a) = some t →
              (Channel.marks (t.ring.slots x).rc).getLsbD b = (Channel.marks (s.ring.slots x).rc).getLsbD b) := by
  constructor
  · intro w₀ i s₀ s acts h₀ hrun
    have hf := Route.lasting_follows h₀ hrun
    exact ⟨hf.lossless, fun p h1 h2 => hf.counted h1 h2⟩
  · intro σ s₀ s acts h₀ hrun p hp
    have hr : Channel.Recorded b (BitVec.ofNat 32 σ) s := hrun.inv (Channel.Recorded b (BitVec.ofNat 32 σ)) h₀
      fun _ _ _ h hc hst => h.step hc hst
    refine ⟨fun bits hb => hr.counted hp hb, fun hnear w a t x hw hst => ?_⟩
    exact hr.mark hw ((isLive_iff hp).mpr hnear) hst x

theorem recorded_duo : Channel.Recorded 0 (BitVec.ofNat 32 0) Channel.duo := by
  refine ⟨by decide, rfl, fun i σ hi => ?_, fun _ => trivial⟩
  fin_cases i <;> cases hi

/-- A route's receiver with one fragment to read, and a channel's writer that has committed its first fragment. -/
theorem marks_last_unread :
    (∃ s, Run Route.State.step (Route.lasting () 0) (Route.fresh 1 fun _ : Unit => Route.reader 0)
    (Route.pushActs blank) s ∧ s.pushed.length = 1 ∧
      (liveMarks s.ring.owners ((Route.slotAt s.ring 0).rc.setWidth 32) (BitVec.ofNat 32 0)).getLsbD 0 = true) ∧
    ∃ s t, Run Channel.State.step (fun s _ => s.ring.connections.getLsbD 0 = true) Channel.duo
        (Channel.pushing 0 .rust 15) s ∧
      (s.writers 0).tail = some (BitVec.ofNat 32 0) ∧ s.step (.writer 0 .go) = some t ∧
      (Channel.marks (t.ring.slots 0).rc).getLsbD 0 = (Channel.marks (s.ring.slots 0).rc).getLsbD 0 := by
  constructor
  · refine exists_run_imp (fun s => s.pushed.length = 1 ∧ (s.recvs ()).got.length = 0 ∧ (s.recvs ()).pc = .ready)
      (by decide +kernel) fun s hrun hs => ?_
    obtain ⟨hp, hg, hpc⟩ := hs
    have h := ((marks_last Unit Unit 0).1 0 () _ s _ Route.connected_fresh hrun).2 0
      (by rw [hg, hpc]; exact Nat.le_refl 0) (by omega)
    exact ⟨hp, h.mpr (by decide)⟩
  · obtain ⟨s, hrun, hs⟩ := exists_run Channel.State.step (fun s _ => s.ring.connections.getLsbD 0 = true) Channel.duo
      (Channel.pushing 0 .rust 15) (fun s => ((s.writers 0).tail, (s.step (.writer 0 .go)).isSome))
      (x := (some 0#32, true)) (by decide +kernel)
    simp only [Prod.mk.injEq, Option.isSome_iff_exists] at hs
    obtain ⟨hw, t, ht⟩ := hs
    exact ⟨s, t, hrun, hw, ht, (((marks_last _ _ 0).2 0 _ s _ recorded_duo hrun) 0 (Nat.le_refl 0)).2
      (by decide) 0 .go t 0 hw ht⟩

end ThothIpc
