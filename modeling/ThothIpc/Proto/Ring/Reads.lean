import ThothIpc.Proto.Ring.Model

/-!
# Reads while the producer overwrites

Both sides change the read index: the consumer adds one, the producer of `write_overwrite` stores the successor of a
value that it has loaded before.

* `reads_increase` : while the two stay `apart`, reads are of increasing positions and return what was written there;
* `overwrite_crosses` : what happens when they do not.
-/

namespace ThothIpc.ShmRing
open Steps

variable {m : Nat} {β : Type} {k : Nat} {s s' : State m β}

theorem readIdx_le_step {a : Act m β} (ha : apart k s a) (hs : s.step k a = some s') : s.readIdx ≤ s'.readIdx := by
  cases State.does_step hs with
  | drop hp => exact ha _ (by rw [hp]; rfl)
  | consume _ _ => exact Nat.le_succ _
  | _ => exact Nat.le_refl _

/-- **Reads stay in order.** The positions read increase, each item read is the one written there, and the read index is
at most the write index. -/
theorem reads_increase (hk : k < 64) {slots : Nat → Item m β} {acts : List (Act m β)}
    (hrun : Run (State.step k) (apart k) (State.fresh slots) acts s) :
    (s.got.map Prod.fst).Pairwise (· < ·) ∧ (∀ x ∈ s.got, s.wrote[x.1]? = some x.2) ∧ s.readIdx ≤ s.writeIdx ∧
      ∀ a s', apart k s a → s.step k a = some s' → s.readIdx ≤ s'.readIdx := by
  have h : Inv k s := hrun.inv (Inv k) (inv_fresh slots) fun t a u ht ha hst => ht.step hk ha hst
  exact ⟨h.sorted, h.item, h.le, fun a s' ha hs => readIdx_le_step ha hs⟩

/-! ## Crossings -/

def writeAll (n : Nat) : List (Act 1 Nat) := [.write fun _ => n, .producer, .producer, .fill 0, .producer]

def overwriteAll (n : Nat) : List (Act 1 Nat) :=
  [.overwrite fun _ => n, .producer, .producer, .producer, .fill 0, .producer]

def readAll : List (Act 1 Nat) := [.read fun _ => 0, .consumer, .consumer, .drain 0, .consumer]

/-- A producer overwrites a full ring, and the consumer then reads the two items that are left. -/
theorem reads_increase_overwritten : ∃ acts, ∃ s : State 1 Nat,
    Run (State.step 1) (apart 1) (State.fresh fun _ _ => 0) acts s ∧ s.got.map Prod.fst = [1, 2] ∧
      (s.got.map Prod.fst).Pairwise (· < ·) := by
  refine ⟨List.flatten [writeAll 1, writeAll 2, overwriteAll 3, readAll, readAll], ?_⟩
  exact exists_run_imp (fun s => s.got.map Prod.fst = [1, 2]) (by decide +kernel)
    fun s hrun hx => ⟨hx, (reads_increase (by norm_num) hrun).1⟩

/-- **Crossings.** A producer that has found the ring full stores 1 as the read index after both items are read; a
consumer copies an item that overwrites the one it reads; and one passes the write index. -/
theorem overwrite_crosses :
    (∃ acts, ∃ s s' : State 1 Nat, ∃ a, Run (State.step 1) (fun _ _ => True) (State.fresh fun _ _ => 0) acts s ∧
      s.step 1 a = some s' ∧ s'.readIdx < s.readIdx) ∧
    (∃ acts, ∃ s : State 1 Nat, Run (State.step 1) (fun _ _ => True) (State.fresh fun _ _ => 0) acts s ∧
      ¬(s.got.map Prod.fst).Pairwise (· < ·)) ∧
    (∃ acts, ∃ s : State 1 Nat, Run (State.step 1) (fun _ _ => True) (State.fresh fun _ _ => 0) acts s ∧
      ∃ x ∈ s.got, s.wrote[x.1]? ≠ some x.2) ∧
    ∃ acts, ∃ s : State 1 Nat, Run (State.step 0) (fun _ _ => True) (State.fresh fun _ _ => 0) acts s ∧
      s.writeIdx < s.readIdx := by
  refine ⟨?_, ?_, ?_, ?_⟩
  · obtain ⟨s, hrun, hx⟩ := exists_run (State.step 1) (fun _ _ => True) (State.fresh fun _ _ => (0 : Nat))
      (List.flatten [writeAll 1, writeAll 2, [.overwrite fun _ => 3, .producer, .producer], readAll, readAll])
      (fun s => (s.readIdx, (s.step 1 .producer).map State.readIdx)) (x := (2, some 1)) (by decide +kernel)
    simp only [Prod.mk.injEq, Option.map_eq_some_iff] at hx
    obtain ⟨hr, s', hs', hr'⟩ := hx
    exact ⟨_, s, s', _, hrun, hs', by omega⟩
  · exact ⟨List.flatten [writeAll 1, writeAll 2, [.overwrite fun _ => 3, .producer, .producer], readAll, readAll,
      [.producer, .fill 0, .producer], readAll], exists_run_of (by decide +kernel)⟩
  · exact ⟨List.flatten [writeAll 1, writeAll 2, [.read fun _ => 0, .consumer, .consumer], overwriteAll 3,
      [.drain 0, .consumer]], exists_run_of (by decide +kernel)⟩
  · exact ⟨List.flatten [writeAll 1, [.read fun _ => 0, .consumer, .consumer, .drain 0],
      [.overwrite fun _ => 2, .producer, .producer, .producer, .consumer]], exists_run_of (by decide +kernel)⟩

end ThothIpc.ShmRing
