import Mathlib

/-!
# Processes, pids and start tokens

The owner records name a process by its pid and its start token, since the system hands a pid out again once its process
is gone. `World` is what never changes (who has which pid and token), `Os` the process table.

* `isProcessAlive` : the test of `liveness.rs`, over what the system answers about a pid;
* `Os.spawn`, `Os.kill` : processes start and die; a pid is free again after its process has died.
-/

namespace ThothIpc
open Function

/-- Every process there will ever be. A pid may be used again; together with the start token it names one process. -/
structure World (π : Type) where
  pid : π → Int
  tok : π → Nat
  pid_pos : ∀ q, 0 < pid q
  tok_ne : ∀ q, tok q ≠ 0
  pair : ∀ p q, pid p = pid q → tok p = tok q → p = q

/-- The process table: who runs under a pid, and who has been started so far. -/
structure Os {π : Type} (W : World π) where
  run : Int → Option π
  born : π → Bool
  run_pid : ∀ n q, run n = some q → W.pid q = n
  run_born : ∀ n q, run n = some q → born q = true

/-- `is_process_alive`, where `token n` is the start token of the process under `n`: nothing without such a process or
for a zombie, 0 if it cannot be read. -/
def isProcessAlive (token : Int → Option Nat) (pid : Int) (tok : Nat) : Bool :=
  if pid ≤ 0 then false
  else match token pid with
    | none => false
    | some cur => tok == 0 || cur == 0 || cur == tok

namespace Os

variable {π : Type} {W : World π}

/-- The start token of the process that runs under a pid. -/
def token (o : Os W) (n : Int) : Option Nat := (o.run n).map W.tok

variable [DecidableEq π]

def alive (o : Os W) (q : π) : Bool := o.run (W.pid q) = some q

theorem alive_iff {o : Os W} {q : π} : o.alive q = true ↔ o.run (W.pid q) = some q := by
  simp [alive]

theorem alive_inj {o : Os W} {p q : π} (hp : o.alive p = true) (hq : o.alive q = true) (h : W.pid p = W.pid q) :
    p = q := by
  rw [alive_iff] at hp hq
  rw [h, hq] at hp
  exact (Option.some.inj hp).symm

/-- Start a process that has never run, under a pid nobody has. -/
def spawn (o : Os W) (q : π) : Option (Os W) :=
  if h : o.born q = false ∧ o.run (W.pid q) = none then
    some {
      run := update o.run (W.pid q) (some q)
      born := update o.born q true
      run_pid := by
        intro n p hp
        by_cases hn : n = W.pid q
        · rw [hn, update_self] at hp
          rw [hn, Option.some.inj hp]
        · rw [update_of_ne hn] at hp
          exact o.run_pid n p hp
      run_born := by
        intro n p hp
        by_cases hpq : p = q
        · rw [hpq, update_self]
        · rw [update_of_ne hpq]
          by_cases hn : n = W.pid q
          · rw [hn, update_self] at hp
            exact absurd (Option.some.inj hp).symm hpq
          · rw [update_of_ne hn] at hp
            exact o.run_born n p hp }
  else none

def kill (o : Os W) (q : π) : Option (Os W) :=
  if o.run (W.pid q) = some q then
    some {
      run := update o.run (W.pid q) none
      born := o.born
      run_pid := by
        intro n p hp
        by_cases hn : n = W.pid q
        · rw [hn, update_self] at hp
          cases hp
        · rw [update_of_ne hn] at hp
          exact o.run_pid n p hp
      run_born := by
        intro n p hp
        by_cases hn : n = W.pid q
        · rw [hn, update_self] at hp
          cases hp
        · rw [update_of_ne hn] at hp
          exact o.run_born n p hp }
  else none

theorem spawn_run {o o' : Os W} {q : π} (h : o.spawn q = some o') : o.run (W.pid q) = none ∧ o.born q = false ∧
    o'.run = update o.run (W.pid q) (some q) := by
  unfold spawn at h
  split at h
  · rename_i hq
    cases h
    exact ⟨hq.2, hq.1, rfl⟩
  · cases h

theorem kill_run {o o' : Os W} {q : π} (h : o.kill q = some o') : o.alive q = true ∧
    o'.run = update o.run (W.pid q) none := by
  unfold kill at h
  split at h
  · rename_i hq
    cases h
    exact ⟨alive_iff.mpr hq, rfl⟩
  · cases h

/-- Nobody comes back to life: who is alive afterwards was alive, or is the one just started. -/
theorem alive_of_spawn {o o' : Os W} {p q : π} (h : o.spawn q = some o') (hp : o'.alive p = true) :
    o.alive p = true ∨ p = q := by
  obtain ⟨-, -, hr⟩ := spawn_run h
  rw [alive_iff, hr] at hp
  by_cases hn : W.pid p = W.pid q
  · rw [hn, update_self] at hp
    exact Or.inr (Option.some.inj hp).symm
  · rw [update_of_ne hn] at hp
    exact Or.inl (alive_iff.mpr hp)

theorem alive_of_kill {o o' : Os W} {p q : π} (h : o.kill q = some o') (hp : o'.alive p = true) : o.alive p = true := by
  obtain ⟨-, hr⟩ := kill_run h
  rw [alive_iff, hr] at hp
  by_cases hn : W.pid p = W.pid q
  · rw [hn, update_self] at hp
    cases hp
  · rw [update_of_ne hn] at hp
    exact alive_iff.mpr hp

theorem unborn_of_spawn {o o' : Os W} {p q : π} (h : o.spawn q = some o') (hne : p ≠ q) (hp : o'.born p = false) :
    o.born p = false := by
  unfold spawn at h
  split at h
  · cases h
    simpa [update_of_ne hne] using hp
  · cases h

theorem born_of_kill {o o' : Os W} {q : π} (h : o.kill q = some o') : o'.born = o.born := by
  unfold kill at h
  split at h <;> cases h
  rfl

/-! ## What the liveness test answers -/

/-- The recorded process runs, under its own token or with the token taken back: the test answers so. -/
theorem alive_test {o : Os W} {q : π} {tok : Nat} (hq : o.alive q = true) (ht : tok = W.tok q ∨ tok = 0) :
    isProcessAlive o.token (W.pid q) tok = true := by
  rw [alive_iff] at hq
  have hpos := W.pid_pos q
  rw [isProcessAlive, if_neg (by omega), token, hq]
  rcases ht with rfl | rfl <;> simp

/-- A pair that was found dead stays dead until its pid is used again. -/
theorem dead_of_spawn {o o' : Os W} {q : π} {n : Int} {tok : Nat} (h : o.spawn q = some o') (hn : n ≠ W.pid q)
    (hd : isProcessAlive o.token n tok = false) : isProcessAlive o'.token n tok = false := by
  obtain ⟨-, -, hr⟩ := spawn_run h
  rw [isProcessAlive, token, hr, update_of_ne hn]
  exact hd

theorem dead_of_kill {o o' : Os W} {q : π} {n : Int} {tok : Nat} (h : o.kill q = some o')
    (hd : isProcessAlive o.token n tok = false) : isProcessAlive o'.token n tok = false := by
  obtain ⟨-, hr⟩ := kill_run h
  by_cases hn : n = W.pid q
  · rw [isProcessAlive, token, hr, hn, update_self]
    split <;> rfl
  · rw [isProcessAlive, token, hr, update_of_ne hn]
    exact hd

end Os

end ThothIpc
