import ThothIpc.Ulock.Exclusive

/-!
# No sleeper is stranded

While nobody dies, a thread that sleeps in the kernel is somebody's business: the state word says that there are
waiters, or an unlock that has read so is about to wake one, or a thread that has been woken is still trying.

* `Thread.Hot` : the woken thread has not yet looked at the state word again;
* `Moves.hot`, `Moves.keeps_waiters` : it leaves 2 behind when it takes the lock or goes back to sleep, and only an
  unlock takes the 2 away;
* `Served` : the invariant, and `no_stranded_sleeper` the result.
-/

namespace ThothIpc.Ulock
open Function Steps

variable {ι π : Type}

namespace Pc

def isAsleep : Pc π → Bool
  | .asleep _ _ => true
  | _ => false

/-- In the loop of `lock` or `lock_timeout`, with the recovery inside it. -/
def inLoop : Pc π → Bool
  | .spin _ => true
  | .load => true
  | .upgrade => true
  | .clock => true
  | .wait _ => true
  | .asleep _ _ => true
  | .recHolder => true
  | .recAlive _ => true
  | .recSwap => true
  | .recStore _ => true
  | .recWake => true
  | _ => false

/-- Before the look at the state word that comes before a sleep. -/
def looking : Pc π → Bool
  | .spin _ => true
  | .load => true
  | .upgrade => true
  | _ => false

/-- Past the liveness test of a recovery. -/
def resetting : Pc π → Bool
  | .recSwap => true
  | .recStore _ => true
  | .recWake => true
  | _ => false

theorem inLoop_of_looking {pc : Pc π} (h : pc.looking = true) : pc.inLoop = true := by
  cases pc <;> first | rfl | cases h

theorem inLoop_of_isAsleep {pc : Pc π} (h : pc.isAsleep = true) : pc.inLoop = true := by
  cases pc <;> first | rfl | cases h

end Pc

/-- Thread `i` has been woken and has not looked at the state word since. -/
def Thread.Hot (q : List ι) (i : ι) (t : Thread π) : Prop :=
  (t.woken = true ∧ t.pc.looking = true) ∨ (t.pc.isAsleep = true ∧ i ∉ q)

section Flags
variable (t : Thread π)

@[simp] theorem toSleep_flags : t.toSleep.woken = t.woken ∧ t.toSleep.contended = t.contended := by
  unfold Thread.toSleep
  split <;> exact ⟨rfl, rfl⟩

@[simp] theorem giveUp_flags : t.giveUp.woken = t.woken ∧ t.giveUp.contended = t.contended := by
  unfold Thread.giveUp
  split <;> exact ⟨rfl, rfl⟩

@[simp] theorem recovered_flags : t.recovered.woken = t.woken ∧ t.recovered.contended = t.contended := by
  unfold Thread.recovered
  split <;> exact ⟨rfl, rfl⟩

end Flags

section Moves
variable [DecidableEq ι] {alive : π → Bool} {now : Nat} {i : ι} {p : π} {m m' : Mem ι π} {t t' : Thread π} {a : TAct ι}

theorem mem_drop {j k : ι} : j ∈ (m.drop k).queue ↔ j ∈ m.queue ∧ j ≠ k := by
  simp [Mem.drop]

/-- Only a thread that finds 2 goes to sleep, and a sleeper that moves has left the queue. -/
theorem Moves.queue (h : Moves alive now i p m t a m' t') (hq : i ∈ m.queue → t.pc.isAsleep = true) (j : ι)
    (hj : j ∈ m'.queue) :
    (j ∈ m.queue ∧ j ≠ i) ∨ (j = i ∧ t'.pc.isAsleep = true ∧ m'.word = .waiters) := by
  have hout : t.pc.isAsleep = false → j ∈ m.queue → j ∈ m.queue ∧ j ≠ i := by
    intro hpc hj
    refine ⟨hj, ?_⟩
    rintro rfl
    rw [hq hj] at hpc
    cases hpc
  cases h with
  | sleep us h hw =>
    rcases List.mem_cons.mp hj with rfl | hj
    · exact Or.inr ⟨rfl, rfl, hw⟩
    · exact Or.inl (hout (by rw [h]; rfl) hj)
  | woke us since h hni =>
    refine Or.inl ⟨hj, ?_⟩
    rintro rfl
    exact hni hj
  | wakeOne k h hk => exact Or.inl (hout (by rw [h]; rfl) (mem_drop.mp hj).1)
  | timeout us since h hi hus hnow => exact Or.inl (mem_drop.mp hj)
  | intr us since h hi => exact Or.inl (mem_drop.mp hj)
  | wakeAll h => cases hj
  | _ => exact Or.inl (hout (by simp only [*, Pc.isAsleep]) hj)

theorem Moves.keeps_waiters (h : Moves alive now i p m t a m' t') (hpc : t.pc.resetting = false)
    (hw : m.word = .waiters) : m'.word = .waiters ∨ t'.pc = .unlockWake := by
  cases h with
  | take k h hu => rw [hw] at hu; cases hu
  | tryTake again h hu => rw [hw] at hu; cases hu
  | release h => exact Or.inr (if_pos hw)
  | swap h => rw [h] at hpc; cases hpc
  | _ => first | exact Or.inl hw | exact Or.inl rfl

theorem Moves.wakes (h : Moves alive now i p m t a m' t') (hpc : t.pc = .unlockWake) :
    m.queue = [] ∨ ∃ j ∈ m.queue, m' = m.drop j := by
  cases h with
  | wakeNobody h hq => exact Or.inl hq
  | wakeOne j h hq => exact Or.inr ⟨j, hq, rfl⟩
  | _ => simp_all

theorem Moves.hot (h : Moves alive now i p m t a m' t') (hc : t.woken = true → t.contended = true)
    (hot : t.Hot m.queue i) :
    m'.word = .waiters ∨ t'.Hot m'.queue i := by
  rcases hot with ⟨hwk, hpc⟩ | ⟨hpc, hni⟩
  · cases h with
    | take k h hw =>
      left
      simp only [Thread.taking, hc hwk, if_true]
    | miss k h hw =>
      right
      refine Or.inl ⟨hwk, ?_⟩
      dsimp only
      split <;> rfl
    | free h hw => exact Or.inr (Or.inl ⟨hwk, rfl⟩)
    | announce h hw => exact Or.inr (Or.inl ⟨hwk, rfl⟩)
    | announced h hw => exact Or.inl hw
    | raise h hw => exact Or.inl rfl
    | changed h hw => exact Or.inr (Or.inl ⟨hwk, rfl⟩)
    | _ => simp only [*, Pc.looking] at hpc; cases hpc
  · cases h with
    | woke us since h hq => exact Or.inr (Or.inl ⟨rfl, rfl⟩)
    | timeout us since h hq hus hnow => exact absurd hq hni
    | intr us since h hq => exact absurd hq hni
    | _ => simp only [*, Pc.isAsleep] at hpc; cases hpc

theorem Moves.contended (h : Moves alive now i p m t a m' t') (hc : t.pc ≠ .idle → t.woken = true → t.contended = true)
    (hwk : t'.woken = true) : t'.contended = true := by
  by_cases hidle : t.pc = .idle
  · -- only a call leaves this place
    cases h with
    | call r h => cases r <;> cases hwk
    | _ => simp_all
  have hc := hc hidle
  cases h with
  | call r h => exact absurd h hidle
  | announced h hw => simp_all
  | raise h hw => simp_all
  | late l d h hd hnow => simp_all
  | clear old h =>
    split at hwk <;> rename_i hold
    · rw [if_pos hold]
      exact hc hwk
    · rw [if_neg hold]
      simp_all
  | wakeAll h => simp_all
  | sleep us h hw => cases hwk
  | pass us h hw => rfl
  | woke us since h hq => rfl
  | timeout us since h hq hus hnow => simp
  | intr us since h hq => rfl
  | _ => exact hc hwk

/-- A recovery gets past its liveness test only if the holder is dead. -/
theorem Moves.resetting (h : Moves alive now i p m t a m' t') (hal : ∀ q, alive q = true)
    (hpc : t.pc.resetting = false) :
    t'.pc.resetting = false := by
  cases h with
  | call r h => cases r <;> rfl
  | miss k h hw => dsimp only; split <;> rfl
  | announced h hw => rcases toSleep_pc t with h' | h' <;> rw [h'] <;> rfl
  | raise h hw => rcases toSleep_pc t with h' | h' <;> rw [h'] <;> rfl
  | late l d h hd hnow => rcases giveUp_pc t with h' | h' <;> rw [h'] <;> rfl
  | timeout us since h hq hus hnow => rcases giveUp_pc { t with contended := true } with h' | h' <;> rw [h'] <;> rfl
  | tryMiss again h hw => dsimp only; split <;> rfl
  | test q h => simp only [hal q, if_true]; rfl
  | swap h => rw [h] at hpc; cases hpc
  | clear old h => rw [h] at hpc; cases hpc
  | wakeAll h => rw [h] at hpc; cases hpc
  | release h => dsimp only; split <;> rfl
  | _ => rfl

end Moves

/-! ## The invariant -/

variable {proc : ι → π} {s s₀ t : State ι π}

def State.Asleep (s : State ι π) (i : ι) : Prop := (s.threads i).pc.isAsleep = true ∧ i ∈ s.mem.queue

/-- Thread `i` has been woken from its wait and is still in its acquisition loop. -/
def State.Woken (s : State ι π) (i : ι) : Prop :=
  (s.threads i).pc.inLoop = true ∧ ((s.threads i).woken = true ∨ ((s.threads i).pc.isAsleep = true ∧ i ∉ s.mem.queue))

theorem State.woken_of_hot {i : ι} (h : (s.threads i).Hot s.mem.queue i) : s.Woken i := by
  rcases h with ⟨hwk, hpc⟩ | ⟨hpc, hni⟩
  · exact ⟨Pc.inLoop_of_looking hpc, Or.inl hwk⟩
  · exact ⟨Pc.inLoop_of_isAsleep hpc, Or.inr ⟨hpc, hni⟩⟩

/-- While nobody dies, somebody will see to the sleepers. -/
structure Served (proc : ι → π) (s : State ι π) : Prop where
  alive : ∀ p, s.alive p = true
  calm : ∀ i, (s.threads i).pc.resetting = false
  queued : ∀ i ∈ s.mem.queue, (s.threads i).pc.isAsleep = true
  contended : ∀ i, (s.threads i).pc ≠ .idle → (s.threads i).woken = true → (s.threads i).contended = true
  owned : Owned proc s
  serve : ∀ i ∈ s.mem.queue,
    s.mem.word = .waiters ∨ (∃ j, (s.threads j).pc = .unlockWake) ∨ ∃ j, (s.threads j).Hot s.mem.queue j

theorem Fresh.served (h : Fresh s) : Served proc s := by
  refine ⟨h.alive, fun i => ?_, fun i hi => ?_, fun i hi => absurd (h.idle i) hi, h.owned, fun i hi => ?_⟩
  · rw [h.idle i]
    rfl
  · rw [h.queue] at hi
    cases hi
  · rw [h.queue] at hi
    cases hi

section Step
variable [DecidableEq ι]

theorem Served.move {i : ι} {a : TAct ι} {m : Mem ι π} {th : Thread π} (h : Served proc s)
    (hmv : Moves s.alive s.now i (proc i) s.mem (s.threads i) a m th) :
    Served proc { s with mem := m, threads := update s.threads i th } := by
  have hq := hmv.queue (h.queued i)
  refine ⟨h.alive, fun j => ?_, fun j hj => ?_, fun j => ?_, ?_, fun j hj => ?_⟩
  · by_cases hji : j = i
    · simp only [hji, update_self]
      exact hmv.resetting h.alive (h.calm i)
    · simp only [update_of_ne hji]
      exact h.calm j
  · rcases hq j hj with ⟨hjs, hji⟩ | ⟨rfl, hpc, -⟩
    · simp only [update_of_ne hji]
      exact h.queued j hjs
    · simp only [update_self]
      exact hpc
  · by_cases hji : j = i
    · simp only [hji, update_self]
      exact fun _ => hmv.contended (h.contended i)
    · simp only [update_of_ne hji]
      exact h.contended j
  · refine h.owned.move (h.alive _) hmv.owning fun hpc => ?_
    have := h.calm i
    rw [hpc] at this
    cases this
  · rcases hq j hj with ⟨hjs, -⟩ | ⟨-, -, hw⟩
    · rcases h.serve j hjs with hw | ⟨k, hk⟩ | ⟨k, hk⟩
      · rcases hmv.keeps_waiters (h.calm i) hw with hw' | hpc
        · exact Or.inl hw'
        · exact Or.inr (Or.inl ⟨i, by simp only [update_self]; exact hpc⟩)
      · by_cases hki : k = i
        · -- the wake is issued: the thread it takes off the queue is the woken one
          subst hki
          rcases hmv.wakes hk with he | ⟨l, hl, rfl⟩
          · rw [he] at hjs
            cases hjs
          · have hasleep := h.queued l hl
            have hlk : l ≠ k := by
              rintro rfl
              rw [hk] at hasleep
              cases hasleep
            refine Or.inr (Or.inr ⟨l, ?_⟩)
            simp only [update_of_ne hlk]
            exact Or.inr ⟨hasleep, fun hm => (mem_drop.mp hm).2 rfl⟩
        · exact Or.inr (Or.inl ⟨k, by simp only [update_of_ne hki]; exact hk⟩)
      · by_cases hki : k = i
        · subst hki
          have hbusy : (s.threads k).pc ≠ .idle := by
            intro hidle
            rcases hk with ⟨-, hk⟩ | ⟨hk, -⟩ <;> rw [hidle] at hk <;> cases hk
          rcases hmv.hot (h.contended k hbusy) hk with hw | hot
          · exact Or.inl hw
          · exact Or.inr (Or.inr ⟨k, by simp only [update_self]; exact hot⟩)
        · refine Or.inr (Or.inr ⟨k, ?_⟩)
          simp only [update_of_ne hki]
          refine hk.imp_right fun hk => ⟨hk.1, fun hm => ?_⟩
          rcases hq k hm with ⟨hks, -⟩ | ⟨he, -⟩
          · exact hk.2 hks
          · exact hki he
    · exact Or.inl hw

variable [DecidableEq π]

theorem Served.step {act : Act ι π} (h : Served proc s) (hok : ∀ p, act ≠ .kill p) (hst : s.step proc act = some t) :
    Served proc t := by
  rcases State.step_cases hst with ⟨i, a, m, th, rfl, -, hmv, rfl⟩ | ⟨d, rfl, rfl⟩ | ⟨p, rfl, rfl⟩
  · exact h.move hmv
  · exact ⟨h.alive, h.calm, h.queued, h.contended, ⟨h.owned.free, h.owned.one, h.owned.named⟩, h.serve⟩
  · exact absurd rfl (hok p)

/-- **No sleeper is stranded, and no two threads hold the lock**, while nobody dies: if a thread is asleep, the state
word is 2, or a wake is still to come, or a woken thread is still in its loop. -/
theorem no_stranded_sleeper {acts : List (Act ι π)} (h0 : Fresh s₀)
    (hrun : Run (State.step proc) (fun _ act => ∀ p, act ≠ .kill p) s₀ acts s) :
    (∀ i, s.Asleep i →
      s.mem.word = .waiters ∨ (∃ j, (s.threads j).pc = .unlockWake) ∨ ∃ j, s.Woken j) ∧
    ∀ i j, (s.threads i).pc.owns = true → (s.threads j).pc.owns = true → i = j := by
  have h := hrun.inv (Served proc) h0.served fun _ _ _ h hok hst => h.step hok hst
  refine ⟨fun i hi => ?_, fun i j hi hj => h.owned.one i j ⟨h.alive _, hi⟩ ⟨h.alive _, hj⟩⟩
  rcases h.serve i hi.2 with hw | hj | ⟨j, hj⟩
  · exact Or.inl hw
  · exact Or.inr (Or.inl hj)
  · exact Or.inr (Or.inr ⟨j, State.woken_of_hot hj⟩)

end Step

instance (s : State ι π) [DecidableEq ι] (i : ι) : Decidable (s.Asleep i) := inferInstanceAs (Decidable (_ ∧ _))

/-- Thread 0 takes the lock, thread 1 goes to sleep over it, and thread 0 unlocks it, up to its wake. -/
def handover : List (Act (Fin 3) (Fin 3)) :=
  calling 0 .tryLock 2 ++ calling 1 .lock 43 ++ [.thread 0 .unlock, .thread 0 .go]

theorem no_stranded_sleeper_handover : ∃ s, Run (State.step id) (fun _ act => ∀ p, act ≠ .kill p) trio handover s ∧
    s.Asleep 1 ∧ (s.mem.word = .waiters ∨ (∃ j, (s.threads j).pc = .unlockWake) ∨ ∃ j, s.Woken j) := by
  refine exists_run_imp (fun s => s.Asleep 1) (by decide +kernel) fun s hrun hasleep => ?_
  exact ⟨hasleep, (no_stranded_sleeper fresh_trio hrun).1 1 hasleep⟩

end ThothIpc.Ulock
