import ThothIpc.Ulock.Model

/-!
# One holder at a time

Recovery from a dead holder reads the holder word, tests the process and then resets the state word, in three steps. As
long as no reset takes the lock from a live thread, at most one live thread is ever between an acquisition and its
unlock.

* `Pc.owns` : the thread has taken the state word and not given it back;
* `Owning`, `Moves.owning` : what a move does to the two words, by whether the thread owns the lock before and after;
* `Owned` : the invariant, and `one_holder` the result.
-/

namespace ThothIpc.Ulock
open Function Steps

variable {ι π : Type}

/-- Between the exchange that takes the state word and the one that gives it back. -/
def Pc.owns : Pc π → Bool
  | .store => true
  | .held => true
  | .unlockState => true
  | _ => false

section Moves
variable [DecidableEq ι] {alive : π → Bool} {now : Nat} {i : ι} {p : π} {m m' : Mem ι π} {t t' : Thread π} {a : TAct ι}

theorem toSleep_pc (t : Thread π) : t.toSleep.pc = .clock ∨ t.toSleep.pc = .wait 0 := by
  unfold Thread.toSleep
  split
  · exact Or.inl rfl
  · exact Or.inr rfl

theorem giveUp_pc (t : Thread π) : t.giveUp.pc = .idle ∨ t.giveUp.pc = .recHolder := by
  unfold Thread.giveUp
  split
  · exact Or.inl rfl
  · exact Or.inr rfl

theorem recovered_pc (t : Thread π) : t.recovered.pc = .tryCas true ∨ t.recovered.pc = .spin 0 := by
  unfold Thread.recovered
  split
  · exact Or.inl rfl
  · exact Or.inr rfl

/-- What a move does to the two words, by whether the thread owns the lock. -/
inductive Owning (p : π) (m m' : Mem ι π) (pc pc' : Pc π) : Prop
  | acquire (h : pc.owns = false) (h' : pc' = .store) (hw : m.word = .unlocked) (hw' : m'.word ≠ .unlocked)
      (hh : m'.holder = m.holder)
  | record (h : pc = .store) (h' : pc' = .held) (hw : m'.word = m.word) (hh : m'.holder = some p)
  | unlock (h : pc = .held) (h' : pc' = .unlockState) (hw : m'.word = m.word) (hh : m'.holder = none)
  | release (h : pc = .unlockState) (h' : pc'.owns = false) (hw : m'.word = .unlocked) (hh : m'.holder = m.holder)
  | reset (h : pc = .recSwap) (h' : ∃ old, pc' = .recStore old) (hw : m'.word = .unlocked) (hh : m'.holder = m.holder)
  | clear (h : ∃ old, pc = .recStore old) (h' : pc'.owns = false) (hw : m'.word = m.word) (hh : m'.holder = none)
  | outside (h : pc.owns = false) (h' : pc'.owns = false) (hn : ∀ old, pc' ≠ .recStore old)
      (hw : m'.word = m.word ∨ m.word = .locked ∧ m'.word = .waiters) (hh : m'.holder = m.holder)

theorem Moves.owning (h : Moves alive now i p m t a m' t') : Owning p m m' t.pc t'.pc := by
  cases h with
  | take k h hw =>
    refine .acquire (by rw [h]; rfl) rfl hw ?_ rfl
    simp only [Thread.taking]
    split <;> nofun
  | tryTake again h hw => exact .acquire (by rw [h]; rfl) rfl hw nofun rfl
  | record h => exact .record h rfl rfl rfl
  | unlock h => exact .unlock h rfl rfl rfl
  | release h =>
    refine .release h ?_ rfl rfl
    dsimp only
    split <;> rfl
  | swap h => exact .reset h ⟨_, rfl⟩ rfl rfl
  | clear old h =>
    refine .clear ⟨old, h⟩ ?_ rfl rfl
    split
    · rfl
    · rcases recovered_pc t with h' | h' <;> rw [h'] <;> rfl
  | raise h hw =>
    refine .outside (by rw [h]; rfl) ?_ ?_ (Or.inr ⟨hw, rfl⟩) rfl <;>
      rcases toSleep_pc t with h' | h' <;> rw [h'] <;> first | rfl | nofun
  | announced h hw =>
    refine .outside (by rw [h]; rfl) ?_ ?_ (Or.inl rfl) rfl <;>
      rcases toSleep_pc t with h' | h' <;> rw [h'] <;> first | rfl | nofun
  | late l d h hc hd =>
    refine .outside (by rw [h]; rfl) ?_ ?_ (Or.inl rfl) rfl <;>
      rcases giveUp_pc t with h' | h' <;> rw [h'] <;> first | rfl | nofun
  | timeout us since h hq hus hnow =>
    refine .outside (by rw [h]; rfl) ?_ ?_ (Or.inl rfl) rfl <;>
      rcases giveUp_pc { t with contended := true } with h' | h' <;> rw [h'] <;> first | rfl | nofun
  | wakeAll h =>
    refine .outside (by rw [h]; rfl) ?_ ?_ (Or.inl rfl) rfl <;>
      rcases recovered_pc t with h' | h' <;> rw [h'] <;> first | rfl | nofun
  | call r h =>
    refine .outside (by rw [h]; rfl) ?_ ?_ (Or.inl rfl) rfl <;> cases r <;> first | rfl | nofun
  | miss k h hw =>
    refine .outside (by rw [h]; rfl) ?_ ?_ (Or.inl rfl) rfl <;> dsimp only <;> split <;> first | rfl | nofun
  | tryMiss again h hw =>
    refine .outside (by rw [h]; rfl) ?_ ?_ (Or.inl rfl) rfl <;> dsimp only <;> split <;> first | rfl | nofun
  | test q h =>
    refine .outside (by rw [h]; rfl) ?_ ?_ (Or.inl rfl) rfl <;> dsimp only <;> split <;> first | rfl | nofun
  | free h hw => exact .outside (by rw [h]; rfl) rfl nofun (Or.inl rfl) rfl
  | announce h hw => exact .outside (by rw [h]; rfl) rfl nofun (Or.inl rfl) rfl
  | changed h hw => exact .outside (by rw [h]; rfl) rfl nofun (Or.inl rfl) rfl
  | early l d h hc hd => exact .outside (by rw [h]; rfl) rfl nofun (Or.inl rfl) rfl
  | sleep us h hw => exact .outside (by rw [h]; rfl) rfl nofun (Or.inl rfl) rfl
  | pass us h hw => exact .outside (by rw [h]; rfl) rfl nofun (Or.inl rfl) rfl
  | woke us since h hq => exact .outside (by rw [h]; rfl) rfl nofun (Or.inl rfl) rfl
  | noHolder h hh => exact .outside (by rw [h]; rfl) rfl nofun (Or.inl rfl) rfl
  | holder q h hh => exact .outside (by rw [h]; rfl) rfl nofun (Or.inl rfl) rfl
  | wakeNobody h hq => exact .outside (by rw [h]; rfl) rfl nofun (Or.inl rfl) rfl
  | wakeOne j h hq => exact .outside (by rw [h]; rfl) rfl nofun (Or.inl rfl) rfl
  | intr us since h hq => exact .outside (by rw [h]; rfl) rfl nofun (Or.inl rfl) rfl

end Moves

/-! ## The invariant -/

variable {proc : ι → π} {s s₀ t : State ι π}

def State.Owns (proc : ι → π) (s : State ι π) (i : ι) : Prop :=
  s.alive (proc i) = true ∧ (s.threads i).pc.owns = true

/-- At most one live thread owns the lock; once it has recorded itself, no other process is named as the holder. -/
structure Owned (proc : ι → π) (s : State ι π) : Prop where
  free : s.mem.word = .unlocked → ∀ i, ¬ s.Owns proc i
  one : ∀ i j, s.Owns proc i → s.Owns proc j → i = j
  named : ∀ i p, s.Owns proc i → (s.threads i).pc ≠ .store → s.mem.holder = some p → p = proc i

/-- A recovery that resets the state word does not take it from a live thread. -/
def unrobbed (proc : ι → π) (s : State ι π) : Act ι π → Prop
  | .thread i .go => (s.threads i).pc = .recSwap → ∀ j, ¬ s.Owns proc j
  | _ => True

/-- Nobody has come to own the lock, nor moved on with it, and nobody has been named. -/
theorem Owned.sub (h : Owned proc s) (hsub : ∀ j, t.Owns proc j → s.Owns proc j ∧ (t.threads j).pc = (s.threads j).pc)
    (hfree : t.mem.word = .unlocked → s.mem.word = .unlocked ∨ ∀ j, ¬ t.Owns proc j)
    (hname : t.mem.holder = s.mem.holder ∨ t.mem.holder = none) : Owned proc t := by
  refine ⟨fun hw j hj => ?_, fun i j hi hj => h.one i j (hsub i hi).1 (hsub j hj).1, fun i p hi hpc hp => ?_⟩
  · rcases hfree hw with hs | hno
    · exact h.free hs j (hsub j hj).1
    · exact hno j hj
  · rcases hname with hn | hn
    · refine h.named i p (hsub i hi).1 ?_ (hn ▸ hp)
      rw [← (hsub i hi).2]
      exact hpc
    · rw [hn] at hp
      cases hp

section Step
variable [DecidableEq ι] {i : ι} {m : Mem ι π} {th : Thread π}

theorem owns_update_self (hal : s.alive (proc i) = true) :
    State.Owns proc { s with mem := m, threads := update s.threads i th } i ↔ th.pc.owns = true := by
  simp only [State.Owns, update_self]
  exact and_iff_right hal

theorem owns_update_of_ne {j : ι} (h : j ≠ i) :
    State.Owns proc { s with mem := m, threads := update s.threads i th } j ↔ s.Owns proc j := by
  simp only [State.Owns, update_of_ne h]

theorem owns_of_update {j : ι} (hth : th.pc.owns = false) (hal : s.alive (proc i) = true)
    (hj : State.Owns proc { s with mem := m, threads := update s.threads i th } j) : j ≠ i ∧ s.Owns proc j := by
  have hji : j ≠ i := by
    rintro rfl
    rw [owns_update_self hal, hth] at hj
    cases hj
  exact ⟨hji, (owns_update_of_ne hji).mp hj⟩

theorem Owned.move (h : Owned proc s) (hal : s.alive (proc i) = true)
    (hmv : Owning (proc i) s.mem m (s.threads i).pc th.pc)
    (hok : (s.threads i).pc = .recSwap → ∀ j, ¬ s.Owns proc j) :
    Owned proc { s with mem := m, threads := update s.threads i th } := by
  have hsub : th.pc.owns = false → ∀ j,
    State.Owns proc { s with mem := m, threads := update s.threads i th } j →
      s.Owns proc j ∧ (update s.threads i th j).pc = (s.threads j).pc := by
    intro hth j hj
    obtain ⟨hji, hjs⟩ := owns_of_update hth hal hj
    exact ⟨hjs, by rw [update_of_ne hji]⟩
  cases hmv with
  | acquire hpc hpc' hw hw' hh =>
    have hself : ∀ j, State.Owns proc { s with mem := m, threads := update s.threads i th } j → j = i := by
      intro j hj
      by_contra hji
      exact h.free hw j ((owns_update_of_ne hji).mp hj)
    refine ⟨fun hw => absurd hw hw', fun j j' hj hj' => (hself j hj).trans (hself j' hj').symm, fun j p hj hne _ => ?_⟩
    obtain rfl := hself j hj
    simp only [update_self] at hne
    exact absurd hpc' hne
  | record hpc hpc' hw hh =>
    have hi : s.Owns proc i := ⟨hal, by rw [hpc]; rfl⟩
    have hself : ∀ j, State.Owns proc { s with mem := m, threads := update s.threads i th } j → j = i := by
      intro j hj
      by_contra hji
      exact hji (h.one j i ((owns_update_of_ne hji).mp hj) hi)
    refine ⟨fun hu => absurd hi (h.free (hw ▸ hu) i), fun j j' hj hj' => (hself j hj).trans (hself j' hj').symm,
      fun j p hj _ hp => ?_⟩
    obtain rfl := hself j hj
    have hp : m.holder = some p := hp
    rw [hh, Option.some.injEq] at hp
    exact hp.symm
  | unlock hpc hpc' hw hh =>
    have hi : s.Owns proc i := ⟨hal, by rw [hpc]; rfl⟩
    have hself : ∀ j, State.Owns proc { s with mem := m, threads := update s.threads i th } j → j = i := by
      intro j hj
      by_contra hji
      exact hji (h.one j i ((owns_update_of_ne hji).mp hj) hi)
    refine ⟨fun hu => absurd hi (h.free (hw ▸ hu) i), fun j j' hj hj' => (hself j hj).trans (hself j' hj').symm,
      fun j p _ _ hp => ?_⟩
    have hp : m.holder = some p := hp
    rw [hh] at hp
    cases hp
  | release hpc hpc' hw hh =>
    have hi : s.Owns proc i := ⟨hal, by rw [hpc]; rfl⟩
    refine h.sub (hsub hpc') (fun _ => Or.inr fun j hj => ?_) (Or.inl hh)
    obtain ⟨hji, hjs⟩ := owns_of_update hpc' hal hj
    exact hji (h.one j i hjs hi)
  | reset hpc hpc' hw hh =>
    have hth : th.pc.owns = false := by
      obtain ⟨old, ho⟩ := hpc'
      rw [ho]
      rfl
    exact h.sub (hsub hth) (fun _ => Or.inr fun j hj => hok hpc j (owns_of_update hth hal hj).2) (Or.inl hh)
  | clear hpc hpc' hw hh => exact h.sub (hsub hpc') (fun hu => Or.inl (hw ▸ hu)) (Or.inr hh)
  | outside hpc hpc' hn hw hh =>
    refine h.sub (hsub hpc') (fun hu => Or.inl ?_) (Or.inl hh)
    rcases hw with hw | ⟨-, hw⟩
    · exact hw ▸ hu
    · rw [hw] at hu
      cases hu

variable [DecidableEq π] {act : Act ι π}

theorem Owned.step (h : Owned proc s) (hok : unrobbed proc s act) (hst : s.step proc act = some t) : Owned proc t := by
  rcases State.step_cases hst with ⟨i, a, m, th, rfl, hal, hmv, rfl⟩ | ⟨d, rfl, rfl⟩ | ⟨p, rfl, rfl⟩
  · refine h.move hal hmv.owning fun hpc => ?_
    cases a with
    | go => exact hok hpc
    | _ => cases hmv <;> simp_all
  · exact ⟨h.free, h.one, h.named⟩
  · have hsub : ∀ j, update s.alive p false (proc j) = true → s.alive (proc j) = true := by
      intro j hj
      by_cases hp : proc j = p
      · rw [hp, update_self] at hj
        cases hj
      · rwa [update_of_ne hp] at hj
    exact h.sub (fun j hj => ⟨⟨hsub j hj.1, hj.2⟩, rfl⟩) Or.inl (Or.inl rfl)

/-! ## Runs -/

structure Fresh (s : State ι π) : Prop where
  word : s.mem.word = .unlocked
  holder : s.mem.holder = none
  queue : s.mem.queue = []
  idle : ∀ i, (s.threads i).pc = .idle
  alive : ∀ p, s.alive p = true

omit [DecidableEq ι] [DecidableEq π] in
theorem Fresh.owned (h : Fresh s) : Owned proc s := by
  have hno : ∀ i, ¬ s.Owns proc i := by
    rintro i ⟨-, hi⟩
    rw [h.idle i] at hi
    cases hi
  exact ⟨fun _ => hno, fun i _ hi => absurd hi (hno i), fun i _ hi => absurd hi (hno i)⟩

end Step

/-! ## Two recoveries -/

instance (proc : ι → π) (s : State ι π) (i : ι) : Decidable (s.Owns proc i) := inferInstanceAs (Decidable (_ ∧ _))

instance [Fintype ι] [DecidableEq π] (proc : ι → π) (s : State ι π) (act : Act ι π) :
    Decidable (unrobbed proc s act) := by
  unfold unrobbed
  split <;> infer_instance

/-- Three processes of one thread each, and a mutex that nobody is using. -/
def trio : State (Fin 3) (Fin 3) :=
  ⟨⟨.unlocked, none, []⟩, fun _ => ⟨.lock, false, false, false, .idle⟩, 0, fun _ => true⟩

theorem fresh_trio : Fresh trio := ⟨rfl, rfl, rfl, fun _ => rfl, fun _ => rfl⟩

/-- A call by thread `i` and `n` accesses. -/
def calling (i : Fin 3) (r : Req) (n : Nat) : List (Act (Fin 3) (Fin 3)) :=
  .thread i (.call r) :: List.replicate n (.thread i .go)

/-- Thread 0 dies with the lock; thread 1 recovers it and takes it. -/
def inherit : List (Act (Fin 3) (Fin 3)) := calling 0 .tryLock 2 ++ .kill 0 :: calling 1 .tryLock 7

/-- Thread 0 dies with the lock. Threads 1 and 2 both find the holder dead; each in turn resets the lock and takes it.
-/
def recoverTwice : List (Act (Fin 3) (Fin 3)) :=
  calling 0 .tryLock 2 ++ .kill 0 :: (calling 1 .tryLock 3 ++ calling 2 .tryLock 3 ++
    List.replicate 4 (.thread 1 .go) ++ List.replicate 4 (.thread 2 .go))

end ThothIpc.Ulock
