import ThothIpc.Ulock.Waiters

/-!
# Recovery after a death

A process dies at some step. If it owned the lock, a later caller can take it over only if the holder word names the
dead process: between the exchange on the state word and the store of the holder, and inside `unlock` after the holder
has been cleared, it does not. `lock` itself never looks at the holder.

* `survivable` : the death is at another step;
* `Intact`, `Left` : the lock before and after the death; with no live owner it is free, or the holder word names the
  dead process (`Left.free_or_dead`);
* `OnWay`, `rank` : a caller running alone is on its way to the lock; every step of its own brings it nearer;
* `recovered_alone` : it gets there, `abandoned` : after a death at one of the other steps, or in `lock`, it does not.
-/

namespace ThothIpc.Ulock
open Function Steps

variable {ι π : Type} {proc : ι → π} {s s₀ t : State ι π}

/-! ## The lock that is left behind -/

/-- At most one process dies, and not between an exchange on the state word and the matching store to the holder
word. -/
def survivable (proc : ι → π) (s : State ι π) : Act ι π → Prop
  | .kill p => (∀ q, s.alive q = true) ∧
      ∀ i, proc i = p → (s.threads i).pc ≠ .store ∧ (s.threads i).pc ≠ .unlockState
  | _ => True

/-- The lock while nobody has died: whoever has recorded itself is named. -/
structure Intact (proc : ι → π) (s : State ι π) : Prop where
  calm : ∀ i, (s.threads i).pc.resetting = false
  owned : Owned proc s
  taken : s.mem.word ≠ .unlocked → ∃ i, (s.threads i).pc.owns = true
  recorded : ∀ i, (s.threads i).pc = .held → s.mem.holder = some (proc i)

/-- A taken lock has a live owner, or its holder word names a dead process and nobody is about to clear it. -/
def Left (proc : ι → π) (s : State ι π) : Prop :=
  s.mem.word ≠ .unlocked → (∃ i, s.Owns proc i) ∨
    (∃ p, s.alive p = false ∧ s.mem.holder = some p) ∧
      ∀ i old, s.alive (proc i) = true → (s.threads i).pc ≠ .recStore old

theorem Pc.held_of_owns {pc : Pc π} (h : pc.owns = true) (h1 : pc ≠ .store) (h2 : pc ≠ .unlockState) : pc = .held := by
  cases pc <;> simp_all [Pc.owns]

theorem Left.free_or_dead (h : Left proc s) (hno : ∀ i, ¬ s.Owns proc i) :
    s.mem.word = .unlocked ∨ ∃ p, s.mem.holder = some p ∧ s.alive p = false := by
  by_cases hw : s.mem.word = .unlocked
  · exact Or.inl hw
  · rcases h hw with ⟨i, hi⟩ | ⟨⟨p, hp, hh⟩, -⟩
    · exact absurd hi (hno i)
    · exact Or.inr ⟨p, hh, hp⟩

section Step
variable [DecidableEq ι] {i : ι} {m : Mem ι π} {th : Thread π}

theorem owns_kept {j : ι} (hpc : (s.threads i).pc.owns = false) (hj : (s.threads j).pc.owns = true) :
    (update s.threads i th j).pc = (s.threads j).pc := by
  have hji : j ≠ i := by
    rintro rfl
    rw [hpc] at hj
    cases hj
  rw [update_of_ne hji]

theorem Intact.move {a : TAct ι} (h : Intact proc s) (hal : ∀ p, s.alive p = true)
    (hmv : Moves s.alive s.now i (proc i) s.mem (s.threads i) a m th) :
    Intact proc { s with mem := m, threads := update s.threads i th } := by
  have hcalm := h.calm i
  have hself : (update s.threads i th i).pc = th.pc := by rw [update_self]
  refine ⟨fun j => ?_, ?_, fun hw => ?_, fun j hj => ?_⟩
  · by_cases hji : j = i
    · simp only [hji, update_self]
      exact hmv.resetting hal hcalm
    · simp only [update_of_ne hji]
      exact h.calm j
  · refine h.owned.move (hal _) hmv.owning fun hpc => ?_
    rw [hpc] at hcalm
    cases hcalm
  · cases hmv.owning with
    | acquire hpc hpc' _ _ _ => exact ⟨i, by simp only [hself, hpc']; rfl⟩
    | record hpc hpc' _ _ => exact ⟨i, by simp only [hself, hpc']; rfl⟩
    | unlock hpc hpc' _ _ => exact ⟨i, by simp only [hself, hpc']; rfl⟩
    | release hpc hpc' hw' _ => exact absurd hw' hw
    | reset hpc hpc' hw' _ => exact absurd hw' hw
    | clear hpc hpc' hw' _ =>
      obtain ⟨old, hpc⟩ := hpc
      rw [hpc] at hcalm
      cases hcalm
    | outside hpc hpc' _ hw' _ =>
      obtain ⟨j, hj⟩ := h.taken (by
        rcases hw' with hw' | ⟨hl, -⟩
        · rw [← hw']
          exact hw
        · rw [hl]
          nofun)
      exact ⟨j, by simp only [owns_kept hpc hj]; exact hj⟩
  · by_cases hji : j = i
    · subst hji
      simp only [update_self] at hj
      cases hmv.owning with
      | record hpc hpc' _ hh => exact hh
      | acquire hpc hpc' _ _ _ => rw [hj] at hpc'; cases hpc'
      | unlock hpc hpc' _ _ => rw [hj] at hpc'; cases hpc'
      | release hpc hpc' _ _ => rw [hj] at hpc'; cases hpc'
      | reset hpc hpc' _ _ => obtain ⟨old, hpc'⟩ := hpc'; rw [hj] at hpc'; cases hpc'
      | clear hpc hpc' _ _ => rw [hj] at hpc'; cases hpc'
      | outside hpc hpc' _ _ _ => rw [hj] at hpc'; cases hpc'
    · simp only [update_of_ne hji] at hj
      have hown : s.Owns proc j := ⟨hal _, by rw [hj]; rfl⟩
      have hno : (s.threads i).pc.owns = true → False := fun hi => hji (h.owned.one j i hown ⟨hal _, hi⟩)
      cases hmv.owning with
      | record hpc hpc' _ hh => rw [hpc] at hno; exact (hno rfl).elim
      | acquire hpc hpc' hw _ hh => exact absurd hown (h.owned.free hw j)
      | unlock hpc hpc' _ _ => rw [hpc] at hno; exact (hno rfl).elim
      | release hpc hpc' _ hh => rw [hpc] at hno; exact (hno rfl).elim
      | reset hpc hpc' _ hh => rw [hpc] at hcalm; cases hcalm
      | clear hpc hpc' _ _ => obtain ⟨old, hpc⟩ := hpc; rw [hpc] at hcalm; cases hcalm
      | outside hpc hpc' _ _ hh => simp only [hh]; exact h.recorded j hj

theorem Left.move (h : Left proc s) (hal : s.alive (proc i) = true)
    (hmv : Owning (proc i) s.mem m (s.threads i).pc th.pc) :
    Left proc { s with mem := m, threads := update s.threads i th } := by
  intro hw
  have hw : m.word ≠ .unlocked := hw
  -- an owner other than the thread that moves is still one
  have hkeep : (s.threads i).pc.owns = false → (∃ j, s.Owns proc j) →
      ∃ j, State.Owns proc { s with mem := m, threads := update s.threads i th } j := by
    rintro hpc ⟨j, hj, hown⟩
    exact ⟨j, hj, by simp only [owns_kept hpc hown]; exact hown⟩
  cases hmv with
  | acquire hpc hpc' _ _ _ => exact Or.inl ⟨i, (owns_update_self hal).mpr (by rw [hpc']; rfl)⟩
  | record hpc hpc' _ _ => exact Or.inl ⟨i, (owns_update_self hal).mpr (by rw [hpc']; rfl)⟩
  | unlock hpc hpc' _ _ => exact Or.inl ⟨i, (owns_update_self hal).mpr (by rw [hpc']; rfl)⟩
  | release hpc hpc' hw' _ => exact absurd hw' hw
  | reset hpc hpc' hw' _ => exact absurd hw' hw
  | clear hpc hpc' hw' _ =>
    obtain ⟨old, hpc⟩ := hpc
    rcases h (hw' ▸ hw) with hlive | ⟨-, hno⟩
    · exact Or.inl (hkeep (by rw [hpc]; rfl) hlive)
    · exact absurd hpc (hno i old hal)
  | outside hpc hpc' hn hw' hh =>
    have hws : s.mem.word ≠ .unlocked := by
      rcases hw' with hw' | ⟨hl, -⟩
      · rw [← hw']
        exact hw
      · rw [hl]
        nofun
    rcases h hws with hlive | ⟨⟨p, hp, hp'⟩, hno⟩
    · exact Or.inl (hkeep hpc hlive)
    · refine Or.inr ⟨⟨p, hp, hh.trans hp'⟩, fun j old hj => ?_⟩
      by_cases hji : j = i
      · simp only [hji, update_self]
        exact hn old
      · simp only [update_of_ne hji]
        exact hno j old hj

omit [DecidableEq ι] in
theorem Intact.kill [DecidableEq π] {p : π} {q : List ι} (h : Intact proc s) (hal : ∀ q, s.alive q = true)
    (hpc : ∀ i, proc i = p → (s.threads i).pc ≠ .store ∧ (s.threads i).pc ≠ .unlockState) :
    Left proc { s with mem := { s.mem with queue := q }, alive := update s.alive p false } := by
  intro hw
  obtain ⟨i, hi⟩ := h.taken hw
  by_cases hp : proc i = p
  · have hheld := Pc.held_of_owns hi (hpc i hp).1 (hpc i hp).2
    refine Or.inr ⟨⟨p, update_self .., ?_⟩, fun j old _ hj => ?_⟩
    · rw [← hp]
      exact h.recorded i hheld
    · have := h.calm j
      rw [hj] at this
      cases this
  · refine Or.inl ⟨i, ?_, hi⟩
    simp only [update_of_ne hp]
    exact hal _

/-- The invariant of a run with one death. -/
def Survives (proc : ι → π) (s : State ι π) : Prop := Left proc s ∧ ((∀ p, s.alive p = true) → Intact proc s)

theorem Survives.step [DecidableEq π] {act : Act ι π} (h : Survives proc s) (hok : survivable proc s act)
    (hst : s.step proc act = some t) :
    Survives proc t := by
  rcases State.step_cases hst with ⟨i, a, m, th, rfl, hal, hmv, rfl⟩ | ⟨d, rfl, rfl⟩ | ⟨p, rfl, rfl⟩
  · exact ⟨h.1.move hal hmv.owning, fun hall => (h.2 hall).move hall hmv⟩
  · refine ⟨h.1, fun hall => ?_⟩
    have hi := h.2 hall
    exact ⟨hi.calm, ⟨hi.owned.free, hi.owned.one, hi.owned.named⟩, hi.taken, hi.recorded⟩
  · refine ⟨(h.2 hok.1).kill hok.1 hok.2, fun hall => ?_⟩
    have := hall p
    simp only [update_self] at this
    cases this

omit [DecidableEq ι] in
theorem Fresh.survives (h : Fresh s) : Survives proc s := by
  refine ⟨fun hw => absurd h.word hw, fun _ => ⟨fun i => ?_, h.owned, fun hw => absurd h.word hw, fun i hi => ?_⟩⟩
  · rw [h.idle i]
    rfl
  · rw [h.idle i] at hi
    cases hi

end Step

/-! ## A caller running alone -/

/-- A timed call that has not tried recovery yet, over a lock whose holder is dead. -/
structure Waiting (alive : π → Bool) (m : Mem ι π) (t : Thread π) : Prop where
  dead : ∃ p, m.holder = some p ∧ alive p = false
  tried : t.tried = false
  timed : ∃ l d, t.call = .timed l d

/-- Thread `i` is on its way to the lock. -/
def OnWay (alive : π → Bool) (i : ι) (m : Mem ι π) (t : Thread π) : Prop :=
  match t.pc with
  | .spin k => k < spinCount ∧ (m.word = .unlocked ∨ Waiting alive m t)
  | .load => m.word ≠ .unlocked ∧ Waiting alive m t
  | .upgrade => m.word = .locked ∧ Waiting alive m t
  | .clock => m.word = .waiters ∧ Waiting alive m t
  | .wait us => us ≠ 0 ∧ m.word = .waiters ∧ Waiting alive m t
  | .asleep us _ => us ≠ 0 ∧ i ∈ m.queue ∧ Waiting alive m t
  | .tryCas again => m.word = .unlocked ∨ (again = false ∧ ∃ p, m.holder = some p ∧ alive p = false)
  | .recHolder => ∃ p, m.holder = some p ∧ alive p = false
  | .recAlive p => alive p = false
  | .recSwap => True
  | .recStore _ => m.word = .unlocked
  | .recWake => m.word = .unlocked
  | .store => True
  | .held => True
  | _ => False

/-- How far it has still to go. -/
def rank (m : Mem ι π) (t : Thread π) : Nat :=
  match t.pc with
  | .spin k => if m.word = .unlocked then 2 else 12 + (spinCount - k)
  | .load => 12
  | .upgrade => 11
  | .clock => 10
  | .wait _ => 9
  | .asleep _ _ => 8
  | .tryCas again => if again then 2 else 8
  | .recHolder => 7
  | .recAlive _ => 6
  | .recSwap => 5
  | .recStore _ => 4
  | .recWake => 3
  | .store => 1
  | _ => 0

section Moves
variable {alive : π → Bool} {now : Nat} {i : ι} {p : π} {m m' : Mem ι π} {th th' : Thread π} {a : TAct ι}

theorem onWay_recovered (alive : π → Bool) (i : ι) (th : Thread π) (hw : m.word = .unlocked) :
    OnWay alive i m th.recovered ∧ rank m th.recovered = 2 := by
  unfold Thread.recovered
  split
  · exact ⟨Or.inl hw, rfl⟩
  · exact ⟨⟨by decide, Or.inl hw⟩, if_pos hw⟩

theorem onWay_toSleep (hw : m.word = .waiters) (h : Waiting alive m th) :
    OnWay alive i m th.toSleep ∧ rank m th.toSleep = 10 := by
  obtain ⟨l, d, hc⟩ := h.timed
  simp only [Thread.toSleep, hc]
  exact ⟨⟨hw, h.dead, h.tried, l, d, rfl⟩, rfl⟩

theorem onWay_giveUp (i : ι) (m : Mem ι π) (th : Thread π) (h : Waiting alive m th) :
    OnWay alive i m th.giveUp ∧ rank m th.giveUp = 7 := by
  simp only [Thread.giveUp, h.tried]
  exact ⟨h.dead, rfl⟩

theorem onWay_start (now : Nat) (i : ι) {r : Req} (h : m.word = .unlocked ∨ ∃ p, m.holder = some p ∧ alive p = false)
    (hr : r = .lock → m.word = .unlocked) :
    OnWay alive i m (.start now r) ∧ rank m (.start now r) ≤ 52 := by
  have hrank : (if m.word = .unlocked then 2 else 12 + (spinCount - 0)) ≤ 52 := by
    split <;> decide
  cases r with
  | lock => exact ⟨⟨by decide, Or.inl (hr rfl)⟩, hrank⟩
  | timed l ms => exact ⟨⟨by decide, h.imp_right fun hd => ⟨hd, rfl, l, _, rfl⟩⟩, hrank⟩
  | tryLock => exact ⟨h.imp_right fun hd => ⟨rfl, hd⟩, show 8 ≤ 52 by decide⟩

variable [DecidableEq ι]

/-- **Every step of its own brings the caller nearer.** -/
theorem Moves.onWay (h : Moves alive now i p m th a m' th') (ha : a = .go ∨ a = .timeout) (hon : OnWay alive i m th)
    (hp : ∀ d, th.pc = .clock → th.call = .timed .rust d → d ≤ now ∨ now + 1000 ≤ d) :
    OnWay alive i m' th' ∧ rank m' th' < rank m th := by
  cases h with
  | call r h => rcases ha with ha | ha <;> cases ha
  | unlock h => rcases ha with ha | ha <;> cases ha
  | wakeNobody h hq => rcases ha with ha | ha <;> cases ha
  | wakeOne j h hq => rcases ha with ha | ha <;> cases ha
  | intr us since h hq => rcases ha with ha | ha <;> cases ha
  | take k h hw => simp [OnWay, rank, h, hw]
  | tryTake again h hw =>
    refine ⟨trivial, ?_⟩
    simp only [rank, h]
    split <;> omega
  | miss k h hw =>
    simp only [OnWay, h] at hon
    have hwait := hon.2.resolve_left hw
    have hr : rank m th = 12 + (spinCount - k) := by simp only [rank, h, hw, if_false]
    rw [hr]
    split
    · rename_i hk
      refine ⟨⟨hk, Or.inr ⟨hwait.dead, hwait.tried, hwait.timed⟩⟩, ?_⟩
      simp only [rank, hw, if_false]
      omega
    · refine ⟨⟨hw, hwait.dead, hwait.tried, hwait.timed⟩, ?_⟩
      have hk := hon.1
      simp only [rank]
      omega
  | free h hw =>
    simp only [OnWay, h] at hon
    exact absurd hw hon.1
  | announce h hw =>
    simp only [OnWay, h] at hon
    refine ⟨⟨hw, hon.2.dead, hon.2.tried, hon.2.timed⟩, ?_⟩
    simp [rank, h]
  | announced h hw =>
    simp only [OnWay, h] at hon
    obtain ⟨hon', hr⟩ := onWay_toSleep (i := i) hw hon.2
    refine ⟨hon', ?_⟩
    rw [hr]
    simp [rank, h]
  | raise h hw =>
    simp only [OnWay, h] at hon
    obtain ⟨hon', hr⟩ := onWay_toSleep (i := i) (m := { m with word := .waiters }) rfl
      ⟨hon.2.dead, hon.2.tried, hon.2.timed⟩
    refine ⟨hon', ?_⟩
    rw [hr]
    simp [rank, h]
  | changed h hw =>
    simp only [OnWay, h] at hon
    exact absurd hon.1 hw
  | late l d h hc hd =>
    simp only [OnWay, h] at hon
    obtain ⟨hon', hr⟩ := onWay_giveUp i _ _ hon.2
    refine ⟨hon', ?_⟩
    rw [hr]
    simp [rank, h]
  | early l d h hc hd =>
    simp only [OnWay, h] at hon
    refine ⟨⟨Lang.micros_ne_zero fun hl => ?_, hon.1, hon.2.dead, hon.2.tried, hon.2.timed⟩, ?_⟩
    · rw [hl] at hc
      have := hp d h hc
      omega
    · simp [rank, h]
  | sleep us h hw =>
    simp only [OnWay, h] at hon
    refine ⟨⟨hon.1, List.mem_cons_self, hon.2.2.dead, hon.2.2.tried, hon.2.2.timed⟩, ?_⟩
    simp [rank, h]
  | pass us h hw =>
    simp only [OnWay, h] at hon
    exact absurd hon.2.1 hw
  | woke us since h hq =>
    simp only [OnWay, h] at hon
    exact absurd hon.2.1 hq
  | tryMiss again h hw =>
    simp only [OnWay, h] at hon
    obtain ⟨ha, hdead⟩ := hon.resolve_left hw
    subst ha
    refine ⟨hdead, ?_⟩
    simp [rank, h]
  | noHolder h hh =>
    simp only [OnWay, h, hh] at hon
    obtain ⟨q, hq, -⟩ := hon
    cases hq
  | holder q h hh =>
    simp only [OnWay, h, hh] at hon
    obtain ⟨q', hq, hdead⟩ := hon
    cases hq
    refine ⟨hdead, ?_⟩
    simp [rank, h]
  | test q h =>
    simp only [OnWay, h] at hon
    simp [OnWay, rank, h, hon]
  | swap h =>
    refine ⟨rfl, ?_⟩
    simp [rank, h]
  | clear old h =>
    simp only [OnWay, h] at hon
    split
    · refine ⟨hon, ?_⟩
      simp [rank, h]
    · obtain ⟨hon', hr⟩ := onWay_recovered alive i th (m := { m with holder := none }) hon
      refine ⟨hon', ?_⟩
      rw [hr]
      simp [rank, h]
  | wakeAll h =>
    simp only [OnWay, h] at hon
    obtain ⟨hon', hr⟩ := onWay_recovered alive i th (m := { m with queue := [] }) hon
    refine ⟨hon', ?_⟩
    rw [hr]
    simp [rank, h]
  | record h =>
    refine ⟨trivial, ?_⟩
    simp [rank, h]
  | release h => simp only [OnWay, h] at hon
  | timeout us since h hq hus hnow =>
    simp only [OnWay, h] at hon
    obtain ⟨hon', hr⟩ := onWay_giveUp i (m.drop i) { th with contended := true }
      ⟨hon.2.2.dead, hon.2.2.tried, hon.2.2.timed⟩
    refine ⟨hon', ?_⟩
    rw [hr]
    simp [rank, h]

theorem Moves.onWay_intr (h : Moves alive now i p m th .intr m' th') (hon : OnWay alive i m th) :
    OnWay alive i m' th' ∧ rank m' th' ≤ rank m th + 44 := by
  cases h with
  | intr us since h hq =>
    simp only [OnWay, h] at hon
    refine ⟨⟨by decide, Or.inr ⟨hon.2.2.dead, hon.2.2.tried, hon.2.2.timed⟩⟩, ?_⟩
    simp only [rank, h, spinCount]
    split <;> omega

theorem OnWay.enabled (hon : OnWay alive i m th) (hne : th.pc ≠ .held) (now : Nat) (p : π) : ∃ d a x,
    (a = .go ∨ a = .timeout) ∧
    th.act alive (now + d) i p m a = some x ∧ ∀ dl, th.pc = .clock → th.call = .timed .rust dl → dl ≤ now + d := by
  have hgo : th.pc ≠ .clock → (th.step alive now i p m).isSome = true → ∃ d a x, (a = .go ∨ a = .timeout) ∧
      th.act alive (now + d) i p m a = some x ∧ ∀ dl, th.pc = .clock → th.call = .timed .rust dl → dl ≤ now + d := by
    intro hpc hsome
    obtain ⟨x, hx⟩ := Option.isSome_iff_exists.mp hsome
    exact ⟨0, .go, x, Or.inl rfl, hx, fun _ h => absurd h hpc⟩
  cases hpc : th.pc <;> simp only [OnWay, hpc] at hon
  case clock =>
    obtain ⟨l, d, hc⟩ := hon.2.timed
    refine ⟨d, .go, (m, th.giveUp), Or.inl rfl, ?_, fun dl _ hdl => ?_⟩
    · simp only [Thread.act, Thread.step, hpc, hc]
      rw [if_pos (by omega)]
    · rw [hc] at hdl
      cases hdl
      omega
  case asleep us since =>
    refine ⟨since + us * 1000, .timeout, (m.drop i, Thread.giveUp { th with contended := true }), Or.inr rfl, ?_,
      (by simp)⟩
    simp only [Thread.act, hpc]
    rw [if_pos ⟨hon.2.1, hon.1, by omega⟩]
  case held => exact absurd hpc hne
  all_goals
    refine hpc ▸ hgo (by rw [hpc]; simp) ?_
    simp only [Thread.step, hpc]
    first | rfl | (split <;> rfl)

end Moves

/-! ## Runs of a single thread -/

/-- Only thread `i` runs, inside its call, while time passes; and in Rust a deadline has passed or is at least a
microsecond away when the clock is read. -/
def alone (i : ι) (s : State ι π) : Act ι π → Prop
  | .thread j a => j = i ∧ (a = .go ∨ a = .timeout ∨ a = .intr) ∧
      ∀ d, (s.threads i).pc = .clock → (s.threads i).call = .timed .rust d → d ≤ s.now ∨ s.now + 1000 ≤ d
  | .tick _ => True
  | .kill _ => False

/-- A step of a thread's own: an access, or a wait that has run its time. -/
def Act.own : Act ι π → Bool
  | .thread _ .go => true
  | .thread _ .timeout => true
  | _ => false

/-- A wakeup for no reason. -/
def Act.spurious : Act ι π → Bool
  | .thread _ .intr => true
  | _ => false

section Alone
variable [DecidableEq ι] [DecidableEq π] {i : ι} {acts : List (Act ι π)}

/-- Along a run of its own the caller stays on its way, and its steps are counted by its rank. -/
theorem OnWay.run (hal : s.alive (proc i) = true) (hon : OnWay s.alive i s.mem (s.threads i))
    (hrun : Run (State.step proc) (alone i) s acts t) :
    t.alive (proc i) = true ∧ OnWay t.alive i t.mem (t.threads i) ∧
      acts.countP Act.own + rank t.mem (t.threads i) ≤ rank s.mem (s.threads i) + 44 * acts.countP Act.spurious := by
  induction hrun with
  | nil => exact ⟨hal, hon, by simp⟩
  | @snoc as v b u _ hok hst ih =>
    obtain ⟨hal', hon', hle⟩ := ih
    rw [List.countP_append, List.countP_append]
    rcases State.step_cases hst with ⟨j, a, m, th, rfl, -, hmv, rfl⟩ | ⟨d, rfl, rfl⟩ | ⟨p, rfl, rfl⟩
    · obtain ⟨rfl, ha, hp⟩ := hok
      refine ⟨hal', ?_⟩
      simp only [update_self]
      rcases ha with rfl | rfl | rfl
      · obtain ⟨h1, h2⟩ := hmv.onWay (Or.inl rfl) hon' hp
        refine ⟨h1, ?_⟩
        simp [Act.own, Act.spurious]
        omega
      · obtain ⟨h1, h2⟩ := hmv.onWay (Or.inr rfl) hon' hp
        refine ⟨h1, ?_⟩
        simp [Act.own, Act.spurious]
        omega
      · obtain ⟨h1, h2⟩ := hmv.onWay_intr hon'
        refine ⟨h1, ?_⟩
        simp [Act.own, Act.spurious]
        omega
    · refine ⟨hal', hon', ?_⟩
      simp [Act.own, Act.spurious]
      omega
    · exact hok.elim

theorem OnWay.finish (hal : s.alive (proc i) = true) (hon : OnWay s.alive i s.mem (s.threads i)) :
    ∃ acts t, Run (State.step proc) (alone i) s acts t ∧ acts.countP Act.spurious = 0 ∧ (t.threads i).pc = .held := by
  induction hn : rank s.mem (s.threads i) using Nat.strong_induction_on generalizing s with
  | _ n ih =>
    by_cases hheld : (s.threads i).pc = .held
    · exact ⟨[], s, .nil, rfl, hheld⟩
    · obtain ⟨d, a, ⟨m, th⟩, ha, hact, hclock⟩ := hon.enabled hheld s.now (proc i)
      let u : State ι π := { s with now := s.now + d, mem := m, threads := update s.threads i th }
      have h1 : s.step proc (.tick d) = some { s with now := s.now + d } := rfl
      have h2 : State.step proc { s with now := s.now + d } (.thread i a) = some u := by
        simp only [State.step, hal, if_true, hact, Option.map_some, u]
      have hok : alone i { s with now := s.now + d } (.thread i a) :=
        ⟨rfl, ha.elim Or.inl fun h => Or.inr (Or.inl h), fun dl hpc hc => Or.inl (hclock dl hpc hc)⟩
      have hself : u.threads i = th := update_self ..
      obtain ⟨hon', hlt⟩ := (Thread.act_moves hact).onWay ha hon fun dl hpc hc => Or.inl (hclock dl hpc hc)
      obtain ⟨acts, t, hrun, hsp, ht⟩ := ih (rank u.mem (u.threads i)) (by rw [hself, ← hn]; exact hlt) (s := u) hal
        (by rw [hself]; exact hon') rfl
      refine ⟨.tick d :: .thread i a :: acts, t, Run.head trivial h1 (Run.head hok h2 hrun), ?_, ht⟩
      have hsa : Act.spurious (Act.thread i a : Act ι π) = false := by
        rcases ha with rfl | rfl <;> rfl
      rw [List.countP_cons, List.countP_cons, hsp, hsa]
      rfl

/-- **A live process gets the lock that a dead one has left.** After a death at a survivable step, once no live process
owns the lock, a live thread that calls `try_lock` or a timed lock (or `lock`, if the lock is free) and runs alone gets
it, in at most 52 steps and another 44 for each spurious wakeup. -/
theorem recovered_alone {s₁ : State ι π} {acts' : List (Act ι π)} {r : Req} (h0 : Fresh s₀)
    (hrun : Run (State.step proc) (survivable proc) s₀ acts s) (hno : ∀ j, ¬ s.Owns proc j)
    (hr : r = .lock → s.mem.word = .unlocked) (hcall : s.step proc (.thread i (.call r)) = some s₁)
    (hsolo : Run (State.step proc) (alone i) s₁ acts' t) :
    (t.threads i).pc ≠ .idle ∧ acts'.countP Act.own ≤ 52 + 44 * acts'.countP Act.spurious ∧
      (∀ us since, (t.threads i).pc = .asleep us since → us ≠ 0) ∧
      ∃ acts'' u, Run (State.step proc) (alone i) t acts'' u ∧ acts''.countP Act.spurious = 0 ∧
        (u.threads i).pc = .held := by
  have hleft := (hrun.inv (Survives proc) h0.survives fun _ _ _ h hok hst => h.step hok hst).1.free_or_dead hno
  rcases State.step_cases hcall with ⟨j, a, m, th, he, hal, hmv, rfl⟩ | ⟨d, he, -⟩ | ⟨p, he, -⟩
  · cases he
    cases hmv with
    | call r h =>
      obtain ⟨hon, hle⟩ := onWay_start s.now i hleft hr
      have hself : update s.threads i (.start s.now r) i = .start s.now r := update_self ..
      obtain ⟨hal', hon', hcount⟩ := OnWay.run (by exact hal) (by simp only [hself]; exact hon) hsolo
      simp only [hself] at hcount
      refine ⟨fun hidle => ?_, by omega, fun us since hpc => ?_, hon'.finish hal'⟩
      · simp only [OnWay, hidle] at hon'
      · simp only [OnWay, hpc] at hon'
        exact hon'.1
  · cases he
  · cases he

end Alone

/-! ## Deaths that nobody recovers from -/

instance [Fintype ι] [Fintype π] [DecidableEq π] (proc : ι → π) (s : State ι π) (act : Act ι π) :
    Decidable (survivable proc s act) := by
  induction act using Act.casesOn <;> unfold survivable <;> infer_instance

theorem recovered_alone_inherit : ∃ s s₁,
    Run (State.step id) (survivable id) trio (calling 0 .tryLock 2 ++ [.kill 0]) s ∧ (∀ j, ¬ s.Owns id j) ∧
      s.mem.word = .locked ∧ s.step id (.thread 1 (.call .tryLock)) = some s₁ ∧
        ∃ acts t, Run (State.step id) (alone 1) s₁ acts t ∧ acts.countP Act.spurious = 0 ∧ (t.threads 1).pc = .held := by
  obtain ⟨s, hrun, hs⟩ := exists_run (State.step id) (survivable id) trio (calling 0 .tryLock 2 ++ [Act.kill 0])
    (fun s => decide ((∀ j, ¬ s.Owns id j) ∧ s.mem.word = .locked ∧ s.alive 1 = true ∧ (s.threads 1).pc = .idle))
    (x := true) (by decide +kernel)
  obtain ⟨hno, hw, hal, hidle⟩ := of_decide_eq_true hs
  have hcall : s.step id (.thread 1 (.call .tryLock)) =
      some { s with threads := update s.threads 1 (.start s.now .tryLock) } := by
    simp [State.step, Thread.act, hal, hidle]
  exact ⟨s, _, hrun, hno, hw, hcall, (recovered_alone (r := .tryLock) fresh_trio hrun hno (by simp) hcall .nil).2.2.2⟩

/-- **After other deaths nobody gets the lock.** Thread 0 dies before the store to the holder word: thread 1's
`try_lock` fails. Thread 0 dies as the recorded holder: thread 1's `lock` sleeps without a timeout. -/
theorem abandoned :
    (∃ s, Run (State.step id) (fun _ _ => True) trio (calling 0 .tryLock 1 ++ .kill 0 :: calling 1 .tryLock 2) s ∧
      (∀ j, ¬ s.Owns id j) ∧ (s.threads 1).pc = .idle ∧ s.mem.word = .locked) ∧
    ∃ s, Run (State.step id) (fun _ _ => True) trio (calling 0 .tryLock 2 ++ .kill 0 :: calling 1 .lock 43) s ∧
      (∀ j, ¬ s.Owns id j) ∧ (s.threads 1).pc = .asleep 0 0 ∧ s.Asleep 1 ∧ ∀ j, (s.threads j).pc ≠ .unlockWake := by
  refine ⟨?_, ?_⟩
  · exact exists_run_of (by decide +kernel)
  · exact exists_run_of (by decide +kernel)

end ThothIpc.Ulock
