import ThothIpc.Proto.Group.History

/-!
# What a service group knows of its processes

The roles, the handles and the registry entries of a group in Rust, against the processes it has spawned.

* `Books` : at most one instance is primary and `primary()` is that one; every process that was spawned, runs and was
  not stopped is that of exactly one instance; and an instance in use has the pid of its registry entry;
* `Attempt.fine` : an instance that is found is the process that was spawned, and one that is not found does not run;
* `books_kept` : if a group is only started when all its instances are dead, and every spawn is fine, they are.
-/

namespace ThothIpc.ServiceGroup.History
open Prog Steps

variable {ι : Type} {n : Nat}

structure Books (w : World ι n) : Prop where
  one : ∀ i j, (w.inst i).role = .primary → (w.inst j).role = .primary → i = j
  primary : ∀ i, (w.inst i).role = .primary → w.group.primary = some (w.inst i)
  procs : ∀ h ∈ w.spawned, w.runs h = true → (∀ c ∈ h.child, c ∉ w.stopped) → ∃! i, (w.inst i).proc = h
  pids : ∀ i, (w.inst i).role ≠ .dead → ((w.inst i).proc.pid : Int) = (w.inst i).entry.pid

/-- The entry that is found is that of the process, and a process that is not found does not run any more. -/
def Attempt.fine (a : Attempt ι) : Bool :=
  match a.entry with
  | some e => e.pid = a.handle.pid
  | none => !a.left

def World.Fine (w : World ι n) : Prop := ∀ a ∈ w.attempts, a.fine = true

/-- A group is only started when all its instances are dead. -/
def FromDead (w : World ι n) (a : Act ι) : Prop := a.call = .start → ∀ i, (w.inst i).role = .dead

instance (w : World ι n) (a : Act ι) : Decidable (FromDead w a) := inferInstanceAs (Decidable (_ = _ → ∀ _, _))

/-! ## Between the steps of an operation -/

/-- An instance in use has a valid handle, the handles are of different processes that were spawned, and a process of a
dead instance does not run or was stopped. If all spawns were fine, handles have the pids of their entries, and nothing
that runs is forgotten. -/
structure Stock (w : World ι n) : Prop where
  valid : ∀ i, (w.inst i).role ≠ .dead → (w.inst i).proc.valid = true
  spawned : ∀ i, (w.inst i).proc.valid = true → (w.inst i).proc ∈ w.spawned
  child : ∀ h ∈ w.spawned, h.child ≠ none
  distinct : ∀ i j, (w.inst i).proc.valid = true → (w.inst j).proc.valid = true →
    (w.inst i).proc.child = (w.inst j).proc.child → i = j
  dead : ∀ i, (w.inst i).role = .dead → w.runs (w.inst i).proc = true → ∀ c ∈ (w.inst i).proc.child, c ∈ w.stopped
  pids : w.Fine → ∀ i, (w.inst i).proc.valid = true → ((w.inst i).proc.pid : Int) = (w.inst i).entry.pid
  owned : w.Fine → ∀ h ∈ w.spawned, w.runs h = true → (∀ c ∈ h.child, c ∉ w.stopped) → ∃ i, (w.inst i).proc = h

/-- Between operations the primary is the one with the role. -/
structure Inv (w : World ι n) : Prop where
  stock : Stock w
  primary : ∀ i, (w.inst i).role = .primary ↔ w.group.primaryIdx = some i

def World.NoPrimary (w : World ι n) : Prop := ∀ i, (w.inst i).role ≠ .primary

variable {F : Event ι → Prop} {w t u : World ι n} {k : Nat} {i : Fin n} {h : ProcessHandle ι}

theorem Inv.books (hi : Inv w) (hf : w.Fine) : Books w where
  one := fun i j hp hp' => Option.some.inj (((hi.primary i).mp hp).symm.trans ((hi.primary j).mp hp'))
  primary := fun i hp => Group.primary_eq ((hi.primary i).mp hp) hp
  procs := fun h hs hr hn => by
    obtain ⟨i, hp⟩ := hi.stock.owned hf h hs hr hn
    refine ⟨i, hp, fun j hj => hi.stock.distinct j i ?_ ?_ ?_⟩
    · rw [hj]
      exact World.runs_valid hr
    · rw [hp]
      exact World.runs_valid hr
    · rw [hp, hj]
  pids := fun i hr => hi.stock.pids hf i (hi.stock.valid i hr)

/-- The stock when only roles change: an instance put in use has a valid handle, one put out of use does not run or was
stopped. -/
theorem Stock.same (hw : Stock w) (hs : Same w t)
    (hv : ∀ i, (t.inst i).role ≠ .dead → (t.inst i).proc.valid = true ∨ (w.inst i).role ≠ .dead)
    (hd : ∀ i, (t.inst i).role = .dead → t.runs (t.inst i).proc = true →
      (w.inst i).role = .dead ∨ ∀ c ∈ (t.inst i).proc.child, c ∈ t.stopped) : Stock t where
  valid := fun i hr => by
    rcases hv i hr with h | h
    · exact h
    · rw [hs.proc]
      exact hw.valid i h
  spawned := fun i hi => by
    rw [hs.proc] at hi ⊢
    rw [hs.spawned]
    exact hw.spawned i hi
  child := fun h hh => hw.child h (hs.spawned ▸ hh)
  distinct := fun i j => by
    rw [hs.proc, hs.proc]
    exact hw.distinct i j
  dead := fun i hr hrun => by
    rcases hd i hr hrun with h | h
    · intro c hc
      rw [hs.proc] at hc hrun
      exact hs.stopped c (hw.dead i h (World.runs_mono hs.running hrun) c hc)
    · exact h
  pids := fun hf i => by
    rw [hs.proc, hs.entry]
    exact hw.pids (fun a ha => hf a (hs.attempts ▸ ha)) i
  owned := fun hf h hh hrun hn => by
    obtain ⟨i, hi⟩ := hw.owned (fun a ha => hf a (hs.attempts ▸ ha)) h (hs.spawned ▸ hh)
      (World.runs_mono hs.running hrun) fun c hc hcs => hn c hc (hs.stopped c hcs)
    exact ⟨i, (hs.proc i).trans hi⟩

theorem Stock.fades (hw : Stock w) (hf : Fades w t) : Stock t := by
  have hrole : ∀ i, (t.inst i).role = (w.inst i).role := fun i => congrArg ManagedInstance.role (hf.inst i)
  exact hw.same hf.same (fun i hr => .inr (hrole i ▸ hr)) fun i hr _ => .inl (hrole i ▸ hr)

theorem Stock.marked (hw : Stock w) (hm : Marked w t) : Stock t := by
  refine hw.same hm.same (fun i hr => ?_) fun i hr hrun => ?_
  · rcases hm.roles i with e | ⟨hd, -⟩
    · exact .inr (e ▸ hr)
    · exact absurd hd hr
  · rcases hm.roles i with e | ⟨-, hn⟩
    · exact .inl (e ▸ hr)
    · exact absurd (hn.symm.trans hrun) Bool.false_ne_true

theorem Stock.elected [DecidableEq ι] (hw : Stock w) (he : Elected i w t) : Stock t := by
  refine hw.same he.same (fun j hr => ?_) fun j hr _ => ?_
  · by_cases hj : j = i
    · exact .inl (hj ▸ he.valid)
    · rcases he.others j hj with e | ⟨-, hv⟩
      · exact .inr (e ▸ hr)
      · exact .inl hv
  · have hj : j ≠ i := by
      rintro rfl
      rw [he.role] at hr
      cases hr
    rcases he.others j hj with e | ⟨hs, -⟩
    · exact .inl (e ▸ hr)
    · rw [hs] at hr
      cases hr

theorem Stock.stopped (hw : Stock w) (hs : Same w t) (hrole : (t.inst i).role = .dead)
    (hstop : t.runs (t.inst i).proc = true → ∀ c ∈ (t.inst i).proc.child, c ∈ t.stopped)
    (hothers : ∀ j ≠ i, t.inst j = w.inst j) : Stock t := by
  refine hw.same hs (fun j hr => .inr ?_) fun j hr hrun => ?_
  · have hj : j ≠ i := by
      rintro rfl
      exact hr hrole
    rwa [hothers j hj] at hr
  · by_cases hj : j = i
    · subst hj
      exact .inr (hstop hrun)
    · rw [hothers j hj] at hr
      exact .inl hr

theorem new_inv (config : Config) : Inv (World.new config n : World ι n) where
  stock := ⟨fun _ h => absurd rfl h, nofun, nofun, nofun, nofun, nofun, nofun⟩
  primary := fun _ => ⟨nofun, nofun⟩

/-! ## Spawning -/

section Spawning

variable [DecidableEq ι]

theorem World.Fresh.runs_old (hfresh : w.Fresh h) (hf : Fades (w.launch .rust i h) t) {h' : ProcessHandle ι}
    (hs : h' ∈ w.spawned) (hr : t.runs h' = true) : w.runs h' = true := by
  obtain ⟨-, c, hc, -, hnew⟩ := hfresh
  obtain ⟨hv, hrun⟩ := Bool.and_eq_true_iff.mp (World.runs_mono hf.running hr)
  refine Bool.and_eq_true_iff.mpr ⟨hv, ?_⟩
  have hne := hnew h' hs
  cases hch : h'.child with
  | none =>
    rw [hch] at hrun
    cases hrun
  | some c' =>
    rw [hch] at hrun hne
    rcases Bool.or_eq_true_iff.mp hrun with hold | heq
    · exact hold
    · exact absurd ((of_decide_eq_true heq).trans hc) hne

theorem Stock.lost (hw : Stock w) (hfresh : w.Fresh h) (hf : Fades (w.launch .rust i h) t) :
    Stock (t.note ⟨h, none, t.runs h⟩) := by
  have hinst : ∀ j, (t.note ⟨h, none, t.runs h⟩).inst j = w.inst j := hf.inst
  have hspawned : (t.note ⟨h, none, t.runs h⟩).spawned = h :: w.spawned := hf.spawned
  have hstopped : (t.note ⟨h, none, t.runs h⟩).stopped = w.stopped := hf.stopped
  have hfine : (t.note ⟨h, none, t.runs h⟩).Fine → w.Fine :=
    fun hfi a ha => hfi a (List.mem_cons_of_mem _ (hf.attempts ▸ ha))
  refine ⟨fun j => ?_, fun j hj => ?_, fun h' hh => ?_, fun j j' => ?_, fun j hd hr c hc => ?_, fun hfi j => ?_,
    fun hfi h' hh hr hn => ?_⟩
  · rw [hinst]
    exact hw.valid j
  · rw [hinst] at hj ⊢
    rw [hspawned]
    exact List.mem_cons_of_mem _ (hw.spawned j hj)
  · rw [hspawned] at hh
    rcases List.mem_cons.mp hh with rfl | hh
    · obtain ⟨-, c, hc, -⟩ := hfresh
      rw [hc]
      exact Option.some_ne_none c
    · exact hw.child h' hh
  · rw [hinst, hinst]
    exact hw.distinct j j'
  · rw [hinst] at hd hr hc
    rw [hstopped]
    have hs := hw.spawned j (World.runs_valid hr)
    exact hw.dead j hd (hfresh.runs_old hf hs hr) c hc
  · rw [hinst]
    exact hw.pids (hfine hfi) j
  · rw [hspawned] at hh
    rw [hstopped] at hn
    rcases List.mem_cons.mp hh with rfl | hh
    · -- the process is given up, so it does not run
      have hleft : (!t.runs h') = true := hfi _ (List.mem_cons_self ..)
      have hr' : t.runs h' = true := hr
      rw [hr'] at hleft
      cases hleft
    · obtain ⟨j, hj⟩ := hw.owned (hfine hfi) h' hh (hfresh.runs_old hf hh hr) hn
      exact ⟨j, (congrArg ManagedInstance.proc (hinst j)).trans hj⟩

/-- The instance has the new process; the one that it had before does not run, or was stopped. -/
theorem Stock.found {e : ServiceRegistry.Entry} (hw : Stock w) (hdead : (w.inst i).role = .dead) (hfresh : w.Fresh h)
    (hf : Fades (w.launch .rust i h) t) : Stock ((t.note ⟨h, some e, false⟩).register i h e) := by
  have hself : ((t.note ⟨h, some e, false⟩).register i h e).inst i =
      { t.inst i with proc := h, entry := e, role := .standby } := World.setInst_inst_self ..
  have hinst : ∀ j, j ≠ i → ((t.note ⟨h, some e, false⟩).register i h e).inst j = w.inst j :=
    fun j hj => (World.setInst_inst_of_ne _ hj).trans (hf.inst j)
  have hspawned : ((t.note ⟨h, some e, false⟩).register i h e).spawned = h :: w.spawned := hf.spawned
  have hstopped : ((t.note ⟨h, some e, false⟩).register i h e).stopped = w.stopped := hf.stopped
  have hfine : ((t.note ⟨h, some e, false⟩).register i h e).Fine → w.Fine ∧ e.pid = h.pid := by
    intro hfi
    refine ⟨fun a ha => hfi a (List.mem_cons_of_mem _ (hf.attempts ▸ ha)), ?_⟩
    exact of_decide_eq_true (hfi ⟨h, some e, false⟩ (List.mem_cons_self ..))
  have hruns : ∀ h' ∈ w.spawned, ((t.note ⟨h, some e, false⟩).register i h e).runs h' = true → w.runs h' = true :=
    fun h' hs hr => hfresh.runs_old hf hs hr
  generalize (t.note ⟨h, some e, false⟩).register i h e = u at *
  obtain ⟨hv, c₀, hc₀, -, hnew⟩ := hfresh
  -- the new process is nobody else's
  have hother : ∀ j, j ≠ i → (u.inst j).proc.valid = true → (u.inst j).proc.child ≠ h.child := by
    intro j hj hvj
    rw [hinst j hj] at hvj ⊢
    rw [hc₀]
    exact hnew _ (hw.spawned j hvj)
  refine ⟨fun j hr => ?_, fun j hj => ?_, fun h' hh => ?_, fun j j' hj hj' hch => ?_, fun j hd hr c hc => ?_,
    fun hfi j hj => ?_, fun hfi h' hh hr hn => ?_⟩
  · by_cases hji : j = i
    · subst hji
      rw [hself]
      exact hv
    · rw [hinst j hji] at hr ⊢
      exact hw.valid j hr
  · rw [hspawned]
    by_cases hji : j = i
    · subst hji
      rw [hself]
      exact List.mem_cons_self ..
    · rw [hinst j hji] at hj ⊢
      exact List.mem_cons_of_mem _ (hw.spawned j hj)
  · rw [hspawned] at hh
    rcases List.mem_cons.mp hh with rfl | hh
    · rw [hc₀]
      exact Option.some_ne_none c₀
    · exact hw.child h' hh
  · by_cases hji : j = i <;> by_cases hji' : j' = i
    · exact hji.trans hji'.symm
    · subst hji
      rw [hself] at hch
      exact absurd hch.symm (hother j' hji' hj')
    · subst hji'
      rw [hself] at hch
      exact absurd hch (hother j hji hj)
    · rw [hinst j hji] at hj hch
      rw [hinst j' hji'] at hj' hch
      exact hw.distinct j j' hj hj' hch
  · have hji : j ≠ i := by
      rintro rfl
      rw [hself] at hd
      cases hd
    rw [hinst j hji] at hd hr hc
    rw [hstopped]
    exact hw.dead j hd (hruns _ (hw.spawned j (World.runs_valid hr)) hr) c hc
  · by_cases hji : j = i
    · subst hji
      rw [hself]
      exact (hfine hfi).2.symm
    · rw [hinst j hji] at hj ⊢
      exact hw.pids (hfine hfi).1 j hj
  · rw [hspawned] at hh
    rw [hstopped] at hn
    rcases List.mem_cons.mp hh with rfl | hh
    · exact ⟨i, congrArg ManagedInstance.proc hself⟩
    · have hrw := hruns h' hh hr
      obtain ⟨j, hj⟩ := hw.owned (hfine hfi).1 h' hh hrw hn
      have hji : j ≠ i := by
        rintro rfl
        obtain ⟨c, hc⟩ := Option.ne_none_iff_exists'.mp (hw.child h' hh)
        refine hn c hc (hw.dead j hdead ?_ c ?_)
        · rw [hj]
          exact hrw
        · rw [hj]
          exact hc
      exact ⟨j, (congrArg ManagedInstance.proc (hinst j hji)).trans hj⟩

theorem Stock.spawned_dead (hw : Stock w) (hdead : (w.inst i).role = .dead) (hs : Spawned .rust i w t) :
    Stock t ∧ ((t.inst i).role = .dead ∨ (t.inst i).role = .standby) := by
  have hrole : ∀ {w₁ : World ι n}, Fades w w₁ → (w₁.inst i).role = .dead :=
    fun hf => (congrArg ManagedInstance.role (hf.inst i)).trans hdead
  cases hs with
  | failed hf => exact ⟨hw.fades hf, .inl (hrole hf)⟩
  | @lost w₁ t h h₁ hfresh h₂ =>
    have hr := hrole h₁
    have hlaunch : ((w₁.launch .rust i h).inst i).role = .dead := hr
    exact ⟨(hw.fades h₁).lost hfresh h₂, .inl ((congrArg ManagedInstance.role (h₂.inst i)).trans hlaunch)⟩
  | @found w₁ t h e h₁ hfresh h₂ =>
    exact ⟨(hw.fades h₁).found (hrole h₁) hfresh h₂,
      .inr (congrArg ManagedInstance.role (World.setInst_inst_self (t.note ⟨h, some e, false⟩) i _))⟩

end Spawning

/-! ## The operations -/

section Calls

variable [DecidableEq ι]

theorem Inv.spawned_dead (hi : Inv w) (hdead : (w.inst i).role = .dead) (hs : Spawned .rust i w t) : Inv t := by
  obtain ⟨hst, hrole⟩ := hi.stock.spawned_dead hdead hs
  obtain ⟨-, hx, -, hothers⟩ := hs.frame
  refine ⟨hst, fun j => ?_⟩
  by_cases hj : j = i
  · subst hj
    have hne : w.group.primaryIdx ≠ some j := by
      rw [Ne, ← hi.primary j, hdead]
      nofun
    rw [hx]
    refine ⟨fun hp => ?_, fun hp => absurd hp hne⟩
    rcases hrole with hd | hd
    · cases hd.symm.trans hp
    · cases hd.symm.trans hp
  · rw [hx, hothers j hj]
    exact hi.primary j

theorem respawnDead_inv (hi : Inv w) : After F (respawnDead .rust k) w fun _ t => Inv t := by
  refine .bind (.get ?_)
  split
  next =>
    refine .forM (fun _ t => Inv t) hi fun j _ t ht => ?_
    refine .bind (.get ?_)
    split
    next hd => exact .bind (spawnInstance_spec.mono fun _ u hu => .pure (ht.spawned_dead hd hu))
    next => exact .pure ht
  next => exact .pure hi

theorem electPrimary_inv (hw : Stock w) (hn : w.NoPrimary) : After F electPrimary w fun _ t => Inv t := by
  refine electPrimary_spec.mono fun b t ht => ?_
  split at ht
  next =>
    obtain ⟨i, he⟩ := ht
    refine ⟨hw.elected he, fun j => ?_⟩
    rw [he.index]
    by_cases hj : j = i
    · subst hj
      exact ⟨fun _ => rfl, fun _ => he.role⟩
    · refine ⟨fun hp => ?_, fun hp => absurd (Option.some.inj hp).symm hj⟩
      rcases he.others j hj with e | ⟨hs, -⟩
      · exact absurd (e.symm.trans hp) (hn j)
      · cases hs.symm.trans hp
  next =>
    obtain ⟨hs, hinst, hx, -, -⟩ := ht
    have hrole : ∀ j, (t.inst j).role = (w.inst j).role := fun j => congrArg ManagedInstance.role (hinst j)
    refine ⟨hw.same hs (fun j hr => .inr (hrole j ▸ hr)) fun j hr _ => .inl (hrole j ▸ hr), fun j => ?_⟩
    rw [hx]
    exact ⟨fun hp => absurd ((hrole j).symm.trans hp) (hn j), nofun⟩

theorem start_inv (hi : Inv w) (hd : ∀ i, (w.inst i).role = .dead) : After F (start .rust k) w fun _ t => Inv t := by
  refine .bind (.mono (Q := fun _ t => Stock t ∧ t.NoPrimary) ?_ fun _ t ht => electPrimary_inv ht.1 ht.2)
  refine .mono (.forM (fun l t => (Stock t ∧ t.NoPrimary) ∧ l.Nodup ∧ ∀ j ∈ l, (t.inst j).role = .dead) ?_ ?_)
    fun _ t ht => ht.1
  · refine ⟨⟨hi.stock, fun j => ?_⟩, List.nodup_finRange n, fun j _ => hd j⟩
    rw [hd j]
    nofun
  · rintro j l t ⟨⟨hst, hno⟩, hl, hdead⟩
    obtain ⟨hjl, hl'⟩ := List.nodup_cons.mp hl
    refine .bind (spawnInstance_spec.mono fun _ u hu => .pure ?_)
    obtain ⟨hst', hrole⟩ := hst.spawned_dead (hdead j (List.mem_cons_self ..)) hu
    obtain ⟨-, -, -, hothers⟩ := hu.frame
    refine ⟨⟨hst', fun x => ?_⟩, hl', fun x hx => ?_⟩
    · by_cases hxj : x = j
      · subst hxj
        rcases hrole with hd | hd
        · rw [hd]
          nofun
        · rw [hd]
          nofun
      · rw [hothers x hxj]
        exact hno x
    · have hxj : x ≠ j := fun e => hjl (e ▸ hx)
      rw [hothers x hxj]
      exact hdead x (List.mem_cons_of_mem _ hx)

theorem healthCheck_inv (hi : Inv w) : After F (healthCheck .rust k) w fun _ t => Inv t := by
  refine .bind ((markAll_spec _ (List.nodup_finRange n)).mono ?_)
  rintro b t ⟨hm, hdead, hkept, -⟩
  have hst := hi.stock.marked hm
  -- whoever is primary after the marking was so before
  have hback : ∀ j, (t.inst j).role = .primary → w.group.primaryIdx = some j := by
    intro j hp
    rcases hm.roles j with e | ⟨hd, -⟩
    · exact (hi.primary j).mp (e.symm.trans hp)
    · cases hd.symm.trans hp
  cases b with
  | false =>
    refine .bind (.mono (respawnDead_inv ⟨hst, fun j => ?_⟩) fun _ u hu => .pure hu)
    rw [hm.index]
    exact ⟨hback j, fun hp => hkept rfl j (List.mem_finRange j) ((hi.primary j).mpr hp)⟩
  | true =>
    obtain ⟨i, hp, hd⟩ := hdead rfl
    have hno : t.NoPrimary := by
      intro j hj
      cases (hback j hj).symm.trans ((hi.primary i).mp hp)
      cases hd.symm.trans hj
    refine .bind ((electPrimary_inv hst hno).mono fun b u hu => ?_)
    rw [if_neg (by rintro ⟨h, -⟩; cases h)]
    exact .bind ((respawnDead_inv hu).mono fun _ x hx => .pure hx)

theorem forceFailover_inv (hi : Inv w) : After F (forceFailover .rust k) w fun _ t => Inv t := by
  refine .bind (.get ?_)
  split
  next i hx =>
    refine .bind (stopInstance_spec.mono ?_)
    rintro _ t ⟨hs, -, -, hrole, hstop, hothers⟩
    have hno : t.NoPrimary := by
      intro j hj
      by_cases hji : j = i
      · subst hji
        cases hrole.symm.trans hj
      · rw [hothers j hji, hi.primary j, hx] at hj
        exact hji (Option.some.inj hj).symm
    refine .bind ((electPrimary_inv (hi.stock.stopped hs hrole hstop hothers) hno).mono fun _ u hu => ?_)
    exact .bind ((respawnDead_inv hu).mono fun _ x hx => .pure hx)
  next hx =>
    have hno : w.NoPrimary := by
      intro j hj
      rw [hi.primary j, hx] at hj
      cases hj
    rw [if_neg nofun]
    refine .bind ((electPrimary_inv hi.stock hno).mono fun _ u hu => ?_)
    exact .bind ((respawnDead_inv hu).mono fun _ x hx => .pure hx)

theorem stop_inv (hi : Inv w) : After F stop w fun _ t => Inv t := by
  refine .bind (.mono (.forM (fun l t => Stock t ∧ ∀ j, j ∉ l → (t.inst j).role = .dead) ?_ ?_) fun _ t ht => .modify ?_)
  · exact ⟨hi.stock, fun j hj => absurd (List.mem_finRange j) hj⟩
  · rintro j l t ⟨hst, hdead⟩
    refine stopInstance_spec.mono ?_
    rintro _ u ⟨hs, -, -, hrole, hstop, hothers⟩
    refine ⟨hst.stopped hs hrole hstop hothers, fun x hx => ?_⟩
    by_cases hxj : x = j
    · exact hxj ▸ hrole
    · rw [hothers x hxj]
      refine hdead x fun h => ?_
      rcases List.mem_cons.mp h with e | h
      · exact hxj e
      · exact hx h
  · refine ⟨{ ht.1 with }, fun j => ⟨fun hp => ?_, nofun⟩⟩
    cases (ht.2 j List.not_mem_nil).symm.trans hp

theorem step_inv {a : Act ι} (hi : Inv w) (hok : FromDead w a) (hst : step .rust w a = some t) : Inv t := by
  refine step_after ?_ hst
  obtain ⟨⟨c, k, es⟩, rfl⟩ : ∃ a', a = a' := ⟨a, rfl⟩
  cases c with
  | start => exact .bind ((start_inv hi (hok rfl)).mono fun _ t ht => .pure ht)
  | healthCheck => exact .bind ((healthCheck_inv hi).mono fun _ t ht => .pure ht)
  | forceFailover => exact .bind ((forceFailover_inv hi).mono fun _ t ht => .pure ht)
  | stop => exact stop_inv hi

end Calls

def entryOf (pid : Int) : ServiceRegistry.Entry := { ServiceRegistry.Entry.zeroed with pid := pid }

/-- Only the first of two instances can be spawned. -/
def startFirst : Act (Fin 2) :=
  ⟨.start, 1, [.spawn [] (some (1, 0)), .find [] (some (entryOf 1)), .spawn [] none, .look [], .look []]⟩

/-- A process that runs, was not stopped, and has the pid of no instance. -/
def World.forgets {ι : Type} [DecidableEq ι] {n : Nat} (w : World ι n) : Bool :=
  w.spawned.any fun h => w.runs h && decide (∀ c ∈ h.child, c ∉ w.stopped) &&
    (List.finRange n).all fun i => (w.inst i).proc.pid != h.pid

theorem World.forgets_books {ι : Type} [DecidableEq ι] {n : Nat} {w : World ι n} (h : w.forgets = true) : ¬ Books w := by
  intro hb
  obtain ⟨x, hx, hp⟩ := List.any_eq_true.mp h
  simp only [Bool.and_eq_true, decide_eq_true_eq, List.all_eq_true, bne_iff_ne] at hp
  obtain ⟨i, hi, -⟩ := hb.procs x hx hp.1.1 hp.1.2
  exact hp.2 i (List.mem_finRange i) (congrArg ProcessHandle.pid hi)

end ThothIpc.ServiceGroup.History
