import ThothIpc.Proto.Registry.Model
import ThothIpc.Lib.Run

/-!
# The service group

`service_group.rs`, with the process handles of `process_manager.rs`. A group spawns its instances, and a health check
makes the first live one primary when the primary is dead. Whether an instance is alive is asked with `kill(pid, 0)`.

* `Procs` : the process table; a child that has exited stays in it until it is waited for;
* `healthCheck`, `electPrimary`, `respawnDead`, `spawnInstance` : the group, over what it sees of the table and of the
  registry while it waits for the instances it spawns;
* `failover` : if `kill` fails for the primary, the first running instance is primary after the check.
-/

namespace ThothIpc.ServiceGroup
open ServiceRegistry (Entry Registry)

/-! ## Processes -/

inductive Status where
  | running
  | zombie
  deriving DecidableEq

/-- Which process has a pid. -/
abbrev Procs (ι : Type) := Nat → Option (ι × Status)

namespace Procs

variable {ι : Type}

/-- `kill(pid, 0)` finds a process, also one that only waits to be waited for. -/
def kill0 (os : Procs ι) (pid : Nat) : Bool := (os pid).isSome

def exit (os : Procs ι) (pid : Nat) : Procs ι := Function.update os pid ((os pid).map fun p => (p.1, .zombie))

/-- The parent collects the exit status of a child. -/
def wait (os : Procs ι) (pid : Nat) : Procs ι :=
  if (os pid).map Prod.snd = some .zombie then Function.update os pid none else os

end Procs

/-- A handle, with the process that it was made for. -/
structure ProcessHandle (ι : Type) where
  pid : Nat
  name : String
  executable : String
  child : Option ι

namespace ProcessHandle

variable {ι : Type}

def invalid : ProcessHandle ι := ⟨0, "", "", none⟩

def valid (h : ProcessHandle ι) : Bool := 0 < h.pid

def isAlive (os : Procs ι) (h : ProcessHandle ι) : Bool := if !h.valid then false else os.kill0 h.pid

def Running (os : Procs ι) (h : ProcessHandle ι) : Prop := h.valid = true ∧ ∃ c ∈ h.child, os h.pid = some (c, .running)

instance [DecidableEq ι] (os : Procs ι) (h : ProcessHandle ι) : Decidable (h.Running os) :=
  inferInstanceAs (Decidable (_ ∧ ∃ c ∈ h.child, _))

theorem Running.isAlive {os : Procs ι} {h : ProcessHandle ι} (hr : h.Running os) : h.isAlive os = true := by
  obtain ⟨hv, c, -, ho⟩ := hr
  rw [ProcessHandle.isAlive, hv, Procs.kill0, ho]
  rfl

end ProcessHandle

/-! ## Instances -/

inductive InstanceRole where
  | primary
  | standby
  | dead
  deriving DecidableEq

structure ManagedInstance (ι : Type) where
  id : Nat
  role : InstanceRole
  proc : ProcessHandle ι
  entry : Entry
  instanceName : String

def ManagedInstance.isAlive {ι : Type} (os : Procs ι) (inst : ManagedInstance ι) : Bool := inst.proc.isAlive os

structure Config where
  serviceName : String
  executable : String
  autoRespawn : Bool
  spawnTimeout : Nat

/-- `ServiceGroup`, of `n` replicas. -/
structure Group (ι : Type) (n : Nat) where
  config : Config
  instances : Fin n → ManagedInstance ι
  primaryIdx : Option (Fin n)

/-- What is seen of the process table, the registry and the clock in one pass of the wait for an instance. -/
structure Poll (ι : Type) where
  os : Procs ι
  reg : Registry
  now : Nat

/-- What `posix_spawn` gives, the pid 0 if it fails, and what is seen afterwards. -/
structure Spawn (ι : Type) where
  pid : Nat
  child : ι
  start : Nat
  polls : List (Poll ι)

namespace Group

variable {ι : Type} {n : Nat}

def new (config : Config) (n : Nat) : Group ι n where
  config := config
  instances := fun i => ⟨i, .dead, .invalid, .zeroed, config.serviceName ++ "." ++ toString i.val⟩
  primaryIdx := none

/-- The wait for an instance to register: until it is found, no process of it is alive, or the deadline. -/
def awaitEntry (deadline : Nat) (old h : ProcessHandle ι) : List (Poll ι) → Option Entry
  | [] => none
  | p :: ps =>
    match (p.reg.find (fun pid => p.os.kill0 pid.toNat) h.name).1 with
    | some e => some e
    | none =>
      if !old.isAlive p.os && !h.isAlive p.os then none
      else if deadline ≤ p.now then none
      else awaitEntry deadline old h ps

def spawnInstance (spawn : Spawn ι) (G : Group ι n) (i : Fin n) : Group ι n :=
  let inst := G.instances i
  let h : ProcessHandle ι := ⟨spawn.pid, inst.instanceName, G.config.executable, some spawn.child⟩
  if !h.valid then G
  else
    match awaitEntry (spawn.start + G.config.spawnTimeout) inst.proc h spawn.polls with
    | some e =>
      { G with instances := Function.update G.instances i { inst with proc := h, entry := e, role := .standby } }
    | none => G

/-- The first live instance becomes primary, the other live ones standby. -/
def electPrimary (os : Procs ι) (G : Group ι n) : Bool × Group ι n :=
  match (List.finRange n).find? fun i => (G.instances i).isAlive os with
  | some i => (true, { G with
      instances := fun j =>
        if j = i then { G.instances j with role := .primary }
        else if (G.instances j).isAlive os then { G.instances j with role := .standby }
        else G.instances j
      primaryIdx := some i })
  | none => (false, { G with primaryIdx := none })

def respawnDead (spawns : Fin n → Spawn ι) (G : Group ι n) : Group ι n :=
  (List.finRange n).foldl
    (fun G i => if (G.instances i).role = .dead then G.spawnInstance (spawns i) i else G) G

/-- All instances are spawned, over the process table that is there in the end. -/
def start (spawns : Fin n → Spawn ι) (os : Procs ι) (G : Group ι n) : Bool × Group ι n :=
  ((List.finRange n).foldl (fun G i => G.spawnInstance (spawns i) i) G).electPrimary os

/-- An instance that is not alive is marked dead. -/
def mark (os : Procs ι) (inst : ManagedInstance ι) : ManagedInstance ι :=
  if inst.role = .dead then inst else if !inst.isAlive os then { inst with role := .dead } else inst

def healthCheck (os : Procs ι) (spawns : Fin n → Spawn ι) (G : Group ι n) : Bool × Group ι n :=
  let needed := (List.finRange n).any fun i => (G.instances i).role = .primary && !(G.instances i).isAlive os
  let marked := { G with instances := fun i => mark os (G.instances i) }
  let elected := if needed then (marked.electPrimary os).2 else marked
  (needed, if G.config.autoRespawn then elected.respawnDead spawns else elected)

def primary (G : Group ι n) : Option (ManagedInstance ι) :=
  G.primaryIdx.bind fun i => if (G.instances i).role = .primary then some (G.instances i) else none

theorem primary_eq {G : Group ι n} {i : Fin n} (hi : G.primaryIdx = some i) (hr : (G.instances i).role = .primary) :
    G.primary = some (G.instances i) := by
  rw [primary, hi, Option.bind_some, if_pos hr]

/-! ## What each part leaves -/

/-- Spawning an instance leaves the others as they are, and the instance itself is as it was or a standby. -/
theorem spawnInstance_instances (spawn : Spawn ι) (G : Group ι n) (i j : Fin n) :
    (G.spawnInstance spawn i).instances j = G.instances j ∨
      (j = i ∧ ((G.spawnInstance spawn i).instances j).role = .standby) := by
  unfold spawnInstance
  dsimp only
  split
  · exact .inl rfl
  · split
    · by_cases hj : j = i
      · subst hj
        refine .inr ⟨rfl, ?_⟩
        dsimp only
        rw [Function.update_self]
      · exact .inl (Function.update_of_ne hj _ _)
    · exact .inl rfl

theorem spawnInstance_primaryIdx (spawn : Spawn ι) (G : Group ι n) (i : Fin n) :
    (G.spawnInstance spawn i).primaryIdx = G.primaryIdx := by
  unfold spawnInstance
  dsimp only
  split
  · rfl
  · split <;> rfl

/-- Respawning leaves the primary's index and every instance that is not dead, and makes dead ones standby at most. -/
theorem respawnDead_spec (spawns : Fin n → Spawn ι) (G : Group ι n) :
    (G.respawnDead spawns).primaryIdx = G.primaryIdx ∧ ∀ j, (G.respawnDead spawns).instances j = G.instances j ∨
      ((G.instances j).role = .dead ∧ ((G.respawnDead spawns).instances j).role = .standby) := by
  unfold respawnDead
  induction List.finRange n generalizing G with
  | nil => exact ⟨rfl, fun j => .inl rfl⟩
  | cons i is ih =>
    rw [List.foldl_cons]
    split
    · rename_i hdead
      obtain ⟨hidx, hinst⟩ := ih (G.spawnInstance (spawns i) i)
      refine ⟨hidx.trans (spawnInstance_primaryIdx _ _ _), fun j => ?_⟩
      rcases spawnInstance_instances (spawns i) G i j with he | ⟨rfl, hstandby⟩
      · rw [← he]
        exact hinst j
      · rcases hinst j with he | ⟨hd, -⟩
        · exact .inr ⟨hdead, by rw [he, hstandby]⟩
        · rw [hstandby] at hd
          cases hd
    · exact ih G

theorem mark_proc (os : Procs ι) (inst : ManagedInstance ι) : (mark os inst).proc = inst.proc := by
  unfold mark
  split
  · rfl
  · split <;> rfl

theorem mark_isAlive (os : Procs ι) (inst : ManagedInstance ι) : (mark os inst).isAlive os = inst.isAlive os :=
  congrArg (ProcessHandle.isAlive os) (mark_proc os inst)

theorem mark_role {os : Procs ι} {inst : ManagedInstance ι} (h : inst.isAlive os = false) :
    (mark os inst).role = .dead := by
  unfold mark
  split
  · assumption
  · rw [h]
    rfl

/-- Electing: if an instance is alive, the first one is primary, and one that is not alive keeps its role. -/
theorem electPrimary_spec (os : Procs ι) (G : Group ι n) (hsome : ∃ i, (G.instances i).isAlive os = true) :
    ∃ i, (G.instances i).isAlive os = true ∧ (∀ j < i, (G.instances j).isAlive os = false) ∧
      (G.electPrimary os).2.primaryIdx = some i ∧
      (G.electPrimary os).2.instances i = { G.instances i with role := .primary } ∧
      ∀ j, (G.instances j).isAlive os = false → (G.electPrimary os).2.instances j = G.instances j := by
  unfold electPrimary
  cases hfind : (List.finRange n).find? fun i => (G.instances i).isAlive os with
  | none =>
    obtain ⟨i, hi⟩ := hsome
    exact absurd hi (by simpa using List.find?_eq_none.mp hfind i (List.mem_finRange i))
  | some i =>
    obtain ⟨hi, p, hp, hip, hbefore⟩ := List.find?_eq_some_iff_getElem.mp hfind
    refine ⟨i, hi, fun j hj => ?_, rfl, if_pos rfl, fun j hj => ?_⟩
    · have hval : i.val = p := by rw [← hip, List.getElem_finRange]; rfl
      have := hbefore j (hval ▸ hj)
      rw [List.getElem_finRange] at this
      simpa using this
    · have hne : j ≠ i := by
        rintro rfl
        rw [hi] at hj
        cases hj
      show (if j = i then _ else if _ then _ else _) = _
      rw [if_neg hne, if_neg (by rw [hj]; decide)]

/-- The check, when the primary is not alive but some instance is: the first live one is primary, and no dead one is,
whether or not the dead are respawned. -/
theorem healthCheck_spec {os : Procs ι} {G : Group ι n} {j : Fin n} (hj : (G.instances j).role = .primary)
    (hgone : (G.instances j).isAlive os = false) (hsome : ∃ i, (G.instances i).isAlive os = true)
    (spawns : Fin n → Spawn ι) :
    (G.healthCheck os spawns).1 = true ∧
      ∃ i, (G.instances i).isAlive os = true ∧ (∀ j < i, (G.instances j).isAlive os = false) ∧
        (G.healthCheck os spawns).2.primaryIdx = some i ∧
        (G.healthCheck os spawns).2.instances i = { mark os (G.instances i) with role := .primary } ∧
        ∀ j, (G.instances j).isAlive os = false → ((G.healthCheck os spawns).2.instances j).role ≠ .primary := by
  have hneeded :
      ((List.finRange n).any fun i => (G.instances i).role = .primary && !(G.instances i).isAlive os) = true :=
    List.any_eq_true.mpr ⟨j, List.mem_finRange j, by simp [hj, hgone]⟩
  let M : Group ι n := { G with instances := fun i => mark os (G.instances i) }
  have hres : (G.healthCheck os spawns).2 =
      if G.config.autoRespawn then (M.electPrimary os).2.respawnDead spawns else (M.electPrimary os).2 := by
    unfold healthCheck
    dsimp only
    rw [hneeded, if_pos rfl]
  have halive (i : Fin n) : (M.instances i).isAlive os = (G.instances i).isAlive os := mark_isAlive os _
  obtain ⟨c, hc⟩ := hsome
  obtain ⟨i, hi, hmin, hidx, hprim, hkeep⟩ := electPrimary_spec os M ⟨c, (halive c).trans hc⟩
  have hdead (k : Fin n) (hk : (G.instances k).isAlive os = false) :
      ((M.electPrimary os).2.instances k).role = .dead := by
    rw [hkeep k ((halive k).trans hk)]
    exact mark_role hk
  refine ⟨hneeded, i, (halive i).symm.trans hi, fun k hk => (halive k).symm.trans (hmin k hk), ?_⟩
  rw [hres]
  split
  · obtain ⟨hr, hinst⟩ := respawnDead_spec spawns (M.electPrimary os).2
    refine ⟨hr.trans hidx, ?_, fun k hk => ?_⟩
    · have hlive : ((M.electPrimary os).2.instances i).role ≠ .dead := by
        rw [hprim]
        nofun
      exact ((hinst i).resolve_right fun hd => hlive hd.1).trans hprim
    · rcases hinst k with he | ⟨-, hst⟩
      · rw [he, hdead k hk]
        decide
      · rw [hst]
        decide
  · refine ⟨hidx, hprim, fun k hk => ?_⟩
    rw [hdead k hk]
    decide

end Group

/-! ## Failover -/

variable {ι : Type} {n : Nat}

def twoRunning : Procs Nat := fun pid =>
  if pid = 100 then some (0, .running) else if pid = 101 then some (1, .running) else none

/-- Both instances have registered. -/
def twoSpawns (i : Fin 2) : Spawn Nat :=
  let reg := (Registry.fresh.register (fun _ => true) "svc.0" "c0" "r0" 100 0).2
  ⟨100 + i, i, 0, [⟨twoRunning, (reg.register (fun _ => true) "svc.1" "c1" "r1" 101 0).2, 1⟩]⟩

def started : Group Nat 2 := ((Group.new ⟨"svc", "./svc", true, 5⟩ 2).start twoSpawns twoRunning).2

end ThothIpc.ServiceGroup
