import ThothIpc.Proto.Group
import ThothIpc.Lib.Prog

/-!
# The service group over whole histories

The operations of a service group, in Rust and in C++, with processes that may exit at any time, also while an operation
is under way. `is_alive` is exact here: it tells whether the process that was spawned is running.

* `World` : the group, the running processes, and what has happened so far (spawns, stops, the last election);
* `Event` : which processes have exited before the group looks, and what a spawn, a lookup or the clock gives;
* `start`, `healthCheck`, `forceFailover`, `stop` : the operations of the source;
* `Fades`, `Same` : what a look at the processes leaves, and what only concerns roles leaves;
* `spawnInstance_spec`, `electPrimary_spec`, `markAll_spec`, `stopInstance_spec` : what each part does.

A lookup in the registry may give any entry, or none.
-/

namespace ThothIpc.ServiceGroup.History
open ServiceRegistry (Entry)
open Prog

/-! ## The world -/

/-- The language of the group: C++ stores the handle of a new process before it has registered, gives up after an
election without a live instance, and forces no failover without a primary. -/
inductive Port where
  | rust
  | cxx
  deriving DecidableEq, Repr

/-- A process that was spawned, the entry found for it, and otherwise whether it was running when the wait for it ended.
-/
structure Attempt (ι : Type) where
  handle : ProcessHandle ι
  entry : Option Entry
  left : Bool

/-- `stopped` : the processes that were shut down or killed; `election` : the instance elected last, and whether its
process was running then. -/
structure World (ι : Type) (n : Nat) where
  group : Group ι n
  running : ι → Bool
  spawned : List (ProcessHandle ι)
  stopped : List ι
  election : Option (Fin n × Bool)
  attempts : List (Attempt ι)

/-- What the environment does: `deaths` exit, and then the group looks at a process, spawns one, looks an instance up,
looks at the clock, or waits for an exit. -/
inductive Event (ι : Type) where
  | look (deaths : List ι)
  | spawn (deaths : List ι) (r : Option (Nat × ι))
  | find (deaths : List ι) (r : Option Entry)
  | clock (late : Bool)
  | exits (deaths : List ι)

/-- A configuration with automatic respawning. -/
def plain : Config := { serviceName := "s", executable := "x", autoRespawn := true, spawnTimeout := 5000 }

namespace World

variable {ι : Type} {n : Nat}

def new (config : Config) (n : Nat) : World ι n where
  group := Group.new config n
  running := fun _ => false
  spawned := []
  stopped := []
  election := none
  attempts := []

def inst (w : World ι n) (i : Fin n) : ManagedInstance ι := w.group.instances i

def setInst (w : World ι n) (i : Fin n) (inst : ManagedInstance ι) : World ι n :=
  { w with group := { w.group with instances := Function.update w.group.instances i inst } }

def setRole (w : World ι n) (i : Fin n) (role : InstanceRole) : World ι n := w.setInst i { w.inst i with role := role }

def setPrimary (w : World ι n) (i : Option (Fin n)) : World ι n := { w with group := { w.group with primaryIdx := i } }

/-- The process of the handle is running. -/
def runs (w : World ι n) (h : ProcessHandle ι) : Bool := h.valid && h.child.any w.running

def note (w : World ι n) (a : Attempt ι) : World ι n := { w with attempts := a :: w.attempts }

/-- The instance is found: it is a standby now. -/
def register (w : World ι n) (i : Fin n) (h : ProcessHandle ι) (e : Entry) : World ι n :=
  w.setInst i { w.inst i with proc := h, entry := e, role := .standby }

variable [DecidableEq ι]

def die (w : World ι n) (deaths : List ι) : World ι n := { w with running := fun c => w.running c && c ∉ deaths }

/-- A new process runs; C++ stores its handle at once. -/
def launch (w : World ι n) (port : Port) (i : Fin n) (h : ProcessHandle ι) : World ι n :=
  let w' := { w with running := fun c => w.running c || some c = h.child, spawned := h :: w.spawned }
  if port = .cxx then w'.setInst i { w'.inst i with proc := h } else w'

/-- The process is a new one. -/
def Fresh (w : World ι n) (h : ProcessHandle ι) : Prop :=
  h.valid = true ∧ ∃ c, h.child = some c ∧ w.running c = false ∧ ∀ h' ∈ w.spawned, h'.child ≠ some c

end World

/-! ## What the group asks for -/

section Operations

variable {ι : Type} [DecidableEq ι] {n : Nat}

/-- `ProcessHandle::is_alive`. -/
def isAlive (h : ProcessHandle ι) : Prog (World ι n) (Event ι) Bool := do
  match ← ask with
  | .look deaths =>
    modify (·.die deaths)
    return (← get).runs h
  | _ => impossible

def aliveAt (i : Fin n) : Prog (World ι n) (Event ι) Bool := do
  isAlive ((← get).inst i).proc

/-- `spawn` of `process_manager.rs`; a process that it starts is a new one. -/
def spawn (port : Port) (i : Fin n) : Prog (World ι n) (Event ι) (Option (ProcessHandle ι)) := do
  match ← ask with
  | .spawn deaths r =>
    modify (·.die deaths)
    match r with
    | none => return none
    | some (pid, c) =>
      let w ← get
      let h : ProcessHandle ι := ⟨pid, (w.inst i).instanceName, w.group.config.executable, some c⟩
      if pid = 0 ∨ w.running c = true ∨ ∃ h' ∈ w.spawned, h'.child = some c then impossible
      else
        modify (·.launch port i h)
        return some h
  | _ => impossible

/-- `registry.find`. -/
def find : Prog (World ι n) (Event ι) (Option Entry) := do
  match ← ask with
  | .find deaths r =>
    modify (·.die deaths)
    return r
  | _ => impossible

/-- Whether the deadline has passed. -/
def late : Prog (World ι n) (Event ι) Bool := do
  match ← ask with
  | .clock b => return b
  | _ => impossible

/-- `shutdown`, or `force_kill` and `wait_for_exit`: what has exited when the group goes on. -/
def terminate (i : Fin n) : Prog (World ι n) (Event ι) Unit := do
  modify fun w => { w with stopped := (w.inst i).proc.child.toList ++ w.stopped }
  match ← ask with
  | .exits deaths => modify (·.die deaths)
  | _ => impossible

/-! ## The operations -/

/-- One turn of the wait for an instance to register: found, given up, or once more. -/
def awaitTurn (port : Port) (i : Fin n) (h : ProcessHandle ι) : Prog (World ι n) (Event ι) (Option (Option Entry)) := do
  match port with
  | .rust =>
    match ← find with
    | some e => return some (some e)
    | none =>
      if ← aliveAt i then
        if ← late then return some none else return none
      else if ← isAlive h then
        if ← late then return some none else return none
      else return some none
  | .cxx =>
    if ← late then return some none
    else
      match ← find with
      | some e => return some (some e)
      | none => if ← isAlive h then return none else return some none

/-- With at most `k` turns of the wait. -/
def spawnInstance (port : Port) (k : Nat) (i : Fin n) : Prog (World ι n) (Event ι) Bool := do
  match ← spawn port i with
  | none => return false
  | some h =>
    match ← untilSome (awaitTurn port i h) k with
    | some e =>
      modify fun w => (w.note ⟨h, some e, false⟩).register i h e
      return true
    | none =>
      modify fun w => w.note ⟨h, none, w.runs h⟩
      return false

/-- The live ones of the others become standby. -/
def demote (i j : Fin n) : Prog (World ι n) (Event ι) Unit := do
  if j = i then return ()
  else if ← aliveAt j then modify (·.setRole j .standby) else return ()

/-- The first live instance of the list becomes primary. -/
def electFrom : List (Fin n) → Prog (World ι n) (Event ι) Bool
  | [] => return false
  | i :: is => do
      if ← aliveAt i then
        modify fun w => { (w.setRole i .primary).setPrimary (some i) with election := some (i, w.runs (w.inst i).proc) }
        (List.finRange n).forM (demote i)
        return true
      else electFrom is

def electPrimary : Prog (World ι n) (Event ι) Bool := do
  modify fun w => { w.setPrimary none with election := none }
  electFrom (List.finRange n)

def respawn (port : Port) (k : Nat) (i : Fin n) : Prog (World ι n) (Event ι) Unit := do
  if ((← get).inst i).role = .dead then
    let _ ← spawnInstance port k i
    return ()
  else return ()

def respawnDead (port : Port) (k : Nat) : Prog (World ι n) (Event ι) Unit := do
  if (← get).group.config.autoRespawn then (List.finRange n).forM (respawn port k) else return ()

def start (port : Port) (k : Nat) : Prog (World ι n) (Event ι) Bool := do
  (List.finRange n).forM fun i => do
    let _ ← spawnInstance port k i
    return ()
  electPrimary

/-- An instance that is not alive is marked dead; whether it was primary. -/
def mark (i : Fin n) : Prog (World ι n) (Event ι) Bool := do
  let w ← get
  if (w.inst i).role = .dead then return false
  else if ← aliveAt i then return false
  else
    modify (·.setRole i .dead)
    return (w.inst i).role = .primary

def markAll : List (Fin n) → Prog (World ι n) (Event ι) Bool
  | [] => return false
  | i :: is => do
      let b ← mark i
      let b' ← markAll is
      return b || b'

def healthCheck (port : Port) (k : Nat) : Prog (World ι n) (Event ι) Bool := do
  if ← markAll (List.finRange n) then
    let ok ← electPrimary
    if port = .cxx ∧ ok = false then return true
    else
      respawnDead port k
      return true
  else
    respawnDead port k
    return false

def terminateLive (i : Fin n) : Prog (World ι n) (Event ι) Unit := do
  if ← aliveAt i then terminate i else return ()

def stopInstance (i : Fin n) : Prog (World ι n) (Event ι) Unit := do
  terminateLive i
  modify (·.setRole i .dead)

def forceFailover (port : Port) (k : Nat) : Prog (World ι n) (Event ι) Bool := do
  match (← get).group.primaryIdx with
  | some i =>
    stopInstance i
    let ok ← electPrimary
    respawnDead port k
    return ok
  | none =>
    if port = .cxx then return false
    else
      let ok ← electPrimary
      respawnDead port k
      return ok

def stop : Prog (World ι n) (Event ι) Unit := do
  (List.finRange n).forM stopInstance
  modify (·.setPrimary none)

inductive Call where
  | start
  | healthCheck
  | forceFailover
  | stop
  deriving DecidableEq, Repr

def Call.prog (port : Port) (k : Nat) : Call → Prog (World ι n) (Event ι) Unit
  | .start => do let _ ← History.start port k
  | .healthCheck => do let _ ← History.healthCheck port k
  | .forceFailover => do let _ ← History.forceFailover port k
  | .stop => History.stop

/-- A call with what happens in its course. -/
structure Act (ι : Type) where
  call : Call
  turns : Nat
  answers : List (Event ι)

def step (port : Port) (w : World ι n) (a : Act ι) : Option (World ι n) :=
  ((a.call.prog port a.turns).result w a.answers).map Prod.snd

end Operations

/-! ## What a look at the processes leaves -/

/-- Processes have exited, and nothing else has changed. -/
structure Fades {ι : Type} {n : Nat} (w t : World ι n) : Prop where
  group : t.group = w.group
  running : ∀ c, t.running c = true → w.running c = true
  spawned : t.spawned = w.spawned
  stopped : t.stopped = w.stopped
  election : t.election = w.election
  attempts : t.attempts = w.attempts

/-- Processes have exited, roles and the primary have changed, and nothing else. -/
structure Same {ι : Type} {n : Nat} (w t : World ι n) : Prop where
  config : t.group.config = w.group.config
  inst : ∀ i, ∃ role, t.inst i = { w.inst i with role := role }
  running : ∀ c, t.running c = true → w.running c = true
  spawned : t.spawned = w.spawned
  stopped : ∀ c ∈ w.stopped, c ∈ t.stopped
  attempts : t.attempts = w.attempts

/-- What marking leaves: whoever does not run may be marked dead. -/
structure Marked {ι : Type} {n : Nat} (w t : World ι n) : Prop where
  same : Same w t
  index : t.group.primaryIdx = w.group.primaryIdx
  election : t.election = w.election
  roles : ∀ i, (t.inst i).role = (w.inst i).role ∨
    ((t.inst i).role = .dead ∧ t.runs (t.inst i).proc = false)

section Relations

variable {ι : Type} {n : Nat} {w t u : World ι n} {h : ProcessHandle ι} {i j : Fin n}

theorem World.runs_valid (hr : w.runs h = true) : h.valid = true := (Bool.and_eq_true_iff.mp hr).1

theorem World.runs_mono (hr : ∀ c, t.running c = true → w.running c = true) (ht : t.runs h = true) :
    w.runs h = true := by
  obtain ⟨hv, hc⟩ := Bool.and_eq_true_iff.mp ht
  refine Bool.and_eq_true_iff.mpr ⟨hv, ?_⟩
  cases hch : h.child with
  | none =>
    rw [hch] at hc
    exact hc
  | some c =>
    rw [hch] at hc
    exact hr c hc

@[simp] theorem World.setInst_inst_self (w : World ι n) (i : Fin n) (x : ManagedInstance ι) :
    (w.setInst i x).inst i = x :=
  Function.update_self ..

@[simp] theorem World.setInst_inst_of_ne (x : ManagedInstance ι) (hj : j ≠ i) : (w.setInst i x).inst j = w.inst j :=
  Function.update_of_ne hj ..

@[simp] theorem World.setRole_role_self (w : World ι n) (i : Fin n) (r : InstanceRole) :
    ((w.setRole i r).inst i).role = r := by
  simp [World.setRole]

@[simp] theorem World.setRole_inst_of_ne (r : InstanceRole) (hj : j ≠ i) : (w.setRole i r).inst j = w.inst j :=
  World.setInst_inst_of_ne _ hj

theorem Fades.refl (w : World ι n) : Fades w w := ⟨rfl, fun _ => id, rfl, rfl, rfl, rfl⟩

theorem Fades.trans (h₁ : Fades w t) (h₂ : Fades t u) : Fades w u where
  group := h₂.group.trans h₁.group
  running := fun c hc => h₁.running c (h₂.running c hc)
  spawned := h₂.spawned.trans h₁.spawned
  stopped := h₂.stopped.trans h₁.stopped
  election := h₂.election.trans h₁.election
  attempts := h₂.attempts.trans h₁.attempts

theorem Fades.inst (h : Fades w t) (i : Fin n) : t.inst i = w.inst i := congrArg (Group.instances · i) h.group

theorem Fades.index (h : Fades w t) : t.group.primaryIdx = w.group.primaryIdx := congrArg Group.primaryIdx h.group

theorem Fades.same (h : Fades w t) : Same w t where
  config := congrArg Group.config h.group
  inst := fun i => ⟨(w.inst i).role, h.inst i⟩
  running := h.running
  spawned := h.spawned
  stopped := fun _ hc => h.stopped ▸ hc
  attempts := h.attempts

theorem Same.refl (w : World ι n) : Same w w := (Fades.refl w).same

theorem Same.trans (h₁ : Same w t) (h₂ : Same t u) : Same w u where
  config := h₂.config.trans h₁.config
  inst := fun i => by
    obtain ⟨r₁, e₁⟩ := h₁.inst i
    obtain ⟨r₂, e₂⟩ := h₂.inst i
    exact ⟨r₂, by rw [e₂, e₁]⟩
  running := fun c hc => h₁.running c (h₂.running c hc)
  spawned := h₂.spawned.trans h₁.spawned
  stopped := fun c hc => h₂.stopped c (h₁.stopped c hc)
  attempts := h₂.attempts.trans h₁.attempts

theorem Same.proc (h : Same w t) (i : Fin n) : (t.inst i).proc = (w.inst i).proc := by
  obtain ⟨r, e⟩ := h.inst i
  rw [e]

theorem Same.entry (h : Same w t) (i : Fin n) : (t.inst i).entry = (w.inst i).entry := by
  obtain ⟨r, e⟩ := h.inst i
  rw [e]

theorem Same.setRole (w : World ι n) (i : Fin n) (r : InstanceRole) : Same w (w.setRole i r) where
  config := rfl
  inst := fun j => by
    by_cases e : j = i
    · subst e
      exact ⟨r, World.setInst_inst_self ..⟩
    · exact ⟨(w.inst j).role, World.setInst_inst_of_ne _ e⟩
  running := fun _ => id
  spawned := rfl
  stopped := fun _ => id
  attempts := rfl

theorem Same.not_runs (h : Same w t) (hn : w.runs (w.inst i).proc = false) : t.runs (t.inst i).proc = false := by
  rw [h.proc]
  exact Bool.eq_false_of_not_eq_true fun hr =>
    Bool.false_ne_true (hn.symm.trans (World.runs_mono h.running hr))

theorem Fades.marked (h : Fades w t) : Marked w t where
  same := h.same
  index := h.index
  election := h.election
  roles := fun i => .inl (congrArg ManagedInstance.role (h.inst i))

theorem Marked.trans (h₁ : Marked w t) (h₂ : Marked t u) : Marked w u where
  same := h₁.same.trans h₂.same
  index := h₂.index.trans h₁.index
  election := h₂.election.trans h₁.election
  roles := fun i => by
    rcases h₂.roles i with e | hd
    · rcases h₁.roles i with e' | ⟨hd, hn⟩
      · exact .inl (e.trans e')
      · exact .inr ⟨e.trans hd, h₂.same.not_runs hn⟩
    · exact .inr hd

end Relations

section Specs

variable {ι : Type} {n : Nat} {F : Event ι → Prop} {w : World ι n} {h : ProcessHandle ι} {i : Fin n} {port : Port}
  {k : Nat}

theorem late_spec : After F late w fun _ t => t = w := by
  refine .bind (.ask fun e _ => ?_)
  split
  next => exact .pure rfl
  next => exact .impossible

variable [DecidableEq ι]

theorem World.fades_die (w : World ι n) (deaths : List ι) : Fades w (w.die deaths) where
  group := rfl
  running := fun _ hc => (Bool.and_eq_true_iff.mp hc).1
  spawned := rfl
  stopped := rfl
  election := rfl
  attempts := rfl

theorem isAlive_spec : After F (isAlive h) w fun b t => Fades w t ∧ b = t.runs h := by
  refine .bind (.ask fun e _ => ?_)
  split
  next deaths _ => exact .bind (.modify (.bind (.get (.pure ⟨w.fades_die deaths, rfl⟩))))
  next => exact .impossible

theorem aliveAt_spec : After F (aliveAt i) w fun b t => Fades w t ∧ b = t.runs (t.inst i).proc := by
  refine .bind (.get (isAlive_spec.mono ?_))
  rintro b t ⟨hf, hb⟩
  exact ⟨hf, by rw [hb, hf.inst]⟩

theorem find_spec : After F find w fun _ t => Fades w t := by
  refine .bind (.ask fun e _ => ?_)
  split
  next deaths r _ => exact .bind (.modify (.pure (w.fades_die deaths)))
  next => exact .impossible

/-! ## Spawning -/

/-- What `spawn_instance` does: the spawn fails; the instance is not found; or it is registered. -/
inductive Spawned (port : Port) (i : Fin n) (w : World ι n) : World ι n → Prop
  | failed {t : World ι n} : Fades w t → Spawned port i w t
  | lost {w₁ t : World ι n} {h : ProcessHandle ι} : Fades w w₁ → w₁.Fresh h → Fades (w₁.launch port i h) t →
      Spawned port i w (t.note ⟨h, none, t.runs h⟩)
  | found {w₁ t : World ι n} {h : ProcessHandle ι} {e : Entry} : Fades w w₁ → w₁.Fresh h →
      Fades (w₁.launch port i h) t → Spawned port i w ((t.note ⟨h, some e, false⟩).register i h e)

theorem spawn_spec : After F (spawn port i) w fun r t =>
    match r with
    | none => Fades w t
    | some h => ∃ w₁, Fades w w₁ ∧ w₁.Fresh h ∧ t = w₁.launch port i h := by
  refine .bind (.ask fun e _ => ?_)
  split
  next deaths r _ =>
    refine .bind (.modify ?_)
    cases r with
    | none => exact .pure (w.fades_die deaths)
    | some x =>
      refine .bind (.get ?_)
      split
      next => exact .impossible
      next hc =>
        simp only [not_or, not_exists, not_and] at hc
        obtain ⟨hp, hr, hs⟩ := hc
        refine .bind (.modify (.pure ⟨_, w.fades_die deaths, ⟨?_, x.2, rfl, ?_, hs⟩, rfl⟩))
        · exact decide_eq_true (Nat.pos_of_ne_zero hp)
        · exact Bool.eq_false_of_not_eq_true hr
  next => exact .impossible

theorem awaitTurn_spec : After F (awaitTurn port i h) w fun _ t => Fades w t := by
  cases port with
  | rust =>
    refine .bind (find_spec.mono fun e t ht => ?_)
    cases e with
    | some e => exact .pure ht
    | none =>
      have hlate : ∀ u : World ι n, Fades w u →
          After F (do if ← late then return some none else return none : Prog (World ι n) (Event ι)
            (Option (Option Entry))) u fun _ x => Fades w x := by
        intro u hu
        refine .bind (late_spec.mono ?_)
        rintro b x rfl
        cases b <;> exact .pure hu
      refine .bind (aliveAt_spec.mono fun b u hu => ?_)
      cases b with
      | true => exact hlate u (ht.trans hu.1)
      | false =>
        refine .bind (isAlive_spec.mono fun b x hx => ?_)
        cases b with
        | true => exact hlate x ((ht.trans hu.1).trans hx.1)
        | false => exact .pure ((ht.trans hu.1).trans hx.1)
  | cxx =>
    refine .bind (late_spec.mono ?_)
    rintro b t rfl
    cases b with
    | true => exact .pure (Fades.refl t)
    | false =>
      refine .bind (find_spec.mono fun e u hu => ?_)
      cases e with
      | some e => exact .pure hu
      | none =>
        refine .bind (isAlive_spec.mono fun b x hx => ?_)
        cases b <;> exact .pure (hu.trans hx.1)

theorem spawnInstance_spec : After F (spawnInstance port k i) w fun _ t => Spawned port i w t := by
  refine .bind (spawn_spec.mono fun r t ht => ?_)
  cases r with
  | none => exact .pure (.failed ht)
  | some h =>
    obtain ⟨w₁, h₁, hfresh, rfl⟩ := ht
    refine .bind (.mono (Q := fun _ t => Fades (w₁.launch port i h) t) ?_ fun r u hu => ?_)
    · refine .untilSome (Fades (w₁.launch port i h)) (Fades.refl _) fun u hu => ?_
      refine awaitTurn_spec.mono fun r x hx => ?_
      cases r <;> exact hu.trans hx
    · cases r with
      | none => exact .bind (.modify (.pure (.lost h₁ hfresh hu)))
      | some e => exact .bind (.modify (.pure (.found h₁ hfresh hu)))

/-- Spawning concerns one instance, and neither the primary nor the election. -/
structure Kept (w t : World ι n) : Prop where
  config : t.group.config = w.group.config
  index : t.group.primaryIdx = w.group.primaryIdx
  election : t.election = w.election
  inst : ∀ i, (w.inst i).role ≠ .dead → t.inst i = w.inst i

theorem Spawned.frame {t : World ι n} (h : Spawned port i w t) : t.group.config = w.group.config ∧
    t.group.primaryIdx = w.group.primaryIdx ∧ t.election = w.election ∧ ∀ j ≠ i, t.inst j = w.inst j := by
  have hlaunch : ∀ (w₁ : World ι n) (h : ProcessHandle ι), (w₁.launch port i h).group.config = w₁.group.config ∧
      (w₁.launch port i h).group.primaryIdx = w₁.group.primaryIdx ∧ (w₁.launch port i h).election = w₁.election ∧
      ∀ j ≠ i, (w₁.launch port i h).inst j = w₁.inst j := by
    intro w₁ h
    cases port
    · exact ⟨rfl, rfl, rfl, fun _ _ => rfl⟩
    · exact ⟨rfl, rfl, rfl, fun j hj => World.setInst_inst_of_ne _ hj⟩
  cases h with
  | failed hf => exact ⟨hf.same.config, hf.index, hf.election, fun j _ => hf.inst j⟩
  | lost h₁ _ h₂ =>
    obtain ⟨hc, hx, he, hi⟩ := hlaunch _ _
    exact ⟨(h₂.same.config.trans hc).trans h₁.same.config, (h₂.index.trans hx).trans h₁.index,
      (h₂.election.trans he).trans h₁.election, fun j hj => ((h₂.inst j).trans (hi j hj)).trans (h₁.inst j)⟩
  | found h₁ _ h₂ =>
    obtain ⟨hc, hx, he, hi⟩ := hlaunch _ _
    refine ⟨(h₂.same.config.trans hc).trans h₁.same.config, (h₂.index.trans hx).trans h₁.index,
      (h₂.election.trans he).trans h₁.election, fun j hj => ?_⟩
    exact (World.setInst_inst_of_ne _ hj).trans (((h₂.inst j).trans (hi j hj)).trans (h₁.inst j))

theorem respawn_kept {t : World ι n} (h : Kept w t) (i : Fin n) :
    After F (respawn port k i) t fun _ u => Kept w u := by
  refine .bind (.get ?_)
  split
  next hd =>
    refine .bind (spawnInstance_spec.mono fun _ u hu => .pure ?_)
    obtain ⟨hc, hx, he, hi⟩ := hu.frame
    refine ⟨hc.trans h.config, hx.trans h.index, he.trans h.election, fun j hj => ?_⟩
    have hji : j ≠ i := by
      rintro rfl
      rw [h.inst j hj] at hd
      exact hj hd
    exact (hi j hji).trans (h.inst j hj)
  next => exact .pure h

theorem respawnDead_kept : After F (respawnDead port k) w fun _ t => Kept w t := by
  have h0 : Kept w w := ⟨rfl, rfl, rfl, fun _ _ => rfl⟩
  refine .bind (.get ?_)
  split
  next => exact .forM (fun _ t => Kept w t) h0 fun i _ t ht => respawn_kept ht i
  next => exact .pure h0

theorem respawnDead_off (h : w.group.config.autoRespawn = false) : After F (respawnDead port k) w fun _ t => t = w := by
  refine .bind (.get ?_)
  rw [h]
  exact .pure rfl

/-! ## Electing -/

/-- What an election of `i` leaves. -/
structure Elected (i : Fin n) (w t : World ι n) : Prop where
  same : Same w t
  index : t.group.primaryIdx = some i
  election : t.election = some (i, true)
  role : (t.inst i).role = .primary
  valid : (t.inst i).proc.valid = true
  others : ∀ j ≠ i, (t.inst j).role = (w.inst j).role ∨
    ((t.inst j).role = .standby ∧ (t.inst j).proc.valid = true)

theorem demote_spec {t : World ι n} (h : Elected i w t) (j : Fin n) :
    After F (demote i j) t fun _ u => Elected i w u := by
  unfold demote
  split
  next => exact .pure h
  next hji =>
    refine .bind (aliveAt_spec.mono ?_)
    rintro b u ⟨hu, hb⟩
    have hrole : ∀ x, u.inst x = t.inst x := hu.inst
    split
    next hbt =>
      have hs := Same.setRole u j .standby
      have hne : i ≠ j := Ne.symm hji
      refine .modify ⟨(h.same.trans hu.same).trans hs, ?_, ?_, ?_, ?_, fun x hx => ?_⟩
      · exact hu.index.trans h.index
      · exact hu.election.trans h.election
      · rw [World.setRole_inst_of_ne _ hne, hrole]
        exact h.role
      · rw [World.setRole_inst_of_ne _ hne, hrole]
        exact h.valid
      · by_cases hxj : x = j
        · subst hxj
          refine .inr ⟨World.setRole_role_self .., ?_⟩
          rw [hs.proc]
          exact World.runs_valid (hb.symm.trans hbt)
        · rw [World.setRole_inst_of_ne _ hxj, hrole]
          exact h.others x hx
    next =>
      refine .pure ⟨h.same.trans hu.same, ?_, ?_, ?_, ?_, fun x hx => ?_⟩
      · exact hu.index.trans h.index
      · exact hu.election.trans h.election
      · rw [hrole]
        exact h.role
      · rw [hrole]
        exact h.valid
      · rw [hrole]
        exact h.others x hx

/-- An election among `l`: somebody is elected, or none of them runs. -/
theorem electFrom_spec (l : List (Fin n)) : After F (electFrom l) w fun b t =>
    if b then ∃ i ∈ l, Elected i w t else Fades w t ∧ ∀ i ∈ l, t.runs (t.inst i).proc = false := by
  induction l generalizing w with
  | nil => exact .pure ⟨Fades.refl w, nofun⟩
  | cons i l ih =>
    refine .bind (aliveAt_spec.mono ?_)
    rintro b t ⟨ht, hb⟩
    cases b with
    | true =>
      have hel : Elected i w
          { (t.setRole i .primary).setPrimary (some i) with election := some (i, t.runs (t.inst i).proc) } := by
        refine ⟨ht.same.trans { Same.setRole t i .primary with }, rfl, by rw [← hb], World.setRole_role_self .., ?_,
          fun j hj => .inl ?_⟩
        · exact (congrArg ProcessHandle.valid ((Same.setRole t i .primary).proc i)).trans
            (World.runs_valid hb.symm)
        · exact congrArg ManagedInstance.role ((World.setRole_inst_of_ne .primary hj).trans (ht.inst j))
      refine .bind (.modify (.bind (.mono (Q := fun _ u => Elected i w u) ?_ fun _ u hu => ?_)))
      · exact .forM (fun _ u => Elected i w u) hel fun j _ u hu => demote_spec hu j
      · exact .pure ⟨i, List.mem_cons_self .., hu⟩
    | false =>
      refine ih.mono fun b u hu => ?_
      split at hu
      next hbt =>
        obtain ⟨j, hj, he⟩ := hu
        rw [if_pos hbt]
        refine ⟨j, List.mem_cons_of_mem _ hj, { he with same := ht.same.trans he.same, others := fun x hx => ?_ }⟩
        rw [← ht.inst x]
        exact he.others x hx
      next hbf =>
        rw [if_neg hbf]
        refine ⟨ht.trans hu.1, fun j hj => ?_⟩
        rcases List.mem_cons.mp hj with rfl | hj
        · exact hu.1.same.not_runs hb.symm
        · exact hu.2 j hj

/-- **An election**: somebody is elected, or no instance runs and there is no primary. -/
theorem electPrimary_spec : After F electPrimary w fun b t =>
    if b then ∃ i, Elected i w t
    else Same w t ∧ (∀ i, t.inst i = w.inst i) ∧ t.group.primaryIdx = none ∧ t.election = none ∧
      ∀ i, t.runs (t.inst i).proc = false := by
  refine .bind (.modify ((electFrom_spec _).mono fun b t ht => ?_))
  have hs : Same w { w.setPrimary none with election := none } := { Same.refl w with }
  split at ht
  next hb =>
    rw [if_pos hb]
    obtain ⟨i, -, he⟩ := ht
    exact ⟨i, { he with same := hs.trans he.same }⟩
  next hb =>
    rw [if_neg hb]
    obtain ⟨hf, hn⟩ := ht
    refine ⟨hs.trans hf.same, hf.inst, ?_, hf.election, fun i => hn i (List.mem_finRange i)⟩
    exact hf.index

/-! ## Marking the dead -/

theorem mark_spec : After F (mark i) w fun b t => Marked w t ∧
    (b = true → (w.inst i).role = .primary ∧ (t.inst i).role = .dead) ∧
    (b = false → (w.inst i).role = .primary → (t.inst i).role = .primary) ∧
    ∀ j ≠ i, (t.inst j).role = (w.inst j).role := by
  refine .bind (.get ?_)
  split
  next => exact .pure ⟨(Fades.refl w).marked, nofun, fun _ => id, fun _ _ => rfl⟩
  next =>
    refine .bind (aliveAt_spec.mono ?_)
    rintro b t ⟨ht, hb⟩
    have hrole : ∀ x, (t.inst x).role = (w.inst x).role := fun x => congrArg ManagedInstance.role (ht.inst x)
    cases b with
    | true => exact .pure ⟨ht.marked, nofun, fun _ h => (hrole i).trans h, fun j _ => hrole j⟩
    | false =>
      have hs := Same.setRole t i .dead
      refine .bind (.modify (.pure ⟨⟨ht.same.trans hs, ?_, ?_, fun j => ?_⟩, ?_, ?_, fun j hj => ?_⟩))
      · exact ht.index
      · exact ht.election
      · by_cases hj : j = i
        · subst hj
          exact .inr ⟨World.setRole_role_self .., hs.not_runs hb.symm⟩
        · rw [World.setRole_inst_of_ne _ hj]
          exact .inl (hrole j)
      · intro hp
        exact ⟨of_decide_eq_true hp, World.setRole_role_self ..⟩
      · intro hp hr
        exact absurd hr (of_decide_eq_false hp)
      · rw [World.setRole_inst_of_ne _ hj]
        exact hrole j

/-- Marking all: a primary among `l` is marked exactly if the result says so. -/
theorem markAll_spec (l : List (Fin n)) (hl : l.Nodup) : After F (markAll l) w fun b t => Marked w t ∧
    (b = true → ∃ i, (w.inst i).role = .primary ∧ (t.inst i).role = .dead) ∧
    (b = false → ∀ i ∈ l, (w.inst i).role = .primary → (t.inst i).role = .primary) ∧
    ∀ j ∉ l, (t.inst j).role = (w.inst j).role := by
  induction l generalizing w with
  | nil => exact .pure ⟨(Fades.refl w).marked, nofun, nofun, fun _ _ => rfl⟩
  | cons i l ih =>
    obtain ⟨hil, hl'⟩ := List.nodup_cons.mp hl
    refine .bind (mark_spec.mono ?_)
    rintro b t ⟨hm, hdead, hkept, hothers⟩
    refine .bind ((ih hl').mono ?_)
    rintro b' u ⟨hm', hdead', hkept', hothers'⟩
    have hi := hothers' i hil
    refine .pure ⟨hm.trans hm', fun hb => ?_, fun hb j hj hp => ?_, fun j hj => ?_⟩
    · cases b with
      | true => exact ⟨i, (hdead rfl).1, hi.trans (hdead rfl).2⟩
      | false =>
        obtain ⟨j, hp, hd⟩ := hdead' hb
        have hji : j ≠ i := by
          rintro rfl
          rw [← hi, hd] at hp
          cases hp
        exact ⟨j, (hothers j hji).symm.trans hp, hd⟩
    · obtain ⟨hb, hb'⟩ := Bool.or_eq_false_iff.mp hb
      rcases List.mem_cons.mp hj with rfl | hj
      · exact hi.trans (hkept hb hp)
      · have hji : j ≠ i := fun e => hil (e ▸ hj)
        exact hkept' hb' j hj ((hothers j hji).trans hp)
    · rw [List.mem_cons, not_or] at hj
      exact (hothers' j hj.2).trans (hothers j hj.1)

/-! ## Stopping -/

/-- What stopping `i` leaves: it is dead, and does not run or was stopped. -/
theorem stopInstance_spec : After F (stopInstance i) w fun _ t => Same w t ∧
    t.group.primaryIdx = w.group.primaryIdx ∧ t.election = w.election ∧ (t.inst i).role = .dead ∧
    (t.runs (t.inst i).proc = true → ∀ c ∈ (t.inst i).proc.child, c ∈ t.stopped) ∧
    ∀ j ≠ i, t.inst j = w.inst j := by
  refine .bind (.bind (aliveAt_spec.mono ?_))
  rintro b t ⟨ht, hb⟩
  cases b with
  | true =>
    refine .bind (.modify (.bind (.ask fun e _ => ?_)))
    split
    next deaths _ =>
      refine .modify (.modify ?_)
      let t' : World ι n := { t with stopped := (t.inst i).proc.child.toList ++ t.stopped }
      have hs' : Same t t' := { Same.refl t with stopped := fun c hc => List.mem_append_right _ hc }
      have hd := t'.fades_die deaths
      have hs := Same.setRole (t'.die deaths) i .dead
      refine ⟨((ht.same.trans hs').trans hd.same).trans hs, ?_, ht.election, World.setRole_role_self ..,
        fun _ c hc => ?_,
        fun j hj => ?_⟩
      · exact ht.index
      · rw [hs.proc] at hc
        exact List.mem_append_left _ (Option.mem_toList.mpr hc)
      · exact (World.setRole_inst_of_ne .dead hj).trans (ht.inst j)
    next => exact .impossible
  | false =>
    have hs := Same.setRole t i .dead
    refine .pure (.modify ⟨ht.same.trans hs, ?_, ht.election, World.setRole_role_self .., fun hr => ?_,
      fun j hj => ?_⟩)
    · exact ht.index
    · exact absurd (hs.not_runs hb.symm) (Bool.eq_false_iff.not.mpr (not_not.mpr hr))
    · exact (World.setRole_inst_of_ne .dead hj).trans (ht.inst j)

theorem step_after {t : World ι n} {a : Act ι} {Q : World ι n → Prop}
    (h : After (fun _ => True) (a.call.prog port a.turns) w fun _ t => Q t) (hst : step port w a = some t) : Q t := by
  obtain ⟨⟨r, t'⟩, hr, rfl⟩ := Option.map_eq_some_iff.mp hst
  exact h.result (fun _ _ => trivial) hr

end Specs

end ThothIpc.ServiceGroup.History
