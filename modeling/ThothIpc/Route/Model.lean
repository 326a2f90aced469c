import ThothIpc.Lib.Run
import ThothIpc.Msg
import ThothIpc.Liveness

/-!
# The route ring: one sender, any number of receivers

The single-producer broadcast ring of `channel.rs`, one atomic access of shared memory per step.

* `Ring` : the header words, the 256 slots and the owner table;
* `SPc` : where the sender stands in `push_fragment`, the timeout path included, with the values it has loaded;
* `Receiver`, `RPc` : an endpoint's fields and where it stands in connect, `recv`, `release_slot` or `disconnect`;
* `SPc.step`, `Receiver.step` : the next access; `State.step` : the interleaving.

`compare_exchange_weak` may fail on equal values (`fail`). `wait_for` only looks at the ring, so it is
one place, `busy`, left either way at any time: back to the claim, or by a timeout. Reaping dead peers before a connect
is not part of this model: no process dies in it. `pushed` and `got` record what was published and read.
-/

namespace ThothIpc.Route

/-- `EP_MASK`: the connection bits of `rc`. -/
def epMask : BitVec 64 := 0x00000000ffffffff#64

/-- `EP_INCR`: one epoch, in the high half of `rc`. -/
def epIncr : BitVec 64 := 0x0000000100000000#64

def ringSize : Nat := 256

/-- `RING_LAP`: a cursor addresses its slot modulo this. -/
def ringLap : BitVec 32 := 256#32

/-- A ring slot: the message record, and `rc` with the unread marks (low) and the epoch (high). -/
@[ext] structure Slot where
  data : MsgT
  rc : BitVec 64
  deriving DecidableEq, Repr

structure Ring where
  connections : BitVec 32
  writeCursor : BitVec 32
  epoch : BitVec 64
  slots : BitVec 8 → Slot
  owners : Nat → SlotOwner

namespace Ring

def slot (g : Ring) (c : BitVec 32) : Slot := g.slots (c.setWidth 8)

def setRc (g : Ring) (c : BitVec 32) (rc : BitVec 64) : Ring :=
  { g with slots := Function.update g.slots (c.setWidth 8) { g.slot c with rc := rc } }

def setData (g : Ring) (c : BitVec 32) (d : MsgT) : Ring :=
  { g with slots := Function.update g.slots (c.setWidth 8) { g.slot c with data := d } }

def setOwner (g : Ring) (bit : BitVec 32) (f : SlotOwner → SlotOwner) : Ring :=
  { g with owners := Function.update g.owners (slotIndex bit) (f (g.owners (slotIndex bit))) }

end Ring

/-! ## The sender -/

/-- Where the sender stands. `f` is the fragment, `cc`, `ep`, `wt`, `rc` what it has loaded. -/
inductive SPc where
  | idle
  | loadCc (f : MsgT)
  | loadEpoch (f : MsgT) (cc : BitVec 64)
  | loadWt (f : MsgT) (cc ep : BitVec 64)
  | loadRc (f : MsgT) (cc ep : BitVec 64) (wt : BitVec 32)
  | live (f : MsgT) (cc ep : BitVec 64) (wt : BitVec 32) (rc : BitVec 64) (todo acc : BitVec 32)
  | busy (f : MsgT) (cc : BitVec 64) (wt : BitVec 32)
  | cas (f : MsgT) (cc ep : BitVec 64) (wt : BitVec 32) (rc : BitVec 64)
  | write (f : MsgT) (wt : BitVec 32) (k : Nat)
  | bump (f : MsgT)
  | forceEpoch (f : MsgT) (cc : BitVec 64) (wt : BitVec 32)
  | forceRc (f : MsgT) (cc : BitVec 64) (wt : BitVec 32)
  | forceLive (f : MsgT) (wt : BitVec 32) (todo acc : BitVec 32)
  | forceConns (f : MsgT) (wt : BitVec 32) (rem : BitVec 32)
  | forceSlot (f : MsgT) (wt : BitVec 32) (rem : BitVec 32)
  deriving DecidableEq, Repr

/-- The sender's next access in `push_fragment`; the list is what it publishes by it. -/
def SPc.step (g : Ring) : SPc → Option (Ring × SPc × List MsgT)
  | .idle => none
  | .loadCc f =>
    let cc := g.connections.setWidth 64
    if cc = 0 then some (g, .idle, []) -- no receivers
    else some (g, .loadEpoch f cc, [])
  | .loadEpoch f cc => some (g, .loadWt f cc g.epoch, [])
  | .loadWt f cc ep => some (g, .loadRc f cc ep g.writeCursor, [])
  | .loadRc f cc ep wt =>
    let rc := (g.slot wt).rc
    let remCc := rc &&& epMask
    if cc &&& remCc ≠ 0 ∧ rc &&& ~~~epMask = ep then
      some (g, .live f cc ep wt rc ((cc &&& remCc).setWidth 32) 0, [])
    else some (g, .cas f cc ep wt rc, [])
  | .live f cc ep wt rc todo acc =>
    if todo = 0 then
      if acc ≠ 0 then some (g, .busy f cc wt, []) else some (g, .cas f cc ep wt rc, [])
    else
      let m := liveStep g.owners (wt - ringLap) todo acc
      some (g, .live f cc ep wt rc m.1 m.2, [])
  | .busy f _ _ => some (g, .loadCc f, [])
  | .cas f cc ep wt rc =>
    if (g.slot wt).rc = rc then some (g.setRc wt (ep ||| cc), .write f wt 0, [])
    else some (g, .loadCc f, [])
  | .write f wt k =>
    some (g.setData wt (f.copy k (g.slot wt).data), if k + 1 = MsgT.fields then .bump f else .write f wt (k + 1), [])
  | .bump f => some ({ g with writeCursor := g.writeCursor + 1 }, .idle, [f])
  | .forceEpoch f cc wt => some ({ g with epoch := g.epoch + epIncr }, .forceRc f cc wt, [])
  | .forceRc f cc wt => some (g, .forceLive f wt (((g.slot wt).rc &&& epMask &&& cc).setWidth 32) 0, [])
  | .forceLive f wt todo acc =>
    if todo = 0 then
      if acc ≠ 0 then some (g, .forceConns f wt acc, []) else some (g, .loadCc f, [])
    else
      let m := liveStep g.owners (wt - ringLap) todo acc
      some (g, .forceLive f wt m.1 m.2, [])
  | .forceConns f wt rem =>
    let newCc := g.connections &&& ~~~rem
    some ({ g with connections := newCc }, if newCc = 0 then .idle else .forceSlot f wt rem, [])
  | .forceSlot f wt rem => some (g.setRc wt ((g.slot wt).rc &&& ~~~(rem.setWidth 64)), .loadCc f, [])

/-! ## The receivers -/

/-- Where a receiver stands: opening, connected and between calls (`ready`), in `recv`, or disconnecting. -/
inductive RPc where
  | closed
  | readSince
  | loadConns (since : BitVec 32)
  | casConns (since curr : BitVec 32)
  | setSince (since : BitVec 32)
  | adoptEpoch (since : BitVec 32)
  | adoptWt (since : BitVec 32) (ep : BitVec 64)
  | adoptWalk (since : BitVec 32) (ep : BitVec 64) (cur : BitVec 32) (n : Nat)
  | ownerTok
  | ownerPid
  | ready
  | read (k : Nat) (m : MsgT)
  | relLoad (m : MsgT)
  | relCas (m : MsgT) (rc : BitVec 64)
  | bump (m : MsgT)
  | clearPid
  | clearTok
  deriving DecidableEq, Repr

/-- A receiver endpoint. `pid` and `tok` are its process; `got` what it has read. -/
structure Receiver where
  connId : BitVec 32
  readCursor : BitVec 32
  pc : RPc
  disconnected : Bool
  pid : Int
  tok : Nat
  got : List MsgT
  deriving DecidableEq, Repr

/-- The receiver's next access in connect, `recv` (after its emptiness test) or `disconnect` (after its bit). -/
def Receiver.step (g : Ring) (r : Receiver) : Option (Ring × Receiver) :=
  match r.pc with
  | .closed => none
  | .readSince => some (g, { r with pc := .loadConns g.writeCursor })
  | .loadConns since =>
    -- too many receivers: `open` fails
    if g.connections ||| (g.connections + 1) = g.connections then some (g, { r with pc := .closed })
    else some (g, { r with pc := .casConns since g.connections })
  | .casConns since curr =>
    let next := curr ||| (curr + 1)
    if g.connections = curr then
      some ({ g with connections := next }, { r with connId := next ^^^ curr, pc := .setSince since })
    else some (g, { r with pc := .loadConns since })
  | .setSince since => some (g.setOwner r.connId fun o => { o with since := since }, { r with pc := .adoptEpoch since })
  | .adoptEpoch since => some (g, { r with pc := .adoptWt since g.epoch })
  | .adoptWt since ep => some (g, { r with pc := .adoptWalk since ep g.writeCursor ringSize })
  | .adoptWalk since ep cur n =>
    let rc := (g.slot (cur - 1)).rc
    if n = 0 ∨ cur = since ∨ rc &&& r.connId.setWidth 64 = 0 ∨ rc &&& ~~~epMask ≠ ep then
      some (g, { r with readCursor := cur, pc := .ownerTok })
    else some (g, { r with pc := .adoptWalk since ep (cur - 1) (n - 1) })
  | .ownerTok => some (g.setOwner r.connId fun o => { o with startTok := r.tok }, { r with pc := .ownerPid })
  | .ownerPid => some (g.setOwner r.connId fun o => { o with pid := r.pid }, { r with pc := .ready })
  | .ready => none
  | .read k m =>
    let m' := (g.slot r.readCursor).data.copy k m
    some (g, { r with pc := if k + 1 = MsgT.fields then .relLoad m' else .read (k + 1) m' })
  | .relLoad m =>
    let rc := (g.slot r.readCursor).rc
    some (g, { r with pc := if rc &&& epMask = 0 then .bump m else .relCas m rc })
  | .relCas m rc =>
    if (g.slot r.readCursor).rc = rc then
      some (g.setRc r.readCursor (rc &&& ~~~(r.connId.setWidth 64)), { r with pc := .bump m })
    else some (g, { r with pc := .relLoad m })
  | .bump m => some (g, { r with readCursor := r.readCursor + 1, pc := .ready, got := r.got ++ [m] })
  | .clearPid => some (g.setOwner r.connId fun o => { o with pid := 0 }, { r with pc := .clearTok })
  | .clearTok =>
    some (g.setOwner r.connId fun o => { o with startTok := 0 }, { r with pc := .ready, disconnected := true })

/-- `recv`'s emptiness test: the write cursor is loaded and compared with the read cursor. -/
def Receiver.recv (g : Ring) (r : Receiver) : Option Receiver :=
  match r.pc with
  | .ready => some (if g.writeCursor = r.readCursor then r else { r with pc := .read 0 blank })
  | _ => none

/-- `disconnect` (also run by `drop`): nothing on a disconnected endpoint, else the bit is cleared. -/
def Receiver.disconnect (g : Ring) (r : Receiver) : Option (Ring × Receiver) :=
  match r.pc with
  | .ready =>
    if r.disconnected then some (g, r)
    else some ({ g with connections := g.connections &&& ~~~r.connId }, { r with pc := .clearPid })
  | _ => none

/-- `open` in receiver mode, by process `pid` with start token `tok`. -/
def Receiver.open (r : Receiver) (pid : Int) (tok : Nat) : Option Receiver :=
  match r.pc with
  | .closed => some { r with pc := .readSince, pid := pid, tok := tok, disconnected := false }
  | _ => none

/-- A `compare_exchange_weak` of the receiver that fails. -/
def Receiver.fail (r : Receiver) : Option Receiver :=
  match r.pc with
  | .casConns since _ => some { r with pc := .loadConns since }
  | .relCas m _ => some { r with pc := .relLoad m }
  | _ => none

/-! ## The system -/

inductive SAct where
  | push (f : MsgT)
  | go
  | fail
  | timeout
  deriving DecidableEq, Repr

def SPc.act (g : Ring) (pc : SPc) : SAct → Option (Ring × SPc × List MsgT)
  | .push f =>
    match pc with
    | .idle => some (g, .loadCc f, [])
    | _ => none
  | .go => pc.step g
  | .fail =>
    match pc with
    | .cas f _ _ _ _ => some (g, .loadCc f, [])
    | _ => none
  | .timeout =>
    match pc with
    | .busy f cc wt => some (g, .forceEpoch f cc wt, [])
    | _ => none

inductive RAct where
  | opens (pid : Int) (tok : Nat)
  | recv
  | go
  | fail
  | disconnect
  deriving DecidableEq, Repr

def Receiver.act (g : Ring) (r : Receiver) : RAct → Option (Ring × Receiver)
  | .opens pid tok => (r.open pid tok).map fun r' => (g, r')
  | .recv => (r.recv g).map fun r' => (g, r')
  | .go => r.step g
  | .fail => r.fail.map fun r' => (g, r')
  | .disconnect => r.disconnect g

/-- A route: its shared memory, its sender and its receivers. `pushed` is what has been published so far. -/
structure State (ι : Type) where
  ring : Ring
  sender : SPc
  recvs : ι → Receiver
  pushed : List MsgT

inductive Act (ι : Type) where
  | sender (a : SAct)
  | recv (i : ι) (a : RAct)
  deriving DecidableEq, Repr

variable {ι : Type} [DecidableEq ι]

def State.step (s : State ι) : Act ι → Option (State ι)
  | .sender a =>
    (s.sender.act s.ring a).map fun p => { s with ring := p.1, sender := p.2.1, pushed := s.pushed ++ p.2.2 }
  | .recv i a =>
    ((s.recvs i).act s.ring a).map fun p => { s with ring := p.1, recvs := Function.update s.recvs i p.2 }

theorem State.step_cases {s t : State ι} {act : Act ι} (h : s.step act = some t) :
    (∃ a g pc out, act = .sender a ∧ s.sender.act s.ring a = some (g, pc, out) ∧
      t = { s with ring := g, sender := pc, pushed := s.pushed ++ out }) ∨
    ∃ i a g r, act = .recv i a ∧ (s.recvs i).act s.ring a = some (g, r) ∧
      t = { s with ring := g, recvs := Function.update s.recvs i r } := by
  cases act with
  | sender a =>
    obtain ⟨⟨g, pc, out⟩, hp, rfl⟩ := Option.map_eq_some_iff.mp h
    exact Or.inl ⟨a, g, pc, out, rfl, hp, rfl⟩
  | recv i a =>
    obtain ⟨⟨g, r⟩, hp, rfl⟩ := Option.map_eq_some_iff.mp h
    exact Or.inr ⟨i, a, g, r, rfl, hp, rfl⟩

/-- Besides its accesses the sender only starts a push, or goes back to its start, or gives up waiting. -/
theorem SPc.act_cases {g g' : Ring} {pc pc' : SPc} {a : SAct} {out : List MsgT} (h : pc.act g a = some (g', pc', out)) :
    (a = .go ∧ pc.step g = some (g', pc', out)) ∨
    (g' = g ∧ out = [] ∧ ((∃ f, a = .push f ∧ pc = .idle ∧ pc' = .loadCc f) ∨
      (∃ f cc ep wt rc, a = .fail ∧ pc = .cas f cc ep wt rc ∧ pc' = .loadCc f) ∨
      ∃ f cc wt, a = .timeout ∧ pc = .busy f cc wt ∧ pc' = .forceEpoch f cc wt)) := by
  cases a with
  | go => exact Or.inl ⟨rfl, h⟩
  | push f =>
    simp only [SPc.act] at h
    split at h <;> cases h
    exact Or.inr ⟨rfl, rfl, Or.inl ⟨f, rfl, rfl, rfl⟩⟩
  | fail =>
    simp only [SPc.act] at h
    split at h <;> cases h
    exact Or.inr ⟨rfl, rfl, Or.inr (Or.inl ⟨_, _, _, _, _, rfl, rfl, rfl⟩)⟩
  | timeout =>
    simp only [SPc.act] at h
    split at h <;> cases h
    exact Or.inr ⟨rfl, rfl, Or.inr (Or.inr ⟨_, _, _, rfl, rfl, rfl⟩)⟩

/-- Besides its accesses a receiver only starts a call, repeats a weak exchange or clears its bit. -/
theorem Receiver.act_cases {g g' : Ring} {r r' : Receiver} {a : RAct} (h : r.act g a = some (g', r')) :
    (a = .go ∧ r.step g = some (g', r')) ∨ (a = .disconnect ∧ r.disconnect g = some (g', r')) ∨
    (g' = g ∧ ((∃ pid tok, a = .opens pid tok ∧ r.open pid tok = some r') ∨ (a = .recv ∧ r.recv g = some r') ∨
      (a = .fail ∧ r.fail = some r'))) := by
  cases a with
  | go => exact Or.inl ⟨rfl, h⟩
  | disconnect => exact Or.inr (Or.inl ⟨rfl, h⟩)
  | opens pid tok =>
    obtain ⟨r, hr, he⟩ := Option.map_eq_some_iff.mp h
    cases he
    exact Or.inr (Or.inr ⟨rfl, Or.inl ⟨pid, tok, rfl, hr⟩⟩)
  | recv =>
    obtain ⟨r, hr, he⟩ := Option.map_eq_some_iff.mp h
    cases he
    exact Or.inr (Or.inr ⟨rfl, Or.inr (Or.inl ⟨rfl, hr⟩)⟩)
  | fail =>
    obtain ⟨r, hr, he⟩ := Option.map_eq_some_iff.mp h
    cases he
    exact Or.inr (Or.inr ⟨rfl, Or.inr (Or.inr ⟨rfl, hr⟩)⟩)

end ThothIpc.Route
