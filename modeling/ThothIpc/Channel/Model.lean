import ThothIpc.Lib.Run
import ThothIpc.Msg
import ThothIpc.Liveness
import ThothIpc.Channel.Word

/-!
# The channel ring: any number of writers and receivers

The multi-writer broadcast ring of `channel.rs` and `prod_cons.h`, one atomic access of shared memory per step.

* `Ring` : the header words, the 256 slots and the owner table;
* `MPc` : where a thread stands in `release_mark`, which writers and connecting receivers both run;
* `Call`, `WPc` : the four ways to push (`push_fragment_multi`; `push`, `force_push` and the `push` inside it), and
  where a writer stands in one, up to the end of `commit_multi`;
* `Receiver`, `RPc` : an endpoint's fields, and where it stands in connect (with `release_stale` and `adopt_cursor`),
  `recv_multi` or `disconnect`;
* `State.step` : the interleaving.

A weak exchange may fail on equal values (`fail`). A push that finds the ring full yields (`busy`) and tries again, or
gives up when its deadline has passed. Three things are recorded for the proofs and read by no step: `ver` counts the
updates of a slot's `rc`, an `Attempt` remembers that count and the number of claims so far, and `claims` lists what has
been claimed.
-/

namespace ThothIpc.Channel
open Function

/-- A ring slot. `ver` counts the updates of `rc`. -/
@[ext] structure Slot where
  data : MsgT
  rc : BitVec 64
  fCt : BitVec 64
  ver : Nat
  deriving DecidableEq, Repr

/-- The shared memory of a channel. `writeCursor` is the commit index. -/
structure Ring where
  connections : BitVec 32
  writeCursor : BitVec 32
  epoch : BitVec 64
  slots : BitVec 8 → Slot
  owners : Nat → SlotOwner

namespace Ring

def slot (g : Ring) (c : BitVec 32) : Slot := g.slots (c.setWidth 8)

def setRc (g : Ring) (x : BitVec 8) (rc : BitVec 64) : Ring :=
  { g with slots := update g.slots x { g.slots x with rc := rc, ver := (g.slots x).ver + 1 } }

def setFl (g : Ring) (x : BitVec 8) (fl : BitVec 64) : Ring :=
  { g with slots := update g.slots x { g.slots x with fCt := fl } }

def setData (g : Ring) (x : BitVec 8) (d : MsgT) : Ring :=
  { g with slots := update g.slots x { g.slots x with data := d } }

def setOwner (g : Ring) (bit : BitVec 32) (f : SlotOwner → SlotOwner) : Ring :=
  { g with owners := update g.owners (slotIndex bit) (f (g.owners (slotIndex bit))) }

end Ring

/-! ## `release_mark` -/

/-- Where a thread stands in `release_mark`, with the `rc` it works from and that word's `ver`. -/
inductive MPc where
  | load
  | fl (rc : BitVec 64) (ver : Nat)
  | cas (rc : BitVec 64) (ver : Nat)
  | free
  deriving DecidableEq, Repr

/-- The loop condition's first half, on the `rc` just loaded from slot `x`. -/
def MPc.test (g : Ring) (x : BitVec 8) (bit : BitVec 32) : Option MPc :=
  if (g.slots x).rc &&& bit.setWidth 64 = 0 then none else some (.fl (g.slots x).rc (g.slots x).ver)

/-- The next access of `release_mark` on slot `x`; no place is left when it returns. -/
def MPc.step (g : Ring) (x : BitVec 8) (pos bit : BitVec 32) : MPc → Ring × Option MPc
  | .load => (g, MPc.test g x bit)
  | .fl rc ver => (g, if (g.slots x).fCt = atPos pos then some (.cas rc ver) else none)
  | .cas rc _ =>
    if (g.slots x).rc = rc then
      (g.setRc x (unmark rc bit), if marks (unmark rc bit) = 0 then some .free else none)
    else (g, MPc.test g x bit)
  | .free => (if (g.slots x).fCt = atPos pos then g.setFl x (relFlag pos) else g, none)

/-! ## The writers -/

/-- `push_fragment_multi` of `channel.rs`; `push` and `force_push` of `prod_cons.h`; the `push` that `force_push`
calls. -/
inductive Call where
  | rust
  | push
  | force
  | nested
  deriving DecidableEq, Repr

/-- A claim about to be made: the fragment and what has been loaded for it. `ver` and `seen` are the slot's `ver` and
the number of claims at the time of the loads. -/
structure Attempt where
  call : Call
  frag : MsgT
  epoch : BitVec 64
  cc : BitVec 32
  ct : BitVec 32
  rc : BitVec 64
  ver : Nat
  seen : Nat
  deriving DecidableEq, Repr

/-- Where a writer stands: in the claim loop, between its claim and its commit (`validate` to `commit`), or in the tail
of `commit_multi`. In `cas` the last field says whether the flag has been checked. -/
inductive WPc where
  | idle
  | loadEpoch (k : Call) (f : MsgT)
  | bumpEpoch (f : MsgT)
  | loadCc (k : Call) (f : MsgT) (ep : BitVec 64)
  | loadCt (k : Call) (f : MsgT) (ep : BitVec 64) (cc : BitVec 32)
  | loadRc (k : Call) (f : MsgT) (ep : BitVec 64) (cc ct : BitVec 32) (seen : Nat)
  | evict (a : Attempt)
  | loadFl (a : Attempt)
  | busy (k : Call) (f : MsgT) (ep : BitVec 64)
  | cas (a : Attempt) (checked : Bool)
  | validate (k : Call) (f : MsgT) (ep : BitVec 64) (ct : BitVec 32)
  | storeCt (f : MsgT) (ct : BitVec 32)
  | write (f : MsgT) (ct : BitVec 32) (k : Nat)
  | commit (f : MsgT) (ct : BitVec 32)
  | loadMarks (ct : BitVec 32)
  | live (ct : BitVec 32) (bits todo acc : BitVec 32)
  | drop (ct : BitVec 32) (stale : BitVec 32)
  | rel (ct : BitVec 32) (stale bit : BitVec 32) (m : MPc)
  deriving DecidableEq, Repr

/-- A push returns without having claimed: `force_push` goes on when the `push` it called did. -/
def WPc.refused : Call → MsgT → WPc
  | .nested, f => .bumpEpoch f
  | _, _ => .idle

/-- The test on the `rc` just loaded. -/
def WPc.tested (a : Attempt) : WPc :=
  match a.call with
  | .force => if a.cc &&& marks a.rc ≠ 0 then .evict a else .cas a false
  | _ =>
    if a.cc &&& marks a.rc ≠ 0 ∧ a.rc &&& ~~~epMask = a.epoch then .busy a.call a.frag a.epoch
    else if marks a.rc = 0 then .loadFl a
    else .cas a false

/-- On from an access of `release_mark`: to its next one, or to the next stale mark. -/
def WPc.relNext (ct stale bit : BitVec 32) : Option MPc → WPc
  | some m => .rel ct stale bit m
  | none => .drop ct stale

/-- A writer's next access; `n` is the number of claims so far, the list what it claims by the access. -/
def WPc.step (g : Ring) (n : Nat) : WPc → Option (Ring × WPc × List (BitVec 32 × MsgT))
  | .idle => none
  | .loadEpoch k f => some (g, .loadCc k f g.epoch, [])
  | .bumpEpoch f => some ({ g with epoch := g.epoch + epIncr }, .loadCc .force f (g.epoch + epIncr), [])
  | .loadCc k f ep =>
    if g.connections = 0 then some (g, .refused k f, []) -- no receivers
    else some (g, .loadCt k f ep g.connections, [])
  | .loadCt k f ep cc => some (g, .loadRc k f ep cc g.writeCursor n, [])
  | .loadRc k f ep cc ct seen => some (g, .tested ⟨k, f, ep, cc, ct, (g.slot ct).rc, (g.slot ct).ver, seen⟩, [])
  | .evict a =>
    let cc := g.connections &&& ~~~marks a.rc
    some ({ g with connections := cc }, if cc = 0 then .idle else .cas { a with cc := cc } false, [])
  | .loadFl a =>
    let fl := (g.slot a.ct).fCt
    some (g, if fl ≠ a.ct.setWidth 64 ∧ fl ≠ 0 then .busy a.call a.frag a.epoch else .cas a true, [])
  | .busy k f ep => some (g, if k = .rust then .loadCc k f ep else .refused k f, [])
  | .cas a _ =>
    if (g.slot a.ct).rc = a.rc then
      some (g.setRc (a.ct.setWidth 8) (stamp a.epoch a.rc a.cc), .validate a.call a.frag a.epoch a.ct, [])
    else some (g, .loadCc a.call a.frag a.epoch, [])
  | .validate k f ep ct =>
    if g.epoch = ep then some (g, .storeCt f ct, [(ct, f)])
    else some (g, if k = .force then .loadEpoch .nested f else .loadCc k f g.epoch, [])
  | .storeCt f ct => some ({ g with writeCursor := ct + 1 }, .write f ct 0, [])
  | .write f ct k =>
    some (g.setData (ct.setWidth 8) (f.copy k (g.slot ct).data),
      if k + 1 = MsgT.fields then .commit f ct else .write f ct (k + 1), [])
  | .commit _ ct => some (g.setFl (ct.setWidth 8) (atPos ct), .loadMarks ct, [])
  | .loadMarks ct =>
    let bits := marks (g.slot ct).rc
    some (g, if bits = 0 then .idle else .live ct bits bits 0, [])
  | .live ct bits todo acc =>
    if todo = 0 then some (g, .drop ct (bits &&& ~~~acc), [])
    else
      let m := liveStep g.owners ct todo acc
      some (g, .live ct bits m.1 m.2, [])
  | .drop ct stale =>
    some (g, if stale = 0 then .idle else .rel ct (stale &&& (stale - 1)) (stale &&& -stale) .load, [])
  | .rel ct stale bit m =>
    let r := m.step g (ct.setWidth 8) ct bit
    some (r.1, .relNext ct stale bit r.2, [])

/-! ## The receivers -/

/-- Where a receiver stands: opening, connected and between calls (`ready`), in `recv_multi`, or disconnecting. -/
inductive RPc where
  | closed
  | readSince
  | loadConns (since : BitVec 32)
  | casConns (since curr : BitVec 32)
  | setSince (since : BitVec 32)
  | stale (since : BitVec 32) (idx : Nat)
  | rel (since : BitVec 32) (idx : Nat) (pos : BitVec 32) (m : MPc)
  | adoptEpoch (since : BitVec 32)
  | adoptCt (since : BitVec 32) (ep : BitVec 64)
  | adoptWalk (since : BitVec 32) (ep : BitVec 64) (cur : BitVec 32) (n : Nat)
  | ownerTok
  | ownerPid
  | ready
  | read (k : Nat) (m : MsgT)
  | relLoad (m : MsgT)
  | freeStore (m : MsgT)
  | preStore (m : MsgT) (rc : BitVec 64)
  | relCas (m : MsgT) (rc : BitVec 64)
  | bump (m : MsgT)
  | clearPid
  | clearTok
  deriving DecidableEq, Repr

/-- A receiver endpoint. `pid` and `tok` are its process; `got` what it has read. -/
structure Receiver where
  connId : BitVec 32
  readCursor : BitVec 32
  pc : RPc
  disconnected : Bool
  pid : Int
  tok : Nat
  got : List MsgT
  deriving DecidableEq, Repr

/-- The slots `release_stale` still has to visit from `idx` on. -/
def RPc.staleFrom (since : BitVec 32) (idx : Nat) : RPc := if idx < 256 then .stale since idx else .adoptEpoch since

/-- On from an access of `release_mark`: to its next one, or to the next slot. -/
def RPc.relNext (since : BitVec 32) (idx : Nat) (pos : BitVec 32) : Option MPc → RPc
  | some m => .rel since idx pos m
  | none => .staleFrom since (idx + 1)

/-- The receiver's next access in connect, `recv_multi` (after its emptiness test) or `disconnect` (after its bit). -/
def Receiver.step (g : Ring) (r : Receiver) : Option (Ring × Receiver) :=
  match r.pc with
  | .closed => none
  | .readSince => some (g, { r with pc := .loadConns g.writeCursor })
  | .loadConns since =>
    -- too many receivers: `open` fails
    if g.connections ||| (g.connections + 1) = g.connections then some (g, { r with pc := .closed })
    else some (g, { r with pc := .casConns since g.connections })
  | .casConns since curr =>
    let next := curr ||| (curr + 1)
    if g.connections = curr then
      some ({ g with connections := next }, { r with connId := next ^^^ curr, pc := .setSince since })
    else some (g, { r with pc := .loadConns since })
  | .setSince since =>
    some (g.setOwner r.connId fun o => { o with since := since }, { r with pc := .staleFrom since 0 })
  | .stale since idx =>
    let fl := (g.slots (BitVec.ofNat 8 idx)).fCt
    let pos := (~~~fl).setWidth 32
    let pc := if committed fl ∧ isLive since pos = false then .rel since idx pos .load else .staleFrom since (idx + 1)
    some (g, { r with pc := pc })
  | .rel since idx pos m =>
    let p := m.step g (BitVec.ofNat 8 idx) pos r.connId
    some (p.1, { r with pc := .relNext since idx pos p.2 })
  | .adoptEpoch since => some (g, { r with pc := .adoptCt since g.epoch })
  | .adoptCt since ep => some (g, { r with pc := .adoptWalk since ep g.writeCursor 256 })
  | .adoptWalk since ep cur n =>
    let rc := (g.slot (cur - 1)).rc
    if n = 0 ∨ cur = since ∨ rc &&& r.connId.setWidth 64 = 0 ∨ rc &&& ~~~epMask ≠ ep then
      some (g, { r with readCursor := cur, pc := .ownerTok })
    else some (g, { r with pc := .adoptWalk since ep (cur - 1) (n - 1) })
  | .ownerTok => some (g.setOwner r.connId fun o => { o with startTok := r.tok }, { r with pc := .ownerPid })
  | .ownerPid => some (g.setOwner r.connId fun o => { o with pid := r.pid }, { r with pc := .ready })
  | .ready => none
  | .read k m =>
    let m' := (g.slot r.readCursor).data.copy k m
    some (g, { r with pc := if k + 1 = MsgT.fields then .relLoad m' else .read (k + 1) m' })
  | .relLoad m =>
    let rc := (g.slot r.readCursor).rc
    let pc := if marks rc = 0 then .freeStore m else if marks (unmark rc r.connId) = 0 then .preStore m rc
      else .relCas m rc
    some (g, { r with pc := pc })
  | .freeStore m => some (g.setFl (r.readCursor.setWidth 8) (freeFlag r.readCursor), { r with pc := .bump m })
  | .preStore m rc => some (g.setFl (r.readCursor.setWidth 8) (freeFlag r.readCursor), { r with pc := .relCas m rc })
  | .relCas m rc =>
    if (g.slot r.readCursor).rc = rc then
      some (g.setRc (r.readCursor.setWidth 8) (unmark rc r.connId), { r with pc := .bump m })
    else some (g, { r with pc := .relLoad m })
  | .bump m => some (g, { r with readCursor := r.readCursor + 1, pc := .ready, got := r.got ++ [m] })
  | .clearPid => some (g.setOwner r.connId fun o => { o with pid := 0 }, { r with pc := .clearTok })
  | .clearTok =>
    some (g.setOwner r.connId fun o => { o with startTok := 0 }, { r with pc := .ready, disconnected := true })

/-- `recv_multi`'s emptiness test: the commit flag of the slot at the cursor is loaded and compared. -/
def Receiver.recv (g : Ring) (r : Receiver) : Option Receiver :=
  match r.pc with
  | .ready => some (if (g.slot r.readCursor).fCt = atPos r.readCursor then { r with pc := .read 0 blank } else r)
  | _ => none

/-- `disconnect` (also run by `drop`): nothing on a disconnected endpoint, else the bit is cleared. -/
def Receiver.disconnect (g : Ring) (r : Receiver) : Option (Ring × Receiver) :=
  match r.pc with
  | .ready =>
    if r.disconnected then some (g, r)
    else some ({ g with connections := g.connections &&& ~~~r.connId }, { r with pc := .clearPid })
  | _ => none

/-- `open` in receiver mode, by process `pid` with start token `tok`. -/
def Receiver.open (r : Receiver) (pid : Int) (tok : Nat) : Option Receiver :=
  match r.pc with
  | .closed => some { r with pc := .readSince, pid := pid, tok := tok, disconnected := false }
  | _ => none

/-- A weak exchange of the receiver that fails. -/
def Receiver.fail (r : Receiver) : Option Receiver :=
  match r.pc with
  | .casConns since _ => some { r with pc := .loadConns since }
  | .rel since idx pos (.cas rc ver) => some { r with pc := .rel since idx pos (.fl rc ver) }
  | .relCas m _ => some { r with pc := .relLoad m }
  | _ => none

/-! ## The system -/

inductive WAct where
  | call (k : Call) (f : MsgT)
  | go
  | fail
  | giveUp
  deriving DecidableEq, Repr

def WPc.act (g : Ring) (n : Nat) (pc : WPc) : WAct → Option (Ring × WPc × List (BitVec 32 × MsgT))
  | .call k f =>
    match pc, k with
    | .idle, .rust => some (g, .loadEpoch .rust f, [])
    | .idle, .push => some (g, .loadEpoch .push f, [])
    | .idle, .force => some (g, .bumpEpoch f, [])
    | _, _ => none
  | .go => pc.step g n
  | .fail =>
    match pc with
    | .cas a _ => some (g, .loadCc a.call a.frag a.epoch, [])
    | .validate .push f ep _ => some (g, .loadCc .push f ep, [])
    | .validate .nested f ep _ => some (g, .loadCc .nested f ep, [])
    | .rel ct stale bit (.cas rc ver) => some (g, .rel ct stale bit (.fl rc ver), [])
    | _ => none
  | .giveUp =>
    match pc with
    | .busy .rust _ _ => some (g, .idle, [])
    | _ => none

inductive RAct where
  | opens (pid : Int) (tok : Nat)
  | recv
  | go
  | fail
  | disconnect
  deriving DecidableEq, Repr

def Receiver.act (g : Ring) (r : Receiver) : RAct → Option (Ring × Receiver)
  | .opens pid tok => (r.open pid tok).map fun r' => (g, r')
  | .recv => (r.recv g).map fun r' => (g, r')
  | .go => r.step g
  | .fail => r.fail.map fun r' => (g, r')
  | .disconnect => r.disconnect g

/-- A channel: its shared memory, its writers and its receivers. `claims` lists the claims made so far. -/
structure State (ω ι : Type) where
  ring : Ring
  writers : ω → WPc
  recvs : ι → Receiver
  claims : List (BitVec 32 × MsgT)

inductive Act (ω ι : Type) where
  | writer (w : ω) (a : WAct)
  | recv (i : ι) (a : RAct)
  deriving DecidableEq, Repr

variable {ω ι : Type} [DecidableEq ω] [DecidableEq ι]

def State.step (s : State ω ι) : Act ω ι → Option (State ω ι)
  | .writer w a =>
    ((s.writers w).act s.ring s.claims.length a).map fun p =>
      { s with ring := p.1, writers := update s.writers w p.2.1, claims := s.claims ++ p.2.2 }
  | .recv i a =>
    ((s.recvs i).act s.ring a).map fun p => { s with ring := p.1, recvs := update s.recvs i p.2 }

theorem State.step_cases {s t : State ω ι} {act : Act ω ι} (h : s.step act = some t) :
    (∃ w a g pc out, act = .writer w a ∧ (s.writers w).act s.ring s.claims.length a = some (g, pc, out) ∧
      t = { s with ring := g, writers := update s.writers w pc, claims := s.claims ++ out }) ∨
    ∃ i a g r, act = .recv i a ∧ (s.recvs i).act s.ring a = some (g, r) ∧
      t = { s with ring := g, recvs := update s.recvs i r } := by
  cases act with
  | writer w a =>
    obtain ⟨⟨g, pc, out⟩, hp, rfl⟩ := Option.map_eq_some_iff.mp h
    exact Or.inl ⟨w, a, g, pc, out, rfl, hp, rfl⟩
  | recv i a =>
    obtain ⟨⟨g, r⟩, hp, rfl⟩ := Option.map_eq_some_iff.mp h
    exact Or.inr ⟨i, a, g, r, rfl, hp, rfl⟩

end ThothIpc.Channel
