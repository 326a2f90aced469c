import ThothIpc.Route.Model
import ThothIpc.Channel.Model
import ThothIpc.Message.Fragment
import ThothIpc.Sole.Claim

/-!
# The endpoints of a Rust route or channel

`ChanInner` is the same for routes and channels: what differs is the ring under it, and that only a route's sender has
to hold the sole-sender record.

* `RingModel` : what an endpoint uses of a ring, `routeModel`, `channelModel` : the two there are (`Kind`);
* `Sender`, `SndPc` : a sender endpoint, and where it stands in `open`, `send`, `disconnect` or `drop`;
* `State.step` : any number of senders and receivers on one ring, and their processes.

`try_send` and `try_recv` are `send` and `recv` with no time to wait: waiting has no effect on the shared memory, so
they are the same steps here. A `send` on a receiver and a `recv` on a sender return an error at once (`refused`).
-/

namespace ThothIpc.Endpoint
open Steps Sole Message

/-! ## Rings -/

/-- What an endpoint uses of a ring: the accesses of `push_fragment`, up to its result, and those of a receiver. -/
structure RingModel where
  /-- The shared memory. -/
  Ring : Type
  /-- Where a push stands, and the choices of its next step. -/
  Place : Type
  WAct : Type
  /-- A receiver endpoint, and the choices of its next step. -/
  Recv : Type
  RAct : Type
  multi : Bool
  connections : Ring → BitVec 32
  start : MsgT → Place
  push : Ring → Place → WAct → Option (Ring × (Place ⊕ Bool))
  recv : Ring → Recv → RAct → Option (Ring × Recv)
  disconnected : Recv → Bool

/-- The ring of a route; a push has returned when the sender is idle again, and says whether it has published. -/
def routeModel : RingModel where
  Ring := Route.Ring
  Place := Route.SPc
  WAct := Route.SAct
  Recv := Route.Receiver
  RAct := Route.RAct
  multi := false
  connections := Route.Ring.connections
  start := .loadCc
  push g pc a := (pc.act g a).map fun p => (p.1, if p.2.1 = .idle then .inr !p.2.2.isEmpty else .inl p.2.1)
  recv g r a := r.act g a
  disconnected := Route.Receiver.disconnected

def committedPlace : Channel.WPc → Bool
  | .loadMarks _ => true
  | .drop _ _ => true
  | _ => false

/-- The ring of a channel, with the claims made so far. -/
def channelModel : RingModel where
  Ring := Channel.Ring × List (BitVec 32 × MsgT)
  Place := Channel.WPc
  WAct := Channel.WAct
  Recv := Channel.Receiver
  RAct := Channel.RAct
  multi := true
  connections g := g.1.connections
  start := .loadEpoch .rust
  push g pc a := (pc.act g.1 g.2.length a).map fun p =>
    ((p.1, g.2 ++ p.2.2), if p.2.1 = .idle then .inr (committedPlace pc) else .inl p.2.1)
  recv g r a := (r.act g.1 a).map fun p => ((p.1, g.2), p.2)
  disconnected := Channel.Receiver.disconnected

inductive Kind where
  | route
  | channel
  deriving DecidableEq, Repr

def model : Kind → RingModel
  | .route => routeModel
  | .channel => channelModel

/-! ## Senders -/

/-- Where a sender endpoint stands: not open, in `open` (`count`, `claim`), between calls, in `send` (`ask`: in
`sender_ready`'s claim; `holder`: loading the pid), or in `disconnect` (`uncount`, `release`). -/
inductive SndPc (K : RingModel) where
  | closed
  | count
  | claim (c : ClaimPc)
  | ready
  | ask (data : List UInt8) (c : ClaimPc)
  | holder
  | conns (data : List UInt8)
  | ident (data : List UInt8)
  | push (w : K.Place) (rest : List MsgT)
  | uncount
  | release (r : RelPc)

/-- A sender endpoint of process `proc`; `dropping` : its disconnect is run by `drop`. -/
structure Sender (K : RingModel) (π : Type) where
  proc : π
  ccId : BitVec 32
  claimed : Bool
  disconnected : Bool
  dropping : Bool
  sendSeq : BitVec 32
  pc : SndPc K

/-- The shared memory, the endpoints and the process table. `sole` is the sole-sender record, `msgIds` the counter that
numbers a channel's messages. -/
structure State (K : RingModel) {π : Type} (W : World π) (ε ι : Type) where
  os : Os W
  ring : K.Ring
  senderCount : BitVec 32
  sole : SlotOwner
  msgIds : BitVec 32
  senders : ε → Sender K π
  recvs : ι → K.Recv

/-- What happens on a sender endpoint: a call, its next access, or the next access of its push. -/
inductive SndAct (K : RingModel) (π : Type) where
  | opens (q : π) (ccId : BitVec 32)
  | send (data : List UInt8)
  | disconnect
  | drop
  | go
  | writer (a : K.WAct)
  | refused

inductive Act (K : RingModel) (π ε ι : Type) where
  | spawn (q : π)
  | kill (q : π)
  | sender (e : ε) (a : SndAct K π)
  | recv (i : ι) (a : K.RAct)
  | refused (i : ι)

variable {K : RingModel} {π ε ι : Type} {W : World π} [DecidableEq π] [DecidableEq ε] [DecidableEq ι]

/-- The endpoint after its disconnect. -/
def Sender.finish (x : Sender K π) : Sender K π :=
  { x with disconnected := true, pc := if x.dropping then .closed else .ready }

/-- On with a message's fragments. -/
def pushRest : List MsgT → SndPc K
  | [] => .ready
  | f :: rest => .push (K.start f) rest

def State.senderGo (s : State K W ε ι) (e : ε) : Option (State K W ε ι) :=
  let x := s.senders e
  let set (y : Sender K π) : State K W ε ι := { s with senders := Function.update s.senders e y }
  match x.pc with
  | .closed => none
  | .count =>
    some { set { x with pc := if K.multi then .ready else .claim .loadPid } with senderCount := s.senderCount + 1 }
  | .claim c =>
    match c.step s.os.token (W.pid x.proc) (W.tok x.proc) s.sole with
    | (o, .inl c') => some { set { x with pc := .claim c' } with sole := o }
    | (o, .inr ok) => some { set { x with pc := .ready, claimed := ok } with sole := o }
  | .ready => none
  | .ask data c =>
    match c.step s.os.token (W.pid x.proc) (W.tok x.proc) s.sole with
    | (o, .inl c') => some { set { x with pc := .ask data c' } with sole := o }
    | (o, .inr true) => some { set { x with pc := .conns data, claimed := true } with sole := o }
    | (o, .inr false) => some { set { x with pc := .holder } with sole := o }
  | .holder => some (set { x with pc := .ready })
  | .conns data => some (set { x with pc := if K.connections s.ring = 0 then .ready else .ident data })
  | .ident data =>
    if K.multi then
      some { set { x with pc := pushRest (Sent.fragments ⟨x.ccId, s.msgIds, data⟩) } with msgIds := s.msgIds + 1 }
    else
      some (set { x with pc := pushRest (Sent.fragments ⟨x.ccId, x.sendSeq, data⟩), sendSeq := x.sendSeq + 1 })
  | .push _ _ => none
  | .uncount =>
    let x' := if x.claimed then { x with pc := .release .load } else x.finish
    some { set x' with senderCount := s.senderCount - 1 }
  | .release r =>
    match r.step (W.pid x.proc) s.sole with
    | (o, some r') => some { set { x with pc := .release r' } with sole := o }
    | (o, none) => some { set { x with claimed := false }.finish with sole := o }

/-- The next access of a sender's push. -/
def State.senderPush (s : State K W ε ι) (e : ε) (a : K.WAct) : Option (State K W ε ι) :=
  let x := s.senders e
  match x.pc with
  | .push w rest =>
    (K.push s.ring w a).map fun p =>
      let pc : SndPc K :=
        match p.2 with
        | .inl w' => .push w' rest
        | .inr true => pushRest rest
        | .inr false => .ready
      { s with ring := p.1, senders := Function.update s.senders e { x with pc := pc } }
  | _ => none

def Sender.call (x : Sender K π) : SndAct K π → Option (Sender K π)
  | .opens q ccId =>
    match x.pc with
    | .closed => some ⟨q, ccId, false, false, false, 0, .count⟩
    | _ => none
  | .send data =>
    match x.pc with
    | .ready =>
      some (if data = [] then x
        else if K.multi || x.claimed then { x with pc := .conns data }
        else { x with pc := .ask data .loadPid })
    | _ => none
  | .disconnect =>
    match x.pc with
    | .ready => some (if x.disconnected then x else { x with pc := .uncount })
    | _ => none
  | .drop =>
    match x.pc with
    | .ready => some (if x.disconnected then { x with pc := .closed } else { x with dropping := true, pc := .uncount })
    | _ => none
  | .refused =>
    match x.pc with
    | .ready => some x
    | _ => none
  | .go => none
  | .writer _ => none

/-- The process a step of the endpoint runs in. -/
def Sender.actor (x : Sender K π) : SndAct K π → π
  | .opens q _ => q
  | _ => x.proc

def State.step (s : State K W ε ι) : Act K π ε ι → Option (State K W ε ι)
  | .spawn q => (s.os.spawn q).map fun o => { s with os := o }
  | .kill q => (s.os.kill q).map fun o => { s with os := o }
  | .sender e a =>
    if s.os.alive ((s.senders e).actor a) then
      match a with
      | .go => s.senderGo e
      | .writer a => s.senderPush e a
      | a => ((s.senders e).call a).map fun x => { s with senders := Function.update s.senders e x }
    else none
  | .recv i a => (K.recv s.ring (s.recvs i) a).map fun p =>
    { s with ring := p.1, recvs := Function.update s.recvs i p.2 }
  | .refused _ => some s

end ThothIpc.Endpoint
