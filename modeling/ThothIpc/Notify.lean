import ThothIpc.Lib.Run

/-!
# Readiness over named FIFOs

`notify.rs`, the FIFO backend, with the part of `send` that uses it. A receiver opens its sink: it makes the FIFO of its
connection slot, if the path does not exist, and opens it for reading. A sender that has pushed a message loads
`connections` and writes one byte to the FIFO of every connected slot, through write ends that it keeps from one `send`
to the next, while the slot is connected and the FIFO has a reader.

* `State.step` : the system calls of `open`, `drain`, `close` and `signal`, and the connections they go with;
* `aimed` : the byte for a receiver goes to the FIFO that receiver reads, and nobody else drains it;
* `readiness_kept` : under `aimed`, a receiver that has not read the message has a byte to read or has drained since;
* `readiness_lost` : what happens otherwise.

`Connections` are taken and given back in one step, and a slot can be taken from its receiver without its knowing. A
receiver connects once: `reconnect` makes a new one. Push times stand for the messages.
-/

namespace ThothIpc.Notify
open Function Steps

/-! ## The system calls -/

/-- Where a receiver is in `NotifySink::open` and `close`: it has made the FIFO, could not open it, or has closed its
ends. -/
inductive Call where
  | idle
  | made
  | failed
  | closing
  deriving DecidableEq, Repr

/-- A receiver: its `conn_id`, its read end, when that was opened and last read from, and the messages it has not
read. -/
structure Recv where
  connId : Option (Fin 32)
  disconnected : Bool
  call : Call
  rfd : Option Nat
  opened : Nat
  drained : Nat
  unread : List Nat
  deriving DecidableEq, Repr

/-- A message: when its `send` began, when it was pushed, and the `conn_id` of its sender. -/
structure Msg where
  began : Nat
  pushed : Nat
  selfId : Option (Fin 32)
  deriving DecidableEq, Repr

/-- `send`: before the push, before `connections` is loaded, and in `signal` with the loaded word at a slot or before
the write to it. -/
inductive Pc where
  | idle
  | push
  | load
  | slot (conns : Fin 32 → Bool) (l : List (Fin 32))
  | write (conns : Fin 32 → Bool) (i : Fin 32) (l : List (Fin 32))

/-- A sender: its `conn_id`, its write ends, the message it is sending. -/
structure Sender where
  connId : Option (Fin 32)
  wfd : Fin 32 → Option Nat
  msg : Msg
  pc : Pc

/-- `owner`: who has each slot of `connections`; `path`: the FIFO that a slot's path names; `nodes`: the next FIFO;
`returned`: the messages whose `send` has returned true. -/
structure State (κ ι : Type) where
  owner : Fin 32 → Option ι
  path : Fin 32 → Option Nat
  bytes : Nat → Nat
  readers : Nat → List ι
  nodes : Nat
  recvs : ι → Recv
  senders : κ → Sender
  returned : List Msg
  clock : Nat

/-- `make`, `open`, `unlink`, `close` : the calls of `NotifySink::open` and `close`. A FIFO is emptied when its last end
is closed. `read` is one turn of `drain`, `take` reads a message. -/
inductive RAct where
  | connect (i : Fin 32)
  | disconnect
  | make
  | open (ok : Bool)
  | unlink
  | close (discard : Bool)
  | read
  | take
  deriving DecidableEq, Repr

/-- `send` is called, does not push and returns, or goes on. -/
inductive SAct where
  | begin
  | fail
  | go
  deriving DecidableEq, Repr

inductive Act (κ ι : Type) where
  | recv (r : ι) (a : RAct)
  | evict (i : Fin 32)
  | sender (k : κ) (a : SAct)

namespace State

variable {κ ι : Type}

/-- A receiver is connected: a slot is its own. -/
def Connected (s : State κ ι) (r : ι) : Prop := ∃ j, s.owner j = some r

instance [DecidableEq ι] (s : State κ ι) (r : ι) : Decidable (s.Connected r) := inferInstanceAs (Decidable (∃ _, _))

def setRecv [DecidableEq ι] (s : State κ ι) (r : ι) (p : Recv) : State κ ι :=
  { s with recvs := update s.recvs r p }

def setSender [DecidableEq κ] (s : State κ ι) (k : κ) (p : Sender) : State κ ι :=
  { s with senders := update s.senders k p }

/-- `mkfifo`: a new FIFO, unless the path exists. -/
def mkfifo (s : State κ ι) (i : Fin 32) : State κ ι :=
  match s.path i with
  | some _ => s
  | none => { s with path := update s.path i (some s.nodes), nodes := s.nodes + 1 }

def unlink (s : State κ ι) (i : Fin 32) : State κ ι := { s with path := update s.path i none }

variable [DecidableEq ι]

def stepRecv (s : State κ ι) (r : ι) (a : RAct) : Option (State κ ι) :=
  let p := s.recvs r
  match a, p.connId with
  | .connect i, none =>
    if s.owner i = none then
      some ({ s with owner := update s.owner i (some r) }.setRecv r { p with connId := some i })
    else none
  | .disconnect, some i =>
    -- the bit is cleared whoever has it now
    if p.disconnected then none
    else some ({ s with owner := update s.owner i none }.setRecv r { p with disconnected := true })
  | .make, some i =>
    if p.rfd = none ∧ p.call = .idle then some ((s.mkfifo i).setRecv r { p with call := .made }) else none
  | .open ok, some i =>
    if p.call = .made then
      match s.path i, ok with
      | some f, true =>
        some ({ s with readers := update s.readers f (r :: s.readers f) }.setRecv r
          { p with rfd := some f, opened := s.clock, call := .idle })
      | _, _ => some (s.setRecv r { p with call := .failed })
    else none
  | .unlink, some i =>
    if p.call = .failed ∨ p.call = .closing then some ((s.unlink i).setRecv r { p with call := .idle }) else none
  | .close discard, some _ =>
    match p.rfd with
    | some f =>
      let rest := (s.readers f).filter (· ≠ r)
      some ({ s with
        readers := update s.readers f rest
        bytes := if discard ∧ rest = [] then update s.bytes f 0 else s.bytes }.setRecv r
          { p with rfd := none, call := .closing })
    | none => none
  | .read, some _ =>
    match p.rfd with
    | some f =>
      if s.bytes f = 0 then some s
      else some ({ s with bytes := update s.bytes f (s.bytes f - 256) }.setRecv r { p with drained := s.clock })
    | none => none
  | .take, some _ => if p.unread = [] then none else some (s.setRecv r { p with unread := p.unread.tail })
  | _, _ => none

/-- The receivers after a push. -/
def delivered (s : State κ ι) (r : ι) : Recv :=
  if s.Connected r then { s.recvs r with unread := (s.recvs r).unread ++ [s.clock] } else s.recvs r

variable [DecidableEq κ] (cap : Nat)

/-- `send` and `signal`. The pipes hold `cap` bytes. -/
def stepSender (s : State κ ι) (k : κ) (a : SAct) : Option (State κ ι) :=
  let p := s.senders k
  match p.pc, a with
  | .idle, .begin => some (s.setSender k { p with msg := ⟨s.clock, 0, p.connId⟩, pc := .push })
  | .push, .fail => some (s.setSender k { p with pc := .idle })
  | .push, .go =>
    some ({ s with recvs := s.delivered }.setSender k { p with msg := { p.msg with pushed := s.clock }, pc := .load })
  | .load, .go => some (s.setSender k { p with pc := .slot (fun i => (s.owner i).isSome) (List.finRange 32) })
  | .slot conns (i :: l), .go =>
    if conns i ∧ p.connId ≠ some i then
      match p.wfd i with
      | some _ => some (s.setSender k { p with pc := .write conns i l })
      | none =>
        match s.path i with
        | some f =>
          if s.readers f ≠ [] then
            some (s.setSender k { p with wfd := update p.wfd i (some f), pc := .write conns i l })
          else some (s.setSender k { p with pc := .slot conns l })
        | none => some (s.setSender k { p with pc := .slot conns l })
    else some (s.setSender k { p with wfd := update p.wfd i none, pc := .slot conns l })
  | .slot _ [], .go => some ({ s with returned := p.msg :: s.returned }.setSender k { p with pc := .idle })
  | .write conns i l, .go =>
    match p.wfd i with
    | none => some (s.setSender k { p with pc := .slot conns l })
    | some f =>
      if s.readers f = [] then
        some (s.setSender k { p with wfd := update p.wfd i none, pc := .slot conns l })
      else if s.bytes f < cap then
        some ({ s with bytes := update s.bytes f (s.bytes f + 1) }.setSender k { p with pc := .slot conns l })
      else some (s.setSender k { p with pc := .slot conns l })
  | _, _ => none

def tick (s : State κ ι) : State κ ι := { s with clock := s.clock + 1 }

def step (s : State κ ι) (a : Act κ ι) : Option (State κ ι) :=
  match a with
  | .recv r a => (s.stepRecv r a).map tick
  | .evict i => some (tick { s with owner := update s.owner i none })
  | .sender k a => (s.stepSender cap k a).map tick

end State

/-! ## What a receiver waits for -/

section Waiting

variable {κ ι : Type}

namespace State

/-- The receiver `r` in slot `j` is connected, is not the sender, had opened its sink before the `send` of `m` began,
and has not read `m`. -/
def Awaits (s : State κ ι) (m : Msg) (r : ι) (j : Fin 32) : Prop :=
  s.owner j = some r ∧ m.selfId ≠ some j ∧ (s.recvs r).rfd.isSome ∧ (s.recvs r).opened < m.began ∧
    m.pushed ∈ (s.recvs r).unread

instance [DecidableEq ι] (s : State κ ι) (m : Msg) (r : ι) (j : Fin 32) : Decidable (s.Awaits m r j) :=
  inferInstanceAs (Decidable (_ ∧ _))

/-- The unread bytes of the FIFO that the receiver polls. -/
def polled (s : State κ ι) (r : ι) : Nat := ((s.recvs r).rfd.map s.bytes).getD 0

/-- The receiver has a byte to read, or has drained its FIFO since `m` was pushed. -/
def Ready (s : State κ ι) (m : Msg) (r : ι) : Prop := 0 < s.polled r ∨ m.pushed < (s.recvs r).drained

end State

/-- A write end that `signal` keeps for a receiver that waits is of the FIFO it reads; where it has none, the slot's
path names that FIFO. -/
def aimedAt (s : State κ ι) (k : κ) : Pc → Prop
  | .slot _ (i :: _) => (s.senders k).wfd i = none → ∀ r, s.Awaits (s.senders k).msg r i → s.path i = (s.recvs r).rfd
  | .write _ i _ => ∀ r, s.Awaits (s.senders k).msg r i → (s.senders k).wfd i = (s.recvs r).rfd
  | _ => True

/-- `signal` aims at the right FIFO; and a FIFO with unread bytes is drained only if no other connected receiver with
messages reads it. -/
def aimed (s : State κ ι) : Act κ ι → Prop
  | .recv r .read => ∀ r' j, r' ≠ r → s.owner j = some r' → (s.recvs r').rfd = (s.recvs r).rfd → s.polled r = 0 ∨
      (s.recvs r').unread = []
  | .sender k .go => aimedAt s k (s.senders k).pc
  | _ => True

end Waiting

/-! ## The invariant -/

def Pc.conns : Pc → Option (Fin 32 → Bool)
  | slot c _ => some c
  | write c _ _ => some c
  | _ => none

/-- The slots `signal` has still to come to, or is at. -/
def Pc.left : Pc → List (Fin 32)
  | slot _ l => l
  | write _ i l => i :: l
  | _ => []

def Pc.pushed : Pc → Bool
  | load => true
  | slot _ _ => true
  | write _ _ _ => true
  | _ => false

variable {κ ι : Type}

/-- `signal` has been at slot `j` for the message. -/
def State.Signalled (s : State κ ι) (m : Msg) (j : Fin 32) : Prop :=
  m ∈ s.returned ∨ ∃ k, (s.senders k).msg = m ∧ (s.senders k).pc.conns.isSome ∧ j ∉ (s.senders k).pc.left

/-- A connected receiver knows its slot, a sink belongs to a connection, and its FIFO has it as a reader; times are in
the past; the loaded word has every receiver whose sink was open before; and a receiver that `signal` has been at is
ready. -/
structure Inv (s : State κ ι) : Prop where
  owner : ∀ j r, s.owner j = some r → (s.recvs r).connId = some j
  sink : ∀ r, (s.recvs r).rfd.isSome → (s.recvs r).connId.isSome
  reader : ∀ r f, (s.recvs r).rfd = some f → r ∈ s.readers f
  returned : ∀ m ∈ s.returned, m.began < s.clock ∧ m.pushed < s.clock
  began : ∀ k, (s.senders k).pc ≠ .idle → (s.senders k).msg.began < s.clock
  selfId : ∀ k, (s.senders k).pc ≠ .idle → (s.senders k).msg.selfId = (s.senders k).connId
  pushed : ∀ k, (s.senders k).pc.pushed = true → (s.senders k).msg.pushed < s.clock
  conns : ∀ k c, (s.senders k).pc.conns = some c → ∀ r j, s.owner j = some r → (s.recvs r).rfd.isSome →
    (s.recvs r).opened < (s.senders k).msg.began → c j = true
  ready : ∀ m r j, s.Signalled m j → s.Awaits m r j → s.Ready m r

namespace Inv

variable {s s' : State κ ι}

theorem signalled_lt (h : Inv s) {m : Msg} {j : Fin 32} (hm : s.Signalled m j) :
    m.began < s.clock ∧ m.pushed < s.clock := by
  rcases hm with hm | ⟨k, rfl, hc, -⟩
  · exact h.returned m hm
  · cases hpc : (s.senders k).pc <;> rw [hpc] at hc
    case slot | write => exact ⟨h.began k (by rw [hpc]; simp), h.pushed k (by rw [hpc]; rfl)⟩
    all_goals cases hc

/-- A step of which the senders take no part. Whoever is connected with a sink opened in the past was so before. -/
theorem env (h : Inv s) (hsend : s'.senders = s.senders) (hret : s'.returned = s.returned) (hclock : s.clock ≤ s'.clock)
    (howner : ∀ j r, s'.owner j = some r → (s'.recvs r).connId = some j)
    (hsink : ∀ r, (s'.recvs r).rfd.isSome → (s'.recvs r).connId.isSome)
    (hreader : ∀ r f, (s'.recvs r).rfd = some f → r ∈ s'.readers f)
    (hold : ∀ r j, s'.owner j = some r → (s'.recvs r).rfd.isSome → (s'.recvs r).opened < s.clock →
      s.owner j = some r ∧ (s.recvs r).rfd.isSome ∧ (s.recvs r).opened = (s'.recvs r).opened)
    (hunread : ∀ r t, t < s.clock → t ∈ (s'.recvs r).unread → t ∈ (s.recvs r).unread)
    (hready : ∀ m r j, m.pushed < s.clock → (s'.recvs r).opened < s.clock → s.Awaits m r j → s'.Awaits m r j →
      s.Ready m r → s'.Ready m r) : Inv s' where
  owner := howner
  sink := hsink
  reader := hreader
  returned := fun m hm => by
    obtain ⟨h1, h2⟩ := h.returned m (hret ▸ hm)
    exact ⟨by omega, by omega⟩
  began := fun k hk => by
    rw [hsend] at hk ⊢
    have := h.began k hk
    omega
  selfId := fun k => by
    rw [hsend]
    exact h.selfId k
  pushed := fun k hk => by
    rw [hsend] at hk ⊢
    have := h.pushed k hk
    omega
  conns := fun k c hc r j ho hr hlt => by
    rw [hsend] at hc hlt
    have hb : (s.senders k).msg.began < s.clock := h.began k (fun hi => by rw [hi] at hc; cases hc)
    obtain ⟨ho', hr', he⟩ := hold r j ho hr (by omega)
    exact h.conns k c hc r j ho' hr' (by omega)
  ready := fun m r j hm ha => by
    have hm : s.Signalled m j := by
      unfold State.Signalled at hm ⊢
      rwa [hsend, hret] at hm
    obtain ⟨hb, hp⟩ := h.signalled_lt hm
    obtain ⟨ho, hself, hr, hlt, hu⟩ := ha
    obtain ⟨ho', hr', he⟩ := hold r j ho hr (by omega)
    have ha' : s.Awaits m r j := ⟨ho', hself, hr', by omega, hunread r _ hp hu⟩
    exact hready m r j hp (by omega) ha' ⟨ho, hself, hr, hlt, hu⟩ (h.ready m r j hm ha')

/-- A step in which no receiver gets or loses anything but its connection, and no FIFO changes. -/
theorem quiet (h : Inv s) (hsend : s'.senders = s.senders) (hret : s'.returned = s.returned)
    (hclock : s.clock ≤ s'.clock) (hread : s'.readers = s.readers) (hbytes : s'.bytes = s.bytes)
    (howner : ∀ j r, s'.owner j = some r → s.owner j = some r)
    (hrecv : ∀ r, (s'.recvs r).connId = (s.recvs r).connId ∧ (s'.recvs r).rfd = (s.recvs r).rfd ∧
      (s'.recvs r).opened = (s.recvs r).opened ∧ (s'.recvs r).drained = (s.recvs r).drained ∧
      ∀ t, t ∈ (s'.recvs r).unread → t ∈ (s.recvs r).unread) : Inv s' := by
  refine h.env hsend hret hclock (fun j r ho => ?_) (fun r => ?_) (fun r f => ?_) (fun r j ho hr _ => ?_)
    (fun r t _ => (hrecv r).2.2.2.2 t) fun m r j _ _ _ _ hready => ?_
  · rw [(hrecv r).1]
    exact h.owner j r (howner j r ho)
  · rw [(hrecv r).1, (hrecv r).2.1]
    exact h.sink r
  · rw [(hrecv r).2.1, hread]
    exact h.reader r f
  · rw [(hrecv r).2.1] at hr
    exact ⟨howner j r ho, hr, (hrecv r).2.2.1.symm⟩
  · unfold State.Ready State.polled at hready ⊢
    rwa [(hrecv r).2.1, (hrecv r).2.2.2.1, hbytes]

/-! ## The steps of the receivers -/

variable [DecidableEq ι]

theorem recvCall (h : Inv s) {r : ι} {p : Recv} {path : Fin 32 → Option Nat} {nodes : Nat} {owner : Fin 32 → Option ι}
    (howner : ∀ j q, owner j = some q → s.owner j = some q)
    (hp : p.connId = (s.recvs r).connId ∧ p.rfd = (s.recvs r).rfd ∧ p.opened = (s.recvs r).opened ∧
      p.drained = (s.recvs r).drained ∧ ∀ t, t ∈ p.unread → t ∈ (s.recvs r).unread) :
    Inv (State.tick (State.setRecv { s with owner := owner, path := path, nodes := nodes } r p)) := by
  refine h.quiet rfl rfl (Nat.le_succ _) rfl rfl howner fun q => ?_
  show (update s.recvs r p q).connId = _ ∧ (update s.recvs r p q).rfd = _ ∧
    (update s.recvs r p q).opened = _ ∧ (update s.recvs r p q).drained = _ ∧
    ∀ t, t ∈ (update s.recvs r p q).unread → _
  by_cases hq : q = r
  · subst hq
    rw [update_self]
    exact hp
  · rw [update_of_ne hq]
    exact ⟨rfl, rfl, rfl, rfl, fun _ ht => ht⟩

theorem update_recvs {P : ι → Recv → Prop} {r : ι} {p : Recv} (hr : P r p) (h : ∀ q, q ≠ r → P q (s.recvs q)) :
    ∀ q, P q (update s.recvs r p q) := by
  intro q
  by_cases hq : q = r
  · subst hq
    rwa [update_self]
  · rw [update_of_ne hq]
    exact h q hq

/-- A step of `r`. The others keep their connections, their FIFOs and the bytes they need. -/
theorem recvTo (h : Inv s) {r : ι} {p : Recv} {owner : Fin 32 → Option ι} {path : Fin 32 → Option Nat}
    {bytes : Nat → Nat} {readers : Nat → List ι} {nodes : Nat}
    (howner : ∀ q, q ≠ r → ∀ j, owner j = some q → s.owner j = some q)
    (hreaders : ∀ q, q ≠ r → ∀ f, q ∈ s.readers f → q ∈ readers f)
    (hbytes : ∀ q, q ≠ r → ∀ j f, s.owner j = some q → (s.recvs q).rfd = some f → (s.recvs q).unread ≠ [] →
      0 < s.bytes f → 0 < bytes f)
    (hconn : ∀ j, owner j = some r → p.connId = some j) (hsink : p.rfd.isSome → p.connId.isSome)
    (hreader : ∀ f, p.rfd = some f → r ∈ readers f)
    (hold : ∀ j, owner j = some r → p.rfd.isSome → p.opened < s.clock →
      s.owner j = some r ∧ (s.recvs r).rfd.isSome ∧ (s.recvs r).opened = p.opened)
    (hunread : ∀ t, t ∈ p.unread → t ∈ (s.recvs r).unread)
    (hready : ∀ m, m < s.clock → p.opened < s.clock → (s.recvs r).rfd.isSome → p.rfd.isSome →
      0 < s.polled r ∨ m < (s.recvs r).drained → 0 < (p.rfd.map bytes).getD 0 ∨ m < p.drained) :
    Inv (State.tick (State.setRecv { s with owner, path, bytes, readers, nodes } r p)) := by
  refine h.env rfl rfl (Nat.le_succ _) (fun j => ?_) ?_ ?_ ?_ ?_ fun m q j hm hlt ha ha' => ?_
  · exact update_recvs (P := fun q p => owner j = some q → p.connId = some j) (hconn j) fun q hq ho =>
      h.owner j q (howner q hq j ho)
  · exact update_recvs (P := fun _ p => p.rfd.isSome → p.connId.isSome) hsink fun q _ => h.sink q
  · exact update_recvs (P := fun q p => ∀ f, p.rfd = some f → q ∈ readers f) hreader fun q hq f hf =>
      hreaders q hq f (h.reader q f hf)
  · exact update_recvs (P := fun q p => ∀ j, owner j = some q → p.rfd.isSome → p.opened < s.clock →
      s.owner j = some q ∧ (s.recvs q).rfd.isSome ∧ (s.recvs q).opened = p.opened) hold fun q hq j ho hr _ =>
      ⟨howner q hq j ho, hr, rfl⟩
  · exact update_recvs (P := fun q p => ∀ t, t < s.clock → t ∈ p.unread → t ∈ (s.recvs q).unread) (fun t _ => hunread t)
      fun _ _ _ _ ht => ht
  · obtain ⟨ho, -, hr, -, hu⟩ := ha
    have hr' := ha'.2.2.1
    by_cases hq : q = r
    · subst hq
      have hself : update s.recvs q p q = p := update_self _ _ _
      simp only [State.Ready, State.polled, State.tick, State.setRecv, hself] at hlt hr' ⊢
      exact hready m.pushed hm hlt hr hr'
    · have hother : update s.recvs r p q = s.recvs q := update_of_ne hq _ _
      simp only [State.Ready, State.polled, State.tick, State.setRecv, hother]
      obtain ⟨f, hf⟩ := Option.isSome_iff_exists.mp hr
      rw [hf]
      exact Or.imp (hbytes q hq j f ho hf (List.ne_nil_of_mem hu)) id

theorem connect (h : Inv s) {r : ι} {i : Fin 32} (hc : (s.recvs r).connId = none) :
    Inv (State.tick (State.setRecv { s with owner := update s.owner i (some r) } r
      { s.recvs r with connId := some i })) := by
  have hsink : (s.recvs r).rfd = none := by
    by_contra hne
    have := h.sink r (Option.isSome_iff_ne_none.mpr hne)
    rw [hc] at this
    cases this
  refine h.recvTo (fun q hq j ho => ?_) (fun _ _ _ hm => hm) (fun _ _ _ _ _ _ _ hb => hb) (fun j ho => ?_) (fun _ => rfl)
    (h.reader r) (fun j _ hr _ => ?_) (fun _ ht => ht) fun _ _ _ hr => ?_
  · by_cases hj : j = i
    · rw [hj, update_self] at ho
      exact absurd (Option.some.inj ho).symm hq
    · rwa [update_of_ne hj] at ho
  · by_cases hj : j = i
    · rw [hj]
    · rw [update_of_ne hj] at ho
      have := h.owner j r ho
      rw [hc] at this
      cases this
  · rw [show _ = _ from hsink] at hr
    cases hr
  · rw [hsink] at hr
    cases hr

theorem opens (h : Inv s) {r : ι} {i : Fin 32} {f : Nat} (hc : (s.recvs r).connId = some i) :
    Inv (State.tick (State.setRecv { s with readers := update s.readers f (r :: s.readers f) } r
      { s.recvs r with rfd := some f, opened := s.clock, call := .idle })) := by
  refine h.recvTo (fun _ _ _ ho => ho) (fun q _ g hg => ?_) (fun _ _ _ _ _ _ _ hb => hb) (h.owner · r) (fun _ => ?_)
    (fun g hg => ?_) (fun j _ _ hlt => absurd hlt (Nat.lt_irrefl _)) (fun _ ht => ht)
    fun _ _ hlt => absurd hlt (Nat.lt_irrefl _)
  · by_cases hgf : g = f
    · rw [hgf, update_self]
      exact List.mem_cons_of_mem _ (hgf ▸ hg)
    · rwa [update_of_ne hgf]
  · rw [show _ = _ from hc]
    rfl
  · cases hg
    rw [update_self]
    exact List.mem_cons_self

theorem closes (h : Inv s) {r : ι} {f : Nat} {b : Nat → Nat} (hb : ∀ q, q ≠ r → q ∈ s.readers f → b f = s.bytes f)
    (hne : ∀ g, g ≠ f → b g = s.bytes g) :
    Inv (State.tick (State.setRecv
      { s with readers := update s.readers f ((s.readers f).filter (· ≠ r)), bytes := b } r
      { s.recvs r with rfd := none, call := .closing })) := by
  refine h.recvTo (fun _ _ _ ho => ho) (fun q hq g hg => ?_) (fun q hq j g _ hg _ hpos => ?_) (h.owner · r)
    (fun hr => by cases hr) (fun g hg => by cases hg) (fun _ _ hr => by cases hr) (fun _ ht => ht)
    fun _ _ _ _ hr => by cases hr
  · by_cases hgf : g = f
    · rw [hgf, update_self, List.mem_filter]
      exact ⟨hgf ▸ hg, by simpa using hq⟩
    · rwa [update_of_ne hgf]
  · by_cases hgf : g = f
    · rw [hgf] at hg hpos ⊢
      rwa [hb q hq (h.reader q f hg)]
    · rwa [hne g hgf]

/-- A receiver reads from its FIFO, which no other receiver with messages to read polls. -/
theorem reads (h : Inv s) {r : ι} {f n : Nat}
    (hother : ∀ q, q ≠ r → ∀ j, s.owner j = some q → (s.recvs q).rfd = some f → (s.recvs q).unread = []) :
    Inv (State.tick (State.setRecv { s with bytes := update s.bytes f n } r
      { s.recvs r with drained := s.clock })) := by
  refine h.recvTo (fun _ _ _ ho => ho) (fun _ _ _ hm => hm) (fun q hq j g ho hg hu hpos => ?_) (h.owner · r) (h.sink r)
    (h.reader r) (fun _ ho hr _ => ⟨ho, hr, rfl⟩) (fun _ ht => ht) fun _ hm _ _ _ _ => Or.inr hm
  by_cases hgf : g = f
  · rw [hgf] at hg
    exact absurd (hother q hq j ho hg) hu
  · rwa [update_of_ne hgf]

omit [DecidableEq ι] in
theorem update_none {owner : Fin 32 → Option ι} {i j : Fin 32} {q : ι} (h : update owner i none j = some q) :
    owner j = some q := by
  by_cases hj : j = i
  · subst hj
    rw [update_self] at h
    cases h
  · rwa [update_of_ne hj] at h

theorem stepRecv (h : Inv s) {r : ι} {a : RAct} {t : State κ ι} (hok : aimed s (.recv r a))
    (hs : s.stepRecv r a = some t) :
    Inv t.tick := by
  unfold State.stepRecv at hs
  dsimp only at hs
  split at hs
  case h_1 i hc =>
    split_ifs at hs
    cases hs
    exact h.connect hc
  case h_2 i hc =>
    split_ifs at hs
    cases hs
    exact h.recvCall (fun j q => update_none) ⟨rfl, rfl, rfl, rfl, fun _ ht => ht⟩
  case h_3 i hc =>
    split_ifs at hs
    cases hs
    unfold State.mkfifo
    split <;> exact h.recvCall (fun _ _ ho => ho) ⟨rfl, rfl, rfl, rfl, fun _ ht => ht⟩
  case h_4 ok i hc =>
    split_ifs at hs
    split at hs <;> cases hs
    · exact h.opens hc
    · exact h.recvCall (fun _ _ ho => ho) ⟨rfl, rfl, rfl, rfl, fun _ ht => ht⟩
  case h_5 i hc =>
    split_ifs at hs
    cases hs
    exact h.recvCall (fun _ _ ho => ho) ⟨rfl, rfl, rfl, rfl, fun _ ht => ht⟩
  case h_6 discard _ hc =>
    split at hs
    case h_1 f hf =>
      cases hs
      refine h.closes (fun q hq hm => ?_) fun g hg => ?_
      · rw [if_neg]
        rintro ⟨-, hnil⟩
        have : q ∈ (s.readers f).filter (· ≠ r) := List.mem_filter.mpr ⟨hm, by simpa using hq⟩
        rw [hnil] at this
        cases this
      · split_ifs
        · exact update_of_ne hg _ _
        · rfl
    case h_2 => cases hs
  case h_7 _ hc =>
    split at hs
    case h_1 f hf =>
      split_ifs at hs with hz <;> cases hs
      · exact h.quiet rfl rfl (Nat.le_succ _) rfl rfl (fun _ _ ho => ho) fun _ => ⟨rfl, rfl, rfl, rfl, fun _ ht => ht⟩
      · refine h.reads fun q hq j ho hg => (hok q j hq ho (hg.trans hf.symm)).resolve_left ?_
        rw [State.polled, hf]
        exact hz
    case h_2 => cases hs
  case h_8 _ hc =>
    split_ifs at hs
    cases hs
    exact h.recvCall (fun _ _ ho => ho) ⟨rfl, rfl, rfl, rfl, fun _ => List.mem_of_mem_tail⟩
  case h_9 => cases hs

/-! ## The steps of the senders -/

variable [DecidableEq κ] {cap : Nat}

omit [DecidableEq ι] [DecidableEq κ] in
theorem ready_mono {m : Msg} {r : ι} {b : Nat → Nat} (hb : ∀ f, 0 < s.bytes f → 0 < b f) (h : s.Ready m r) :
    0 < ((s.recvs r).rfd.map b).getD 0 ∨ m.pushed < (s.recvs r).drained := by
  refine h.imp (fun hp => ?_) id
  unfold State.polled at hp
  cases hf : (s.recvs r).rfd with
  | none =>
    rw [hf] at hp
    cases hp
  | some f =>
    rw [hf] at hp
    exact hb f hp

omit [DecidableEq ι] in
theorem senderTo (h : Inv s) {k : κ} {p : Sender} {b : Nat → Nat} {ret : List Msg} (hb : ∀ f, 0 < s.bytes f → 0 < b f)
    (hbegan : p.pc ≠ .idle → p.msg.began ≤ s.clock) (hself : p.pc ≠ .idle → p.msg.selfId = p.connId)
    (hpushed : p.pc.pushed = true → p.msg.pushed ≤ s.clock)
    (hconns : ∀ c, p.pc.conns = some c → ∀ r j, s.owner j = some r → (s.recvs r).rfd.isSome →
      (s.recvs r).opened < p.msg.began → c j = true)
    (hleft : p.pc.conns.isSome → ∀ r j, j ∉ p.pc.left → s.Awaits p.msg r j →
      0 < ((s.recvs r).rfd.map b).getD 0 ∨ p.msg.pushed < (s.recvs r).drained)
    (hret : ∀ m ∈ ret, m ∈ s.returned ∨ m.began < s.clock ∧ m.pushed < s.clock ∧ ∀ j, s.Signalled m j) :
    Inv (State.tick (State.setSender { s with bytes := b, returned := ret } k p)) := by
  have hlt : ∀ m ∈ ret, m.began < s.clock ∧ m.pushed < s.clock := fun m hm =>
    (hret m hm).elim (h.returned m) fun hm => ⟨hm.1, hm.2.1⟩
  refine ⟨h.owner, h.sink, h.reader, fun m hm => ?_, fun q hq => ?_, fun q hq => ?_, fun q hq => ?_, fun q c hc => ?_,
    fun m r j hm ha => ?_⟩
  · have := hlt m hm
    exact ⟨Nat.lt_succ_of_lt this.1, Nat.lt_succ_of_lt this.2⟩
  all_goals simp only [State.tick, State.setSender] at *
  · by_cases hqk : q = k
    · rw [hqk, update_self] at hq ⊢
      exact Nat.lt_succ_of_le (hbegan hq)
    · rw [update_of_ne hqk] at hq ⊢
      exact Nat.lt_succ_of_lt (h.began q hq)
  · by_cases hqk : q = k
    · rw [hqk, update_self] at hq ⊢
      exact hself hq
    · rw [update_of_ne hqk] at hq ⊢
      exact h.selfId q hq
  · by_cases hqk : q = k
    · rw [hqk, update_self] at hq ⊢
      exact Nat.lt_succ_of_le (hpushed hq)
    · rw [update_of_ne hqk] at hq ⊢
      exact Nat.lt_succ_of_lt (h.pushed q hq)
  · by_cases hqk : q = k
    · rw [hqk, update_self] at hc ⊢
      exact hconns c hc
    · rw [update_of_ne hqk] at hc ⊢
      exact h.conns q c hc
  · have hold : s.Signalled m j → 0 < ((s.recvs r).rfd.map b).getD 0 ∨ m.pushed < (s.recvs r).drained := fun hm =>
      ready_mono hb (h.ready m r j hm ha)
    rcases hm with hm | ⟨q, hqm, hqc, hql⟩
    · rcases hret m hm with hm | ⟨-, -, hm⟩
      · exact hold (Or.inl hm)
      · exact hold (hm j)
    · simp only at hqm hqc hql
      by_cases hqk : q = k
      · rw [hqk, update_self] at hqm hqc hql
        subst hqm
        exact hleft hqc r j hql ha
      · rw [update_of_ne hqk] at hqm hqc hql
        exact hold (Or.inr ⟨q, hqm, hqc, hql⟩)

omit [DecidableEq κ] in
theorem pushes (h : Inv s) : Inv { s with recvs := s.delivered } := by
  have hsame : ∀ r, (s.delivered r).connId = (s.recvs r).connId ∧ (s.delivered r).rfd = (s.recvs r).rfd ∧
      (s.delivered r).opened = (s.recvs r).opened ∧ (s.delivered r).drained = (s.recvs r).drained := by
    intro r
    unfold State.delivered
    split_ifs
    · exact ⟨rfl, rfl, rfl, rfl⟩
    · exact ⟨rfl, rfl, rfl, rfl⟩
  refine h.env rfl rfl (Nat.le_refl _) (fun j r ho => ?_) (fun r => ?_) (fun r f => ?_) (fun r j ho hr _ => ?_)
    (fun r t ht hu => ?_) fun m r j _ _ _ _ hready => ?_
  · rw [(hsame r).1]
    exact h.owner j r ho
  · rw [(hsame r).1, (hsame r).2.1]
    exact h.sink r
  · rw [(hsame r).2.1]
    exact h.reader r f
  · rw [(hsame r).2.1] at hr
    exact ⟨ho, hr, (hsame r).2.2.1.symm⟩
  · simp only [State.delivered] at hu
    split_ifs at hu
    · rcases List.mem_append.mp hu with hu | hu
      · exact hu
      · rw [List.mem_singleton] at hu
        omega
    · exact hu
  · unfold State.Ready State.polled at hready ⊢
    rwa [(hsame r).2.1, (hsame r).2.2.2]

omit [DecidableEq ι] [DecidableEq κ] in
theorem ready_of_not_left (h : Inv s) {k : κ} (hc : (s.senders k).pc.conns.isSome) {r : ι} {j : Fin 32}
    (hj : j ∉ (s.senders k).pc.left) (ha : s.Awaits (s.senders k).msg r j) : s.Ready (s.senders k).msg r :=
  h.ready _ r j (Or.inr ⟨k, rfl, hc, hj⟩) ha

omit [DecidableEq ι] in
/-- `signal` goes on with its loaded word: a receiver that waits in a slot it has finished is ready. -/
theorem signalTo (h : Inv s) {k : κ} {p : Sender} {b : Nat → Nat} (hb : ∀ f, 0 < s.bytes f → 0 < b f)
    (hmsg : p.msg = (s.senders k).msg ∧ p.connId = (s.senders k).connId) {c : Fin 32 → Bool}
    (hc : (s.senders k).pc.conns = some c) (hc' : p.pc.conns = some c)
    (hleft : ∀ r j, j ∉ p.pc.left → j ∈ (s.senders k).pc.left → s.Awaits p.msg r j →
      0 < ((s.recvs r).rfd.map b).getD 0 ∨ p.msg.pushed < (s.recvs r).drained) :
    Inv (State.tick (State.setSender { s with bytes := b } k p)) := by
  have hidle : (s.senders k).pc ≠ .idle := fun hi => by
    rw [hi] at hc
    cases hc
  have hpushed : (s.senders k).pc.pushed = true := by
    cases hpc : (s.senders k).pc <;> rw [hpc] at hc <;> first | rfl | cases hc
  refine h.senderTo hb (fun _ => ?_) (fun _ => ?_) (fun _ => ?_) (fun d hd => ?_) (fun _ r j hj ha => ?_)
    fun m hm => Or.inl hm
  · rw [hmsg.1]
    exact Nat.le_of_lt (h.began k hidle)
  · rw [hmsg.1, hmsg.2]
    exact h.selfId k hidle
  · rw [hmsg.1]
    exact Nat.le_of_lt (h.pushed k hpushed)
  · rw [hc'] at hd
    cases hd
    rw [hmsg.1]
    exact h.conns k c hc
  · by_cases hin : j ∈ (s.senders k).pc.left
    · exact hleft r j hj hin ha
    · rw [hmsg.1] at ha ⊢
      exact ready_mono hb (h.ready_of_not_left (by rw [hc]; rfl) hin ha)

theorem stepSender (hcap : 0 < cap) (h : Inv s) {k : κ} {a : SAct} {t : State κ ι} (hok : aimed s (.sender k a))
    (hs : s.stepSender cap k a = some t) : Inv t.tick := by
  unfold State.stepSender at hs
  dsimp only at hs
  split at hs
  case h_1 hpc =>
    cases hs
    exact h.senderTo (fun _ hb => hb) (fun _ => Nat.le_refl _) (fun _ => rfl) (fun hp => by cases hp)
      (fun _ hc => by cases hc) (fun hc => by cases hc) fun m hm => Or.inl hm
  case h_2 hpc =>
    cases hs
    exact h.senderTo (fun _ hb => hb) (fun hi => absurd rfl hi) (fun hi => absurd rfl hi) (fun hp => by cases hp)
      (fun _ hc => by cases hc) (fun hc => by cases hc) fun m hm => Or.inl hm
  case h_3 hpc =>
    cases hs
    have hidle : (s.senders k).pc ≠ .idle := by rw [hpc]; simp
    exact h.pushes.senderTo (fun _ hb => hb) (fun _ => Nat.le_of_lt (h.began k hidle)) (fun _ => h.selfId k hidle)
      (fun _ => Nat.le_refl _) (fun _ hc => by cases hc) (fun hc => by cases hc) fun m hm => Or.inl hm
  case h_4 hpc =>
    cases hs
    have hidle : (s.senders k).pc ≠ .idle := by rw [hpc]; simp
    refine h.senderTo (fun _ hb => hb) (fun _ => Nat.le_of_lt (h.began k hidle)) (fun _ => h.selfId k hidle)
      (fun _ => Nat.le_of_lt (h.pushed k (by rw [hpc]; rfl))) (fun c hc r j ho _ _ => ?_)
      (fun _ r j hj => absurd (List.mem_finRange j) hj) fun m hm => Or.inl hm
    cases hc
    show (s.owner j).isSome = true
    rw [ho]
    rfl
  case h_5 conns i l hpc =>
    have hc : (s.senders k).pc.conns = some conns := by rw [hpc]; rfl
    have hleft : (s.senders k).pc.left = i :: l := by rw [hpc]; rfl
    have hidle : (s.senders k).pc ≠ .idle := by rw [hpc]; simp
    simp only [aimed, hpc, aimedAt] at hok
    -- the slot itself is the only one that is new among those `signal` has been at
    have hnext : ∀ {p : Sender}, p.msg = (s.senders k).msg ∧ p.connId = (s.senders k).connId → p.pc = .slot conns l →
        (∀ r, ¬s.Awaits (s.senders k).msg r i) → Inv (State.tick (State.setSender s k p)) := by
      intro p hp hpc' hno
      refine h.signalTo (fun _ hb => hb) hp hc (by rw [hpc']; rfl) fun r j hj hin ha => ?_
      rw [hpc'] at hj
      rw [hleft] at hin
      rw [hp.1, (List.mem_cons.mp hin).resolve_right hj] at ha
      exact absurd ha (hno r)
    have hstay : ∀ {p : Sender}, p.msg = (s.senders k).msg ∧ p.connId = (s.senders k).connId → p.pc = .write conns i l →
        Inv (State.tick (State.setSender s k p)) := by
      intro p hp hpc'
      refine h.signalTo (fun _ hb => hb) hp hc (by rw [hpc']; rfl) fun r j hj hin => ?_
      rw [hpc'] at hj
      rw [hleft] at hin
      exact absurd hin hj
    split_ifs at hs with hwant
    · split at hs
      case h_1 f hf =>
        cases hs
        exact hstay ⟨rfl, rfl⟩ rfl
      case h_2 hnone =>
        split at hs
        case h_1 f hf =>
          split_ifs at hs with hr <;> cases hs
          · exact hstay ⟨rfl, rfl⟩ rfl
          · refine hnext ⟨rfl, rfl⟩ rfl fun r ha => ?_
            have hmem := h.reader r f ((hok hnone r ha).symm.trans hf)
            rw [not_not.mp hr] at hmem
            cases hmem
        case h_2 hf =>
          cases hs
          refine hnext ⟨rfl, rfl⟩ rfl fun r ha => ?_
          have hrfd := ha.2.2.1
          rw [← hok hnone r ha, hf] at hrfd
          cases hrfd
    · cases hs
      refine hnext ⟨rfl, rfl⟩ rfl fun r ha => hwant ?_
      obtain ⟨ho, hself, hr, hlt, -⟩ := ha
      exact ⟨h.conns k conns hc r i ho hr hlt, h.selfId k hidle ▸ hself⟩
  case h_6 conns hpc =>
    cases hs
    have hidle : (s.senders k).pc ≠ .idle := by rw [hpc]; simp
    refine h.senderTo (fun _ hb => hb) (fun hi => absurd rfl hi) (fun hi => absurd rfl hi) (fun hp => by cases hp)
      (fun _ hc => by cases hc) (fun hc => by cases hc) fun m hm => ?_
    rcases List.mem_cons.mp hm with hm | hm
    · rw [hm]
      refine Or.inr ⟨h.began k hidle, h.pushed k (by rw [hpc]; rfl), fun j => Or.inr ⟨k, rfl, by rw [hpc]; rfl, ?_⟩⟩
      rw [hpc]
      simp [Pc.left]
    · exact Or.inl hm
  case h_7 conns i l hpc =>
    have hc : (s.senders k).pc.conns = some conns := by rw [hpc]; rfl
    have hleft : (s.senders k).pc.left = i :: l := by rw [hpc]; rfl
    simp only [aimed, hpc, aimedAt] at hok
    have hnext : ∀ {p : Sender} {b : Nat → Nat}, (∀ f, 0 < s.bytes f → 0 < b f) →
        p.msg = (s.senders k).msg ∧ p.connId = (s.senders k).connId → p.pc = .slot conns l →
        (∀ r, s.Awaits (s.senders k).msg r i → 0 < ((s.recvs r).rfd.map b).getD 0) →
        Inv (State.tick (State.setSender { s with bytes := b } k p)) := by
      intro p b hb hp hpc' hno
      refine h.signalTo hb hp hc (by rw [hpc']; rfl) fun r j hj hin ha => ?_
      rw [hpc'] at hj
      rw [hleft] at hin
      rw [hp.1, (List.mem_cons.mp hin).resolve_right hj] at ha
      exact Or.inl (hno r ha)
    split at hs
    case h_1 hnone =>
      cases hs
      refine hnext (fun _ hb => hb) ⟨rfl, rfl⟩ rfl fun r ha => ?_
      have hrfd := ha.2.2.1
      rw [← hok r ha, hnone] at hrfd
      cases hrfd
    case h_2 f hf =>
      split_ifs at hs with hr hfull <;> cases hs
      · refine hnext (fun _ hb => hb) ⟨rfl, rfl⟩ rfl fun r ha => ?_
        have hmem := h.reader r f ((hok r ha).symm.trans hf)
        rw [hr] at hmem
        cases hmem
      · refine hnext (fun g hg => ?_) ⟨rfl, rfl⟩ rfl fun r ha => ?_
        · by_cases hgf : g = f
          · rw [hgf, update_self]
            exact Nat.succ_pos _
          · rwa [update_of_ne hgf]
        · rw [← hok r ha, hf]
          show 0 < update s.bytes f (s.bytes f + 1) f
          rw [update_self]
          exact Nat.succ_pos _
      · refine hnext (fun _ hb => hb) ⟨rfl, rfl⟩ rfl fun r ha => ?_
        rw [← hok r ha, hf]
        show 0 < s.bytes f
        omega
  case h_8 => cases hs

theorem step (hcap : 0 < cap) (h : Inv s) {a : Act κ ι} (hok : aimed s a) (hs : s.step cap a = some s') : Inv s' := by
  cases a with
  | recv r a =>
    obtain ⟨t, ht, rfl⟩ := Option.map_eq_some_iff.mp hs
    exact h.stepRecv hok ht
  | evict i =>
    cases hs
    exact h.quiet rfl rfl (Nat.le_succ _) rfl rfl (fun j q => update_none) fun _ => ⟨rfl, rfl, rfl, rfl, fun _ ht => ht⟩
  | sender k a =>
    obtain ⟨t, ht, rfl⟩ := Option.map_eq_some_iff.mp hs
    exact h.stepSender hcap hok ht

end Inv

/-! ## Readiness -/

/-- Nobody is connected or sends and no sink is open; FIFOs of earlier channels may still be there. -/
structure Opening (s : State κ ι) : Prop where
  owner : ∀ j, s.owner j = none
  recvs : ∀ r, (s.recvs r).connId = none ∧ (s.recvs r).rfd = none ∧ (s.recvs r).call = .idle ∧ (s.recvs r).unread = []
  senders : ∀ k, (s.senders k).pc = .idle ∧ ∀ i, (s.senders k).wfd i = none
  readers : ∀ f, s.readers f = []
  nodes : ∀ i f, s.path i = some f → f < s.nodes
  bytes : ∀ f, s.nodes ≤ f → s.bytes f = 0
  returned : s.returned = []

theorem Opening.inv {s : State κ ι} (h : Opening s) : Inv s where
  owner := fun j r ho => by
    rw [h.owner j] at ho
    cases ho
  sink := fun r hr => by
    rw [(h.recvs r).2.1] at hr
    cases hr
  reader := fun r f hr => by
    rw [(h.recvs r).2.1] at hr
    cases hr
  returned := fun m hm => by
    rw [h.returned] at hm
    cases hm
  began := fun k hk => absurd (h.senders k).1 hk
  selfId := fun k hk => absurd (h.senders k).1 hk
  pushed := fun k hk => by
    rw [(h.senders k).1] at hk
    cases hk
  conns := fun k c hc => by
    rw [(h.senders k).1] at hc
    cases hc
  ready := fun m r j hm ha => by
    have ho := ha.1
    rw [h.owner j] at ho
    cases ho

section Decide

variable [Fintype ι] [DecidableEq ι]

instance (s : State κ ι) (k : κ) : (pc : Pc) → Decidable (aimedAt s k pc)
  | .idle => inferInstanceAs (Decidable True)
  | .push => inferInstanceAs (Decidable True)
  | .load => inferInstanceAs (Decidable True)
  | .slot _ [] => inferInstanceAs (Decidable True)
  | .slot _ (_ :: _) => inferInstanceAs (Decidable (_ → ∀ _, _))
  | .write _ _ _ => inferInstanceAs (Decidable (∀ _, _))

instance (s : State κ ι) : (a : Act κ ι) → Decidable (aimed s a)
  | .recv _ .read => inferInstanceAs (Decidable (∀ _ _, _))
  | .recv _ (.connect _) => inferInstanceAs (Decidable True)
  | .recv _ .disconnect => inferInstanceAs (Decidable True)
  | .recv _ .make => inferInstanceAs (Decidable True)
  | .recv _ (.open _) => inferInstanceAs (Decidable True)
  | .recv _ .unlink => inferInstanceAs (Decidable True)
  | .recv _ (.close _) => inferInstanceAs (Decidable True)
  | .recv _ .take => inferInstanceAs (Decidable True)
  | .evict _ => inferInstanceAs (Decidable True)
  | .sender k .go => inferInstanceAs (Decidable (aimedAt s k _))
  | .sender _ .begin => inferInstanceAs (Decidable True)
  | .sender _ .fail => inferInstanceAs (Decidable True)

instance (s : State κ ι) (m : Msg) (r : ι) : Decidable (s.Ready m r) := inferInstanceAs (Decidable (_ ∨ _))

end Decide

/-- A sender and two receivers that have not connected. -/
def vacant : State (Fin 1) (Fin 2) where
  owner := fun _ => none
  path := fun _ => none
  bytes := fun _ => 0
  readers := fun _ => []
  nodes := 0
  recvs := fun _ => ⟨none, false, .idle, none, 0, 0, []⟩
  senders := fun _ => ⟨none, fun _ => none, ⟨0, 0, none⟩, .idle⟩
  returned := []
  clock := 0

theorem opening_vacant : Opening vacant where
  owner := fun _ => rfl
  recvs := fun _ => ⟨rfl, rfl, rfl, rfl⟩
  senders := fun _ => ⟨rfl, fun _ => rfl⟩
  readers := fun _ => rfl
  nodes := fun _ _ h => by cases h
  bytes := fun _ _ => rfl
  returned := rfl

/-- The receiver connects in slot 0 and opens its sink. -/
def join (r : Fin 2) : List (Act (Fin 1) (Fin 2)) := [.recv r (.connect 0), .recv r .make, .recv r (.open true)]

/-- `send`, with one step for every slot and `n` writes. -/
def sending (n : Nat) : List (Act (Fin 1) (Fin 2)) := .sender 0 .begin :: List.replicate (35 + n) (.sender 0 .go)

/-- The slot is used again: the first receiver disconnects and closes its sink, and the second opens its own. -/
def reused : List (Act (Fin 1) (Fin 2)) :=
  join 0 ++ sending 1 ++ [Act.recv 0 .read, .recv 0 .take, .recv 0 .disconnect, .recv 0 (.close false),
  .recv 0 .unlink] ++
    join 1 ++ sending 1

/-- The slot is taken from the first receiver, which then drains the FIFO it shares with the second. -/
def shared : List (Act (Fin 1) (Fin 2)) := join 0 ++ [Act.evict 0] ++ join 1 ++ sending 1 ++ [Act.recv 0 .read]

/-- The slot is taken from the first receiver, which then closes its sink and removes the path of the second. -/
def removed : List (Act (Fin 1) (Fin 2)) :=
  join 0 ++ [Act.evict 0] ++ join 1 ++ [Act.recv 0 (.close false), .recv 0 .unlink] ++ sending 0

end ThothIpc.Notify
