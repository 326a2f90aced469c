import ThothIpc.Lib.Bits
import ThothIpc.Lib.Run

/-!
# Opening a ring

The ring header is constructed by whoever opens the ring first: `constructed` is tested, then tested again under the
spin lock `lc`. `init_header` of `channel.rs` clears the connection word and sets the flag. `conn_head_base::init` of
`elem_def.h` constructs the whole header in place, the lock it holds and the flag included; each member is a store of
its own here.

* `Head` : the header words; `Pc` : where an endpoint stands in opening, connecting or disconnecting;
* `Endpoint.step` : its next access;
* `State.step` : any number of endpoints of both languages. `claims` counts the bits claimed so far.

Between opening and connecting an endpoint maps other segments and reaps dead peers. Neither touches the header while no
process dies, so `opened` is one place.
-/

namespace ThothIpc.Header

/-- The header words that opening and connecting use. -/
structure Head where
  connections : BitVec 32
  lc : BitVec 32
  constructed : Bool
  deriving DecidableEq, Repr

/-- Whose `init` an endpoint runs. -/
inductive Lang where
  | rust
  | cpp
  deriving DecidableEq, Repr

/-- Where an endpoint stands. `newCc`, `newLc` and `newFlag` are the stores of the placement-new. -/
inductive Pc where
  | closed
  | check
  | lock
  | recheck
  | reset
  | newCc
  | newLc
  | newFlag
  | publish
  | unlock
  | opened
  | loadConns
  | casConns (curr : BitVec 32)
  | connected
  deriving DecidableEq, Repr

structure Endpoint where
  lang : Lang
  pc : Pc
  connId : BitVec 32
  deriving DecidableEq, Repr

/-- Where an endpoint that has no bit is left: `channel.rs` opens the ring anew, `ipc.cpp` keeps it open. -/
def Lang.unconnected : Lang → Pc
  | .rust => .closed
  | .cpp => .opened

/-- The next access in opening or connecting; the number is how many bits it claims. -/
def Endpoint.step (h : Head) (e : Endpoint) : Option (Head × Endpoint × Nat) :=
  match e.pc with
  | .closed => none
  | .check => some (h, { e with pc := if h.constructed then .opened else .lock }, 0)
  | .lock => some ({ h with lc := 1 }, { e with pc := if h.lc = 0 then .recheck else .lock }, 0)
  | .recheck =>
    let build : Pc := match e.lang with
      | .rust => .reset
      | .cpp => .newCc
    some (h, { e with pc := if h.constructed then .unlock else build }, 0)
  | .reset => some ({ h with connections := 0 }, { e with pc := .publish }, 0)
  | .newCc => some ({ h with connections := 0 }, { e with pc := .newLc }, 0)
  | .newLc => some ({ h with lc := 0 }, { e with pc := .newFlag }, 0)
  | .newFlag => some ({ h with constructed := false }, { e with pc := .publish }, 0)
  | .publish => some ({ h with constructed := true }, { e with pc := .unlock }, 0)
  | .unlock => some ({ h with lc := 0 }, { e with pc := .opened }, 0)
  | .opened => none
  | .loadConns =>
    -- all 32 bits are taken
    if h.connections ||| (h.connections + 1) = h.connections then some (h, { e with pc := e.lang.unconnected }, 0)
    else some (h, { e with pc := .casConns h.connections }, 0)
  | .casConns curr =>
    let next := curr ||| (curr + 1)
    if h.connections = curr then
      some ({ h with connections := next }, { e with connId := next ^^^ curr, pc := .connected }, 1)
    else some (h, { e with pc := .loadConns }, 0)
  | .connected => none

inductive EAct where
  | opens (lang : Lang)
  | connect
  | go
  | fail
  | disconnect
  deriving DecidableEq, Repr

def Endpoint.act (h : Head) (e : Endpoint) : EAct → Option (Head × Endpoint × Nat)
  | .opens lang =>
    match e.pc with
    | .closed => some (h, { e with lang := lang, pc := .check }, 0)
    | _ => none
  | .connect =>
    match e.pc with
    | .opened => some (h, { e with pc := .loadConns }, 0)
    | _ => none
  | .go => e.step h
  | .fail =>
    match e.pc with
    | .casConns _ => some (h, { e with pc := .loadConns }, 0)
    | _ => none
  | .disconnect =>
    match e.pc with
    | .connected => some ({ h with connections := h.connections &&& ~~~e.connId }, { e with pc := e.lang.unconnected },
        0)
    | _ => none

structure State (ι : Type) where
  head : Head
  eps : ι → Endpoint
  claims : Nat

abbrev Act (ι : Type) : Type := ι × EAct

variable {ι : Type} [DecidableEq ι]

/-- Endpoint `i` leaves the header as `g` and goes on to `e`; `n` bits are claimed. -/
def State.set (s : State ι) (i : ι) (g : Head) (e : Endpoint) (n : Nat) : State ι where
  head := g
  eps := Function.update s.eps i e
  claims := s.claims + n

def State.step (s : State ι) (a : Act ι) : Option (State ι) :=
  ((s.eps a.1).act s.head a.2).map fun p => s.set a.1 p.1 p.2.1 p.2.2

theorem State.step_cases {s t : State ι} {a : Act ι} (h : s.step a = some t) :
    ∃ g e n, (s.eps a.1).act s.head a.2 = some (g, e, n) ∧ t = s.set a.1 g e n := by
  obtain ⟨⟨g, e, n⟩, hp, rfl⟩ := Option.map_eq_some_iff.mp h
  exact ⟨g, e, n, hp, rfl⟩

end ThothIpc.Header
