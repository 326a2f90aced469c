import ThothIpc.Lib.Run
import ThothIpc.Liveness
import ThothIpc.Process

/-!
# Connection bits and the owner table

The connection word and the owner table of a route or channel, and everybody who writes them: receivers that connect and
disconnect, senders that evict receivers, processes that die, and reapers that clear the bits of dead receivers. One
atomic access per step.

* `Receiver`, `Pc` : a receiver endpoint and where it stands in `open` or `disconnect`. What `open` does between
  `set_since` and `set_owner` (`release_stale`, `adopt_cursor`) touches neither the connection word nor the table: it is
  one place, `adopt`;
* `Reaper`, `ReapPc` : a call of `reap_dead_receivers`, by any process at any time;
* `State.step` : the interleaving. `holder` records who has claimed a bit that has not been cleared since.
-/

namespace ThothIpc.Table
open Function

/-- Where a receiver stands. `since` is the write cursor it has read, `curr` the connection word. -/
inductive Pc where
  | closed
  | loadConns (since : BitVec 32)
  | casConns (since curr : BitVec 32)
  | setSince (since : BitVec 32)
  | adopt
  | ownerTok
  | ownerPid
  | ready
  | clearPid
  | clearTok
  deriving DecidableEq, Repr

structure Receiver (π : Type) where
  proc : π
  connId : BitVec 32
  pc : Pc
  deriving DecidableEq, Repr

/-- Where a reaper stands: `m` is what is left of the connection word, `bit` the bit it looks at, `p` and `t` the pid
and the token it has loaded. -/
inductive ReapPc where
  | idle
  | next (m : BitVec 32)
  | loadTok (m bit : BitVec 32) (p : Int)
  | check (m bit : BitVec 32) (p : Int) (t : Nat)
  | cas (m bit : BitVec 32) (p : Int) (t : Nat)
  | clearTok (m bit : BitVec 32)
  | clearBit (m bit : BitVec 32)
  deriving DecidableEq, Repr

structure Reaper (π : Type) where
  proc : π
  pc : ReapPc
  deriving DecidableEq, Repr

variable {π ι ρ : Type}

structure State (W : World π) (ι ρ : Type) where
  os : Os W
  connections : BitVec 32
  owners : Nat → SlotOwner
  recvs : ι → Receiver π
  reapers : ρ → Reaper π
  holder : Nat → Option ι

inductive Act (π ι ρ : Type) where
  | spawn (q : π)
  | kill (q : π)
  | opens (i : ι) (q : π) (since : BitVec 32)
  | go (i : ι)
  | fail (i : ι)
  | disconnect (i : ι)
  | evict (mask : BitVec 32)
  | reap (r : ρ) (q : π)
  | reapGo (r : ρ)
  deriving DecidableEq, Repr

variable {W : World π}

/-- The bit a claim takes: the lowest clear one. -/
def claimBit (curr : BitVec 32) : BitVec 32 := (curr ||| (curr + 1)) ^^^ curr

def State.setOwner (s : State W ι ρ) (bit : BitVec 32) (f : SlotOwner → SlotOwner) : Nat → SlotOwner :=
  update s.owners (slotIndex bit) (f (s.owners (slotIndex bit)))

section Steps
variable [DecidableEq ι] [DecidableEq ρ]

/-- Receiver `i` goes on to `pc`. -/
def State.at (s : State W ι ρ) (i : ι) (pc : Pc) : State W ι ρ :=
  { s with recvs := update s.recvs i { s.recvs i with pc := pc } }

/-- The next access of receiver `i` in `open` (after the cursor is read) or in `disconnect` (after its bit). -/
def State.recvStep (s : State W ι ρ) (i : ι) : Option (State W ι ρ) :=
  let r := s.recvs i
  match r.pc with
  | .closed => none
  | .loadConns since =>
    -- too many receivers: `open` fails
    if s.connections ||| (s.connections + 1) = s.connections then some (s.at i .closed)
    else some (s.at i (.casConns since s.connections))
  | .casConns since curr =>
    if s.connections = curr then
      some { s with
        connections := curr ||| (curr + 1)
        recvs := update s.recvs i { r with connId := claimBit curr, pc := .setSince since }
        holder := update s.holder (slotIndex (claimBit curr)) (some i) }
    else some (s.at i (.loadConns since))
  | .setSince since => some { s.at i .adopt with owners := s.setOwner r.connId fun o => { o with since := since } }
  | .adopt => some (s.at i .ownerTok)
  | .ownerTok =>
    some { s.at i .ownerPid with owners := s.setOwner r.connId fun o => { o with startTok := W.tok r.proc } }
  | .ownerPid => some { s.at i .ready with owners := s.setOwner r.connId fun o => { o with pid := W.pid r.proc } }
  | .ready => none
  | .clearPid => some { s.at i .clearTok with owners := s.setOwner r.connId fun o => { o with pid := 0 } }
  | .clearTok => some { s.at i .closed with owners := s.setOwner r.connId fun o => { o with startTok := 0 } }

def State.reaperAt (s : State W ι ρ) (r : ρ) (pc : ReapPc) : State W ι ρ :=
  { s with reapers := update s.reapers r { s.reapers r with pc := pc } }

def State.reapStep (s : State W ι ρ) (r : ρ) : Option (State W ι ρ) :=
  match (s.reapers r).pc with
  | .idle => none
  | .next m =>
    if m = 0 then some (s.reaperAt r .idle)
    else
      let bit := m &&& -m
      let p := (s.owners (slotIndex bit)).pid
      -- an unknown owner is skipped
      some (s.reaperAt r (if p = 0 then .next (m &&& (m - 1)) else .loadTok (m &&& (m - 1)) bit p))
  | .loadTok m bit p => some (s.reaperAt r (.check m bit p (s.owners (slotIndex bit)).startTok))
  | .check m bit p t => some (s.reaperAt r (if isProcessAlive s.os.token p t then .next m else .cas m bit p t))
  | .cas m bit p _ =>
    if (s.owners (slotIndex bit)).pid = p then
      some { s.reaperAt r (.clearTok m bit) with owners := s.setOwner bit fun o => { o with pid := 0 } }
    else some (s.reaperAt r (.next m))
  | .clearTok m bit =>
    some { s.reaperAt r (.clearBit m bit) with owners := s.setOwner bit fun o => { o with startTok := 0 } }
  | .clearBit m bit =>
    some { s.reaperAt r (.next m) with
      connections := s.connections &&& ~~~bit
      holder := update s.holder (slotIndex bit) none }

variable [DecidableEq π]

def State.step (s : State W ι ρ) : Act π ι ρ → Option (State W ι ρ)
  | .spawn q => (s.os.spawn q).map fun o => { s with os := o }
  | .kill q => (s.os.kill q).map fun o => { s with os := o }
  | .opens i q since =>
    if s.os.alive q ∧ (s.recvs i).pc = .closed then
      some { s with recvs := update s.recvs i { s.recvs i with proc := q, pc := .loadConns since } }
    else none
  | .go i => if s.os.alive (s.recvs i).proc then s.recvStep i else none
  | .fail i =>
    -- a weak exchange may fail on equal values
    match (s.recvs i).pc with
    | .casConns since _ => if s.os.alive (s.recvs i).proc then some (s.at i (.loadConns since)) else none
    | _ => none
  | .disconnect i =>
    if s.os.alive (s.recvs i).proc ∧ (s.recvs i).pc = .ready then
      some { s.at i .clearPid with
        connections := s.connections &&& ~~~(s.recvs i).connId
        holder := update s.holder (slotIndex (s.recvs i).connId) none }
    else none
  | .evict mask =>
    some { s with
      connections := s.connections &&& ~~~mask
      holder := fun l => if mask.getLsbD l then none else s.holder l }
  | .reap r q =>
    if s.os.alive q ∧ (s.reapers r).pc = .idle then
      some { s with reapers := update s.reapers r ⟨q, .next s.connections⟩ }
    else none
  | .reapGo r => if s.os.alive (s.reapers r).proc then s.reapStep r else none

end Steps

theorem claimBit_spec {curr : BitVec 32} (h : curr ||| (curr + 1) ≠ curr) :
    ∃ l < 32, claimBit curr = BitVec.twoPow 32 l ∧ curr.getLsbD l = false ∧
      ∀ j, (curr ||| (curr + 1)).getLsbD j = (curr.getLsbD j || decide (j = l)) := by
  obtain ⟨l, hl, hcl, -, hx, hor⟩ := Bits.exists_lowest_clear curr h
  exact ⟨l, hl, hx, hcl, hor⟩

end ThothIpc.Table
