import ThothIpc.Cpp.Wait
import ThothIpc.Message.Fragment

/-!
# What `send` reports

`send` and `try_send` of `ipc.cpp` push a message's fragments, or the one record of a message kept in chunk storage,
inside the predicate of `wait_for`. The ring's answers are arbitrary.

* `records` : what is to be placed in the ring for a message;
* `Endpoint`, `SendPc` : the handle's fields, and where its send stands;
* `Endpoint.act` : the calls on the handle, and the next step of its send with the answer it gets;
* `Sending` : what a send has placed and what it has still to place are its records;
* `reported_as_placed` : a send that returns true has placed its records, unless the quit flag of its waiter is set.
-/

namespace ThothIpc.Cpp
open Steps Message

/-! ## The machine -/

/-- `storage_id_t`, as it lies in the payload. -/
def storageBytes (id : Nat) : List UInt8 := (List.range 4).map fun k => UInt8.ofNat (id / 256 ^ k)

/-- The record of a message whose data is in chunk `c`. -/
def record (m : Sent) (c : Nat) : MsgT := ⟨m.ccId, m.id, toI32 m.data.length - dataLength, true, storageBytes c⟩

/-- What is placed in the ring for a message, by whether it got a chunk. -/
def records (m : Sent) : Option Nat → List MsgT
  | some c => [record m c]
  | none => m.fragments

/-- A call of `send` (`force`) or of `try_send`. -/
structure Call where
  data : List UInt8
  tm : Nat
  force : Bool
  deriving DecidableEq, Repr

/-- Where a send stands. In `push` and `force` the head of `todo` is being pushed; `chunk` is the chunk it has
acquired. -/
inductive SendPc where
  | idle
  | ready
  | conns
  | ident
  | acquire (m : Sent)
  | push (m : Sent) (chunk : Option Nat) (todo : List MsgT) (w : WaitPc)
  | force (m : Sent) (chunk : Option Nat) (todo : List MsgT)
  | release (m : Sent) (c : Nat)
  | done (m : Option Sent) (chunk : Option Nat) (ok : Bool)

/-- What a send does to the chunk pool. -/
inductive PoolOp where
  | acquire (c : Nat)
  | release (c : Nat)
  deriving DecidableEq, Repr

/-- A handle. `chunks` : large messages go through chunk storage; `quit` is the flag of `wt_waiter_`; `placed` and
`pool` list what the current send has done. -/
structure Endpoint where
  chunks : Bool
  ccId : BitVec 32
  quit : Bool
  connected : Bool
  senderFlag : Bool
  call : Call
  pc : SendPc
  placed : List MsgT
  pool : List PoolOp

/-- What the ring, the pool and the kernel answer. -/
inductive Answer where
  | bool (b : Bool)
  | id (x : BitVec 32)
  | chunk (c : Option Nat)
  deriving DecidableEq, Repr

namespace Endpoint

/-- On with the records that are left. -/
def pushRest (e : Endpoint) (m : Sent) (chunk : Option Nat) : List MsgT → Endpoint
  | [] => { e with pc := .done (some m) chunk true }
  | f :: rest => { e with pc := .push m chunk (f :: rest) (.start e.call.tm) }

/-- A push has failed for good: the chunk goes back to the pool. -/
def fail (e : Endpoint) (m : Sent) : Option Nat → Endpoint
  | some c => { e with pc := .release m c }
  | none => { e with pc := .done (some m) none false }

def waited (e : Endpoint) (m : Sent) (chunk : Option Nat) (todo : List MsgT) (ok : Bool) : Endpoint :=
  if ok then e.pushRest m chunk todo.tail
  else if e.call.force then { e with pc := .force m chunk todo }
  else e.fail m chunk

/-- A step of `wait_for`, with the answer `b` to what it asks: for the predicate, whether the push has placed `f`. -/
def wait (e : Endpoint) (m : Sent) (chunk : Option Nat) (f : MsgT) (rest : List MsgT) (w : WaitPc) (b : Bool) :
    Endpoint :=
  let e' := if w.asks = .predicate ∧ b = true then { e with placed := e.placed ++ [f] } else e
  let value := match w.asks with
    | .predicate => !b
    | .quitFlag => e.quit
    | .condition => b
  match w.next value with
  | .inl w' => { e' with pc := .push m chunk (f :: rest) w' }
  | .inr ok => e'.waited m chunk (f :: rest) ok

def step (e : Endpoint) (a : Answer) : Option Endpoint :=
  match e.pc, a with
  | .ready, .bool b =>
    some { e with senderFlag := e.senderFlag || b, pc := if e.senderFlag || b then .conns else .done none none false }
  | .conns, .bool b => some { e with pc := if b then .ident else .done none none false }
  | .ident, .id x =>
    let m : Sent := ⟨e.ccId, x, e.call.data⟩
    if e.chunks ∧ dataLength < e.call.data.length then some { e with pc := .acquire m }
    else some (e.pushRest m none (records m none))
  | .acquire m, .chunk c =>
    some (Endpoint.pushRest { e with pool := e.pool ++ (c.map PoolOp.acquire).toList } m c (records m c))
  | .push m chunk (f :: rest) w, .bool b => some (e.wait m chunk f rest w b)
  | .force m chunk (f :: rest), .bool b =>
    if b then some (Endpoint.pushRest { e with placed := e.placed ++ [f] } m chunk rest) else some (e.fail m chunk)
  | .release m c, .bool _ => some { e with pool := e.pool ++ [.release c], pc := .done (some m) (some c) false }
  | _, _ => none

end Endpoint

/-- What happens on a handle; a connect says whether the ring has let it in. -/
inductive Act where
  | connect (recv ok : Bool)
  | disconnect
  | evicted
  | send (c : Call)
  | step (a : Answer)
  deriving DecidableEq, Repr

/-- `disconnect_receiver` sets the quit flags, connected or not; a waiter that is open keeps its flag when the handle is
connected again. -/
def Endpoint.act (e : Endpoint) : Act → Option Endpoint
  | .connect true ok => some { e with connected := e.connected || ok }
  | .connect false ok =>
    some { e with quit := e.quit || e.connected, connected := false, senderFlag := e.senderFlag || ok }
  | .disconnect => some { e with quit := true, connected := false }
  | .evicted => some { e with connected := false }
  | .send c =>
    match e.pc with
    | .idle => some { e with call := c, placed := [], pool := [], pc := if c.data = [] then .done none none false else .ready }
    | .done _ _ _ =>
      some { e with call := c, placed := [], pool := [], pc := if c.data = [] then .done none none false else .ready }
    | _ => none
  | .step a => e.step a

/-! ## What a send has done -/

variable {e e' : Endpoint}

/-- What a send that has got chunk `c` has done to the pool. -/
def took (c : Option Nat) : List PoolOp := (c.map PoolOp.acquire).toList

/-- `m` is the message of the current send. -/
structure Endpoint.Sends (e : Endpoint) (m : Sent) : Prop where
  ccId : m.ccId = e.ccId
  data : m.data = e.call.data

/-- A send that returns `ok` has placed its records, or has given its chunk back. -/
structure Reported (e : Endpoint) (m : Option Sent) (chunk : Option Nat) (ok : Bool) : Prop where
  placed : ok = true → ∃ m', m = some m' ∧ e.Sends m' ∧ e.placed = records m' chunk ∧ e.pool = took chunk
  returned : ok = false → ∀ c, chunk = some c → e.pool = [.acquire c, .release c]

/-- What has been placed and what is left are the records of the message. -/
structure Pushing (e : Endpoint) (m : Sent) (chunk : Option Nat) (todo : List MsgT) : Prop where
  sends : e.Sends m
  split : e.placed ++ todo = records m chunk
  pool : e.pool = took chunk

def Sending (e : Endpoint) : Prop :=
  match e.pc with
  | .idle => True
  | .ready => e.placed = [] ∧ e.pool = []
  | .conns => e.placed = [] ∧ e.pool = []
  | .ident => e.placed = [] ∧ e.pool = []
  | .acquire m => e.Sends m ∧ e.placed = [] ∧ e.pool = []
  | .push m chunk todo _ => Pushing e m chunk todo
  | .force m chunk todo => Pushing e m chunk todo
  | .release _ c => e.pool = took (some c)
  | .done m chunk ok => Reported e m chunk ok

/-- When the quit flag of the waiter is loaded, it is not set. -/
def unquit (e : Endpoint) : Act → Prop
  | .step _ =>
    match e.pc with
    | .push _ _ _ w => w.asks = .quitFlag → e.quit = false
    | _ => True
  | _ => True

theorem Endpoint.Sends.congr {m : Sent} (h : e.Sends m) (hcc : e'.ccId = e.ccId) (hcall : e'.call = e.call) :
    e'.Sends m :=
  ⟨h.ccId.trans hcc.symm, h.data.trans (by rw [hcall])⟩

theorem Pushing.congr {m : Sent} {chunk : Option Nat} {todo : List MsgT} (h : Pushing e m chunk todo)
    (hcc : e'.ccId = e.ccId)
    (hcall : e'.call = e.call) (hp : e'.placed = e.placed) (hpool : e'.pool = e.pool) : Pushing e' m chunk todo :=
  ⟨h.sends.congr hcc hcall, by rw [hp]; exact h.split, hpool.trans h.pool⟩

theorem Sending.congr (h : Sending e) (hcc : e'.ccId = e.ccId) (hcall : e'.call = e.call) (hpc : e'.pc = e.pc)
    (hp : e'.placed = e.placed) (hpool : e'.pool = e.pool) : Sending e' := by
  unfold Sending at h ⊢
  rw [hpc]
  split <;> simp only [*] at h
  case h_1 => trivial
  case h_5 m _ => exact ⟨h.1.congr hcc hcall, hp.trans h.2.1, hpool.trans h.2.2⟩
  case h_6 => exact h.congr hcc hcall hp hpool
  case h_7 => exact h.congr hcc hcall hp hpool
  case h_8 => exact hpool.trans h
  case h_9 m chunk ok _ =>
    refine ⟨fun hok => ?_, fun hok c hc => hpool.trans (h.returned hok c hc)⟩
    obtain ⟨m', hm, hs, hpl, hpo⟩ := h.placed hok
    exact ⟨m', hm, hs.congr hcc hcall, hp.trans hpl, hpool.trans hpo⟩
  all_goals exact ⟨hp.trans h.1, hpool.trans h.2⟩

theorem sending_pushRest {m : Sent} {chunk : Option Nat} {todo : List MsgT} (h : Pushing e m chunk todo) :
    Sending (e.pushRest m chunk todo) := by
  cases todo with
  | nil =>
    refine ⟨fun _ => ⟨m, rfl, ⟨h.sends.ccId, h.sends.data⟩, ?_, h.pool⟩, nofun⟩
    have := h.split
    rw [List.append_nil] at this
    exact this
  | cons f rest => exact ⟨⟨h.sends.ccId, h.sends.data⟩, h.split, h.pool⟩

theorem sending_fail {m : Sent} {chunk : Option Nat} (h : e.pool = took chunk) : Sending (e.fail m chunk) := by
  cases chunk with
  | none => exact ⟨nofun, fun _ _ => nofun⟩
  | some c => exact h

theorem sending_waited {m : Sent} {chunk : Option Nat} {f : MsgT} {rest : List MsgT} {ok : Bool}
    (h : ok = true → Pushing e m chunk rest) (h' : ok = false → Pushing e m chunk (f :: rest)) :
    Sending (e.waited m chunk (f :: rest) ok) := by
  unfold Endpoint.waited
  split
  · rename_i hok
    exact sending_pushRest (h hok)
  · rename_i hok
    have hp := h' (by simpa using hok)
    split
    · exact ⟨⟨hp.sends.ccId, hp.sends.data⟩, hp.split, hp.pool⟩
    · exact sending_fail hp.pool

/-- A step of `wait_for` places the record at hand exactly if it is the last one, or goes on. -/
theorem Pushing.wait {m : Sent} {chunk : Option Nat} {f : MsgT} {rest : List MsgT} {w : WaitPc} {b : Bool}
    (h : Pushing e m chunk (f :: rest)) (hq : w.asks = .quitFlag → e.quit = false) :
    Sending (e.wait m chunk f rest w b) := by
  simp only [Endpoint.wait]
  by_cases hb : w.asks = .predicate ∧ b = true
  · -- the push has placed the record, and `wait_for` returns
    simp only [hb, and_self, if_true, Bool.not_true, WaitPc.next_predicate hb.1]
    refine sending_waited (fun _ => ⟨⟨h.sends.ccId, h.sends.data⟩, ?_, h.pool⟩) nofun
    rw [List.append_assoc]
    exact h.split
  · simp only [hb, if_false]
    split
    · exact ⟨⟨h.sends.ccId, h.sends.data⟩, h.split, h.pool⟩
    · rename_i ok hnext
      refine sending_waited (fun hok => ?_) fun _ => h
      rw [hok] at hnext
      -- it would have to have pushed, or to have found the quit flag set
      rcases WaitPc.next_true hnext with ⟨ha, hv⟩ | ⟨ha, hv⟩ <;> simp only [ha] at hv
      · exact absurd ⟨ha, by simpa using hv⟩ hb
      · rw [hq ha] at hv
        cases hv

theorem Sending.send (c : Call) : Sending { e with
    call := c, placed := [], pool := [], pc := if c.data = [] then .done none none false else .ready } := by
  simp only [Sending]
  split <;> rename_i heq <;> split at heq <;> cases heq
  · exact ⟨trivial, trivial⟩
  · exact ⟨nofun, nofun⟩

theorem Sending.step (h : Sending e) {a : Answer} (hok : unquit e (.step a)) (hst : e.step a = some e') :
    Sending e' := by
  unfold Endpoint.step at hst
  split at hst
  case h_1 b hpc =>
    cases hst
    simp only [Sending, hpc] at h ⊢
    split <;> rename_i heq <;> split at heq <;> cases heq
    · exact h
    · exact ⟨nofun, nofun⟩
  case h_2 b hpc =>
    cases hst
    simp only [Sending, hpc] at h ⊢
    split <;> rename_i heq <;> split at heq <;> cases heq
    · exact h
    · exact ⟨nofun, nofun⟩
  case h_3 x hpc =>
    simp only [Sending, hpc] at h
    split at hst <;> cases hst
    · exact ⟨⟨rfl, rfl⟩, h.1, h.2⟩
    · refine sending_pushRest ⟨⟨rfl, rfl⟩, ?_, h.2⟩
      rw [h.1]
      rfl
  case h_4 m c hpc =>
    cases hst
    simp only [Sending, hpc] at h
    obtain ⟨hs, hp, hpool⟩ := h
    refine sending_pushRest ⟨⟨hs.ccId, hs.data⟩, ?_, ?_⟩
    · simp only [hp, List.nil_append]
    · simp only [hpool, List.nil_append, took]
  case h_5 m chunk f rest w b hpc =>
    cases hst
    simp only [Sending, hpc] at h
    simp only [unquit, hpc] at hok
    exact h.wait hok
  case h_6 m chunk f rest b hpc =>
    simp only [Sending, hpc] at h
    split at hst <;> cases hst
    · refine sending_pushRest ⟨⟨h.sends.ccId, h.sends.data⟩, ?_, h.pool⟩
      rw [List.append_assoc]
      exact h.split
    · exact sending_fail h.pool
  case h_7 m c b hpc =>
    cases hst
    simp only [Sending, hpc] at h
    refine ⟨nofun, fun _ c' hc => ?_⟩
    cases hc
    simp only [h, took, Option.map_some, Option.toList_some, List.cons_append, List.nil_append]
  case h_8 => cases hst

theorem Sending.act (h : Sending e) {act : Act} (hok : unquit e act) (hst : e.act act = some e') : Sending e' := by
  cases act with
  | connect recv ok => cases recv <;> cases hst <;> exact h.congr rfl rfl rfl rfl rfl
  | disconnect => cases hst; exact h.congr rfl rfl rfl rfl rfl
  | evicted => cases hst; exact h.congr rfl rfl rfl rfl rfl
  | send c =>
    simp only [Endpoint.act] at hst
    split at hst <;> cases hst
    · exact Sending.send c
    · exact Sending.send c
  | step a => exact h.step hok hst

/-- **What a send reports is so.** -/
theorem reported_as_placed {e₀ : Endpoint} {acts : List Act} {m : Option Sent} {chunk : Option Nat} {ok : Bool}
    (h0 : e₀.pc = .idle) (hrun : Run Endpoint.act unquit e₀ acts e) (hpc : e.pc = .done m chunk ok) :
    (ok = true → ∃ m', m = some m' ∧ e.Sends m' ∧ e.placed = records m' chunk) ∧
      (ok = false → ∀ c, chunk = some c → e.pool = [.acquire c, .release c]) := by
  have h : Sending e := hrun.inv Sending (by rw [Sending, h0]; trivial) fun _ _ _ h hok hst => h.act hok hst
  rw [Sending, hpc] at h
  refine ⟨fun hok => ?_, h.returned⟩
  obtain ⟨m', hm, hs, hp, -⟩ := h.placed hok
  exact ⟨m', hm, hs, hp⟩

instance (e : Endpoint) (act : Act) : Decidable (unquit e act) := by
  unfold unquit
  repeat' split
  all_goals infer_instance

def opened : Endpoint := ⟨true, 1, false, false, false, ⟨[], 0, false⟩, .idle, [], []⟩

/-- A send of three bytes, up to its message id. -/
def sending : List Act :=
  [.send ⟨[1, 2, 3], 5, true⟩, .step (.bool true), .step (.bool true), .step (.id 7)]

theorem reported_as_placed_sending : ∃ e, Run Endpoint.act unquit opened
      (sending ++ [.step (.bool false), .step (.bool true)]) e ∧
    e.pc = .done (some ⟨1, 7, [1, 2, 3]⟩) none true ∧
      ∃ m', some ⟨1, 7, [1, 2, 3]⟩ = some m' ∧ e.Sends m' ∧ e.placed = records m' none := by
  have hrun : Run Endpoint.act unquit opened (sending ++ [.step (.bool false), .step (.bool true)]) _ := run_of_exec rfl
  exact ⟨_, hrun, rfl, (reported_as_placed rfl hrun rfl).1 rfl⟩

/-- **A send returns true with nothing placed.** The handle is a sender once more after a disconnect; the flag is still
set when the send has found the ring full 65 times. -/
theorem reported_unplaced : ∃ e, Run Endpoint.act (fun _ _ => True) opened
      (.disconnect :: .connect false true :: sending ++ List.replicate 66 (.step (.bool false))) e ∧
    e.pc = .done (some ⟨1, 7, [1, 2, 3]⟩) none true ∧ e.placed = [] ∧ records ⟨1, 7, [1, 2, 3]⟩ none ≠ [] :=
  ⟨_, run_of_exec rfl, rfl, rfl, by decide⟩

end ThothIpc.Cpp
