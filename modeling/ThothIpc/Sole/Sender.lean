import ThothIpc.Sole.Claim

/-!
# The sender of a C++ route

An endpoint caches in `sender_flag_` that it has claimed the sole-sender record. `ready_sending` answers from the flag
or claims; `shut_sending` releases the record but leaves the flag as it is.

* `claimSoleOwner`, `releaseSoleOwner` : the two calls as wholes, `claim_call` and `release_call` : they are what the
  accesses of `ClaimPc.step` and `RelPc.step` come to when nobody interferes;
* `State.call` : connect, reconnect, disconnect, send and destruction of an endpoint;
* `State.sends` : the endpoint has been answered that it is the sender and has not shut its sending since;
* `one_sender` : there is one at most, if `ready_sending` is not called on an endpoint that has shut its sending.
-/

namespace ThothIpc.Sole
open Function Steps

/-! ## The calls on the record, undisturbed -/

/-- `claim_sole_owner` by the process with `pid` and `tok`. -/
def claimSoleOwner (token : Int → Option Nat) (pid : Int) (tok : Nat) (o : SlotOwner) : SlotOwner × Bool :=
  if o.pid = ownerClaiming then (o, false)
  else if o.pid ≠ 0 ∧ isProcessAlive token o.pid o.startTok then (o, false)
  else ({ o with pid := pid, startTok := tok }, true)

/-- `release_sole_owner` by the process with `pid`. -/
def releaseSoleOwner (pid : Int) (o : SlotOwner) : SlotOwner :=
  if o.pid ≠ pid then o else { o with pid := 0, startTok := 0 }

/-- The accesses of a claim, one after the other. -/
def ClaimPc.call (token : Int → Option Nat) (pid : Int) (tok : Nat) : Nat → ClaimPc → SlotOwner →
    Option (SlotOwner × Bool)
  | 0, _, _ => none
  | n + 1, c, o =>
    match c.step token pid tok o with
    | (o', .inl c') => c'.call token pid tok n o'
    | (o', .inr ok) => some (o', ok)

theorem claim_call (token : Int → Option Nat) (pid : Int) (tok : Nat) (o : SlotOwner) :
    ClaimPc.call token pid tok 6 .loadPid o = some (claimSoleOwner token pid tok o) := by
  by_cases hc : o.pid = ownerClaiming
  · simp [ClaimPc.call, ClaimPc.step, claimSoleOwner, hc]
  by_cases hz : o.pid = 0
  · simp [ClaimPc.call, ClaimPc.step, claimSoleOwner, hz, ownerClaiming]
  by_cases ha : isProcessAlive token o.pid o.startTok = true
  · simp [ClaimPc.call, ClaimPc.step, claimSoleOwner, hc, hz, ha]
  · simp [ClaimPc.call, ClaimPc.step, claimSoleOwner, hc, hz, ha]

/-- The accesses of a release, one after the other. -/
def RelPc.call (pid : Int) : Nat → RelPc → SlotOwner → Option SlotOwner
  | 0, _, _ => none
  | n + 1, r, o =>
    match r.step pid o with
    | (o', some r') => r'.call pid n o'
    | (o', none) => some o'

theorem release_call (pid : Int) (o : SlotOwner) : RelPc.call pid 3 .load o = some (releaseSoleOwner pid o) := by
  by_cases hp : o.pid = pid
  · simp [RelPc.call, RelPc.step, releaseSoleOwner, hp]
  · simp [RelPc.call, RelPc.step, releaseSoleOwner, hp]

namespace Cpp

/-! ## Endpoints -/

/-- `thoth::sender`, `thoth::receiver`. -/
inductive Mode where
  | sender
  | receiver
  deriving DecidableEq, Repr

/-- A `route` object of process `proc` and its queue: `connId` is the queue's `connected_`, `senderFlag` its
`sender_flag_`; `shut` : `shut_sending` has released the record under that flag. -/
structure Endpoint (π : Type) where
  proc : π
  handle : Bool
  mode : Mode
  connected : Bool
  connId : BitVec 32
  senderFlag : Bool
  shut : Bool
  deriving DecidableEq, Repr

inductive Op where
  | connect (m : Mode)
  | reconnect (m : Mode)
  | disconnect
  | send (size : Nat)
  | destroy
  deriving DecidableEq, Repr

/-- The ring's sole-sender record and connection word, the endpoints and the process table. -/
structure State {π : Type} (W : World π) (ε : Type) where
  os : Os W
  owner : SlotOwner
  connections : BitVec 32
  eps : ε → Endpoint π

variable {π ε : Type} {W : World π} {s t u : State W ε} {e d : ε}

/-- Nothing that concerns sending has changed. -/
structure Calm (s t : State W ε) : Prop where
  os : t.os = s.os
  owner : t.owner = s.owner
  proc : ∀ e, (t.eps e).proc = (s.eps e).proc
  flag : ∀ e, (t.eps e).senderFlag = (s.eps e).senderFlag
  shut : ∀ e, (t.eps e).shut = (s.eps e).shut
  handle : ∀ e, (t.eps e).handle = false → (s.eps e).handle = false

theorem Calm.refl (s : State W ε) : Calm s s := ⟨rfl, rfl, fun _ => rfl, fun _ => rfl, fun _ => rfl, fun _ => id⟩

theorem Calm.trans (h : Calm s t) (h' : Calm t u) : Calm s u :=
  ⟨h'.os.trans h.os, h'.owner.trans h.owner, fun e => (h'.proc e).trans (h.proc e),
  fun e => (h'.flag e).trans (h.flag e), fun e => (h'.shut e).trans (h.shut e), fun e he => h.handle e (h'.handle e he)⟩

theorem calm_connections (s : State W ε) (c : BitVec 32) : Calm s { s with connections := c } :=
  ⟨rfl, rfl, fun _ => rfl, fun _ => rfl, fun _ => rfl, fun _ => id⟩

variable [DecidableEq ε]

def State.set (s : State W ε) (e : ε) (x : Endpoint π) : State W ε := { s with eps := update s.eps e x }

/-- `queue_base::ready_sending`. -/
def State.readySending (s : State W ε) (e : ε) : State W ε × Bool :=
  let x := s.eps e
  if x.senderFlag then (s, true)
  else
    let (o, ok) := claimSoleOwner s.os.token (W.pid x.proc) (W.tok x.proc) s.owner
    ({ s with owner := o }.set e { x with senderFlag := ok }, ok)

/-- `queue_base::shut_sending`. -/
def State.shutSending (s : State W ε) (e : ε) : State W ε :=
  let x := s.eps e
  if x.senderFlag then
    { s with owner := releaseSoleOwner (W.pid x.proc) s.owner }.set e { x with shut := true }
  else s

/-- `disconnect_receiver`: nothing if the endpoint's bit is not set. -/
def State.disconnectReceiver (s : State W ε) (e : ε) : State W ε :=
  let x := s.eps e
  if s.connections &&& x.connId ≠ 0 then
    { s with connections := s.connections &&& ~~~x.connId }.set e { x with connId := 0 }
  else s

/-- `queue_base::connect`: claim a connection bit, unless the endpoint has one. -/
def State.connectReceiver (s : State W ε) (e : ε) : State W ε × Bool :=
  let x := s.eps e
  if s.connections &&& x.connId ≠ 0 then (s, true)
  else
    let next := s.connections ||| (s.connections + 1)
    if next = s.connections then (s.set e { x with connId := 0 }, false)
    else ({ s with connections := next }.set e { x with connId := next ^^^ s.connections }, true)

/-- `detail_impl::disconnect`. -/
def State.disconnect (s : State W ε) (e : ε) : State W ε := (s.shutSending e).disconnectReceiver e

/-- `detail_impl::reconnect`. -/
def State.reconnect (s : State W ε) (e : ε) : Mode → State W ε × Bool
  | .receiver => (s.shutSending e).connectReceiver e
  | .sender => (s.disconnectReceiver e).readySending e

/-- What the object records of a connect. -/
def State.finish (e : ε) (m : Mode) (p : State W ε × Bool) : State W ε :=
  p.1.set e { p.1.eps e with mode := m, connected := p.2 }

/-- A call of `chan_wrapper`. A send that may push leaves everything here as it is. -/
def State.call (s : State W ε) (e : ε) : Op → State W ε
  | .connect m =>
    let s := if (s.eps e).handle then s.disconnect e else s.set e { s.eps e with handle := true }
    State.finish e m (s.reconnect e m)
  | .reconnect m =>
    let x := s.eps e
    if !x.handle ∨ (x.connected ∧ x.mode = m) then s
    else State.finish e m (s.reconnect e m)
  | .disconnect =>
    if (s.eps e).handle then
      let t := s.disconnect e
      t.set e { t.eps e with connected := false }
    else s
  | .send size =>
    if size = 0 ∨ !(s.eps e).handle then s else (s.readySending e).1
  | .destroy =>
    if (s.eps e).handle then
      let t := s.disconnect e
      t.set e { t.eps e with handle := false, connected := false, connId := 0, senderFlag := false, shut := false }
    else s

theorem calm_set {x : Endpoint π} (hp : x.proc = (s.eps e).proc) (hf : x.senderFlag = (s.eps e).senderFlag)
    (hs : x.shut = (s.eps e).shut) (hh : x.handle = false → (s.eps e).handle = false) : Calm s (s.set e x) := by
  refine ⟨rfl, rfl, fun d => ?_, fun d => ?_, fun d => ?_, fun d => ?_⟩
  all_goals
    simp only [State.set, update_apply]
    split
  · rename_i he; rw [hp, he]
  · rfl
  · rename_i he; rw [hf, he]
  · rfl
  · rename_i he; rw [hs, he]
  · rfl
  · rename_i he; rw [he]; exact hh
  · exact id

theorem calm_disconnectReceiver (s : State W ε) (e : ε) : Calm s (s.disconnectReceiver e) := by
  unfold State.disconnectReceiver
  dsimp only
  split
  · exact (calm_connections s _).trans (calm_set rfl rfl rfl id)
  · exact Calm.refl s

theorem calm_connectReceiver (s : State W ε) (e : ε) : Calm s (s.connectReceiver e).1 := by
  unfold State.connectReceiver
  dsimp only
  split
  · exact Calm.refl s
  split
  · exact calm_set rfl rfl rfl id
  · exact (calm_connections s _).trans (calm_set rfl rfl rfl id)

theorem calm_finish (e : ε) (m : Mode) (p : State W ε × Bool) : Calm p.1 (State.finish e m p) :=
  calm_set rfl rfl rfl id

theorem shutSending_os (s : State W ε) (e : ε) : (s.shutSending e).os = s.os := by
  unfold State.shutSending
  dsimp only
  split <;> rfl

theorem shutSending_eps (s : State W ε) (e d : ε) : (s.shutSending e).eps d =
    if d = e ∧ (s.eps e).senderFlag = true then { s.eps d with shut := true } else s.eps d := by
  unfold State.shutSending
  dsimp only
  by_cases hf : (s.eps e).senderFlag = true
  · simp only [hf, if_true, State.set, update_apply, and_true]
    split
    · rename_i he; rw [he, hf]
    · rfl
  · simp only [hf, if_false, and_false, Bool.false_eq_true]

theorem readySending_flag (s : State W ε) (e : ε) :
    ((s.readySending e).1.eps e).senderFlag = (s.readySending e).2 := by
  unfold State.readySending
  dsimp only
  split
  · rename_i hf; exact hf
  · simp only [State.set, update_self]

inductive Act (π ε : Type) where
  | call (e : ε) (op : Op)
  | receivers (c : BitVec 32)
  | spawn (q : π)
  | kill (q : π)
  deriving DecidableEq, Repr

variable [DecidableEq π]

/-- A call of a live process's endpoint; or receivers elsewhere come and go; or a process starts or dies. -/
def State.step (s : State W ε) : Act π ε → Option (State W ε)
  | .call e op => if s.os.alive (s.eps e).proc then some (s.call e op) else none
  | .receivers c => some { s with connections := c }
  | .spawn q => (s.os.spawn q).map fun o => { s with os := o }
  | .kill q => (s.os.kill q).map fun o => { s with os := o }

/-! ## One sender -/

/-- The endpoint has been answered that it is the sender, and has not shut its sending since. -/
def State.sends (s : State W ε) (e : ε) : Prop :=
  s.os.alive (s.eps e).proc = true ∧ (s.eps e).senderFlag = true ∧ (s.eps e).shut = false

/-- The call asks `ready_sending`. -/
def Endpoint.asks (x : Endpoint π) : Op → Bool
  | .connect m => m = .sender
  | .reconnect m => x.handle ∧ ¬(x.connected ∧ x.mode = m) ∧ m = .sender
  | .send size => size ≠ 0 ∧ x.handle
  | _ => false

/-- The call runs `shut_sending`. -/
def Endpoint.shuts (x : Endpoint π) : Op → Bool
  | .connect _ => x.handle
  | .reconnect m => x.handle ∧ ¬(x.connected ∧ x.mode = m) ∧ m = .receiver
  | .disconnect => x.handle
  | .destroy => x.handle
  | .send _ => false

/-- An endpoint that has shut its sending (or is about to) is not asked `ready_sending` again, and runs `shut_sending`
again only while no other endpoint of its process is the sender. -/
def usable (s : State W ε) : Act π ε → Prop
  | .call e op =>
    ((s.eps e).asks op = true → (s.eps e).senderFlag = true → (s.eps e).shut = false ∧ (s.eps e).shuts op = false) ∧
    ((s.eps e).shuts op = true → (s.eps e).shut = true → ∀ e', s.sends e' → (s.eps e').proc ≠ (s.eps e).proc)
  | _ => True

structure Inv (s : State W ε) : Prop where
  held : ∀ e, s.sends e → s.owner.pid = W.pid (s.eps e).proc ∧ s.owner.startTok = W.tok (s.eps e).proc
  one : ∀ e e', s.sends e → s.sends e' → e = e'
  shut : ∀ e, (s.eps e).shut = true → (s.eps e).senderFlag = true
  fresh : ∀ e, s.os.born (s.eps e).proc = false → (s.eps e).senderFlag = false
  bare : ∀ e, (s.eps e).handle = false → (s.eps e).senderFlag = false

omit [DecidableEq ε] in
theorem Calm.sends (h : Calm s t) : t.sends e ↔ s.sends e := by
  simp only [State.sends, h.os, h.proc, h.flag, h.shut]

omit [DecidableEq ε] in
theorem Inv.calm (h : Inv s) (hc : Calm s t) : Inv t := by
  refine ⟨fun e he => ?_, fun e e' he he' => h.one e e' (hc.sends.mp he) (hc.sends.mp he'), fun e he => ?_,
    fun e he => ?_, fun e he => ?_⟩
  · rw [hc.owner, hc.proc]
    exact h.held e (hc.sends.mp he)
  · rw [hc.flag]
    exact h.shut e (by rw [← hc.shut]; exact he)
  · rw [hc.flag]
    exact h.fresh e (by rw [← hc.os, ← hc.proc]; exact he)
  · rw [hc.flag]
    exact h.bare e (hc.handle e he)

/-! ### Shutting -/

/-- `shut_sending` may run: it gives back the endpoint's own claim, or finds no claim of its process. -/
def mayShut (s : State W ε) (e : ε) : Prop :=
  (s.eps e).shut = true → ∀ e', s.sends e' → (s.eps e').proc ≠ (s.eps e).proc

/-- After `shut_sending` the endpoint is not the sender, and whoever else was still is. -/
theorem Inv.shutSending (h : Inv s) (ha : s.os.alive (s.eps e).proc = true) (hm : mayShut s e) :
    Inv (s.shutSending e) ∧ (∀ d, d ≠ e → s.sends d → (s.shutSending e).owner = s.owner) := by
  unfold State.shutSending
  dsimp only
  split
  case isFalse => exact ⟨h, fun _ _ _ => rfl⟩
  rename_i hflag
  -- the record of another sender is not touched
  have hother : ∀ d, d ≠ e → s.sends d → s.owner.pid ≠ W.pid (s.eps e).proc := by
    intro d hd hs hpid
    have hproc : (s.eps d).proc = (s.eps e).proc :=
      Os.alive_inj hs.1 ha ((h.held d hs).1.symm.trans hpid)
    by_cases hsh : (s.eps e).shut = true
    · exact hm hsh d hs hproc
    · exact hd (h.one d e hs ⟨ha, hflag, by simpa using hsh⟩)
  have hkeep : ∀ d, d ≠ e → s.sends d → releaseSoleOwner (W.pid (s.eps e).proc) s.owner = s.owner := by
    intro d hd hs
    rw [releaseSoleOwner, if_pos (hother d hd hs)]
  have heps : ∀ d, update s.eps e { s.eps e with shut := true } d =
      if d = e then { s.eps e with shut := true } else s.eps d := fun d => update_apply ..
  have hsends : ∀ d, ({ s with owner := releaseSoleOwner (W.pid (s.eps e).proc) s.owner }.set e
      { s.eps e with shut := true }).sends d → d ≠ e ∧ s.sends d := by
    intro d
    simp only [State.sends, State.set, heps]
    split
    · rintro ⟨-, -, hc⟩; cases hc
    · rename_i hne
      exact fun hd => ⟨hne, hd⟩
  refine ⟨⟨fun d hd => ?_, fun d d' hd hd' => ?_, fun d => ?_, fun d => ?_, fun d => ?_⟩, hkeep⟩
  · obtain ⟨hne, hs⟩ := hsends d hd
    simp only [State.set, heps, if_neg hne, hkeep d hne hs]
    exact h.held d hs
  · exact h.one d d' (hsends d hd).2 (hsends d' hd').2
  · simp only [State.set, heps]
    split
    · exact fun _ => hflag
    · exact h.shut d
  · simp only [State.set, heps]
    split
    · rename_i he
      intro hb
      exact h.fresh e hb
    · exact h.fresh d
  · simp only [State.set, heps]
    split
    · exact fun hb => h.bare e hb
    · exact h.bare d

theorem shutSending_sends (hd : d ≠ e) : (s.shutSending e).sends d ↔ s.sends d := by
  simp only [State.sends, shutSending_os, shutSending_eps, hd, false_and, if_false]

/-! ### Asking -/

theorem claim_refused {o : Os W} {q : π} {r : SlotOwner} {pid : Int} {tok : Nat} (hq : o.alive q = true)
    (hp : r.pid = W.pid q) (ht : r.startTok = W.tok q) : claimSoleOwner o.token pid tok r = (r, false) := by
  have hpos := W.pid_pos q
  rw [claimSoleOwner]
  split
  · rfl
  · rw [if_pos]
    refine ⟨by omega, ?_⟩
    rw [hp]
    exact Os.alive_test hq (Or.inl ht)

/-- `ready_sending` answers true to the sender, or to the endpoint that becomes it when there is none; another sender
stays. -/
theorem Inv.readySending (h : Inv s) (ha : s.os.alive (s.eps e).proc = true) (hh : (s.eps e).handle = true)
    (hask : (s.eps e).senderFlag = true → (s.eps e).shut = false) :
    Inv (s.readySending e).1 ∧ ((s.readySending e).2 = true → (s.readySending e).1.sends e) ∧
      ∀ d, d ≠ e → s.sends d → (s.readySending e).1.owner = s.owner ∧ (s.readySending e).1.sends d := by
  unfold State.readySending
  dsimp only
  by_cases hf : (s.eps e).senderFlag = true
  · simp only [hf, if_true]
    exact ⟨h, fun _ => ⟨ha, hf, hask hf⟩, fun d _ hd => ⟨trivial, hd⟩⟩
  have hsh : (s.eps e).shut = false := by
    by_contra hc
    exact hf (h.shut e (by simpa using hc))
  simp only [hf, if_false, Bool.false_eq_true]
  obtain ⟨o, ok, hcl⟩ : ∃ o ok, claimSoleOwner s.os.token (W.pid (s.eps e).proc)
    (W.tok (s.eps e).proc) s.owner = (o, ok) :=
    ⟨_, _, rfl⟩
  rw [hcl]
  simp only
  have heps : ∀ d, update s.eps e { s.eps e with senderFlag := ok } d =
      if d = e then { s.eps e with senderFlag := ok } else s.eps d := fun d => update_apply ..
  have hsends : ∀ d, d ≠ e → (({ s with owner := o }.set e { s.eps e with senderFlag := ok }).sends d ↔ s.sends d) := by
    intro d hd
    simp only [State.sends, State.set, heps, if_neg hd]
  -- while there is a sender, the claim is refused
  have hrefuse : ∀ d, s.sends d → o = s.owner ∧ ok = false := by
    intro d hd
    rw [claim_refused hd.1 (h.held d hd).1 (h.held d hd).2, Prod.mk.injEq] at hcl
    exact ⟨hcl.1.symm, hcl.2.symm⟩
  have hnew : ({ s with owner := o }.set e { s.eps e with senderFlag := ok }).sends e ↔ ok = true := by
    simp only [State.sends, State.set, heps, if_true]
    exact ⟨fun hc => hc.2.1, fun hc => ⟨ha, hc, hsh⟩⟩
  refine ⟨⟨fun d hd => ?_, fun d d' hd hd' => ?_, fun d => ?_, fun d => ?_, fun d => ?_⟩, hnew.mpr, fun d hne hd => ?_⟩
  · by_cases hde : d = e
    · subst hde
      have hok := hnew.mp hd
      subst hok
      simp only [State.set, heps, if_true]
      unfold claimSoleOwner at hcl
      split at hcl
      · cases hcl
      split at hcl
      · cases hcl
      · cases hcl
        exact ⟨rfl, rfl⟩
    · have hds := (hsends d hde).mp hd
      simp only [State.set, heps, if_neg hde, (hrefuse d hds).1]
      exact h.held d hds
  · by_cases hde : d = e <;> by_cases hde' : d' = e
    · rw [hde, hde']
    · have hr := (hrefuse d' ((hsends d' hde').mp hd')).2
      rw [hde, hnew, hr] at hd
      cases hd
    · have hr := (hrefuse d ((hsends d hde).mp hd)).2
      rw [hde', hnew, hr] at hd'
      cases hd'
    · exact h.one d d' ((hsends d hde).mp hd) ((hsends d' hde').mp hd')
  · simp only [State.set, heps]
    split
    · intro hc
      rw [hsh] at hc
      cases hc
    · exact h.shut d
  · simp only [State.set, heps]
    split
    · intro hb
      rw [s.os.run_born _ _ (Os.alive_iff.mp ha)] at hb
      cases hb
    · exact h.fresh d
  · simp only [State.set, heps]
    split
    · intro hb
      rw [hh] at hb
      cases hb
    · exact h.bare d
  · exact ⟨(hrefuse d hd).1, (hsends d hne).mpr hd⟩

/-! ### Whole calls -/

/-- What a call on `e` leaves: the invariant, and whoever else is the sender. -/
structure After (s : State W ε) (e : ε) (t : State W ε) : Prop where
  inv : Inv t
  os : t.os = s.os
  proc : (t.eps e).proc = (s.eps e).proc
  other : ∀ d, d ≠ e → s.sends d → t.owner = s.owner ∧ t.sends d

omit [DecidableEq ε] in
theorem After.calm (h : Inv s) (hc : Calm s t) : After s e t :=
  ⟨h.calm hc, hc.os, hc.proc e, fun _ _ hd => ⟨hc.owner, hc.sends.mpr hd⟩⟩

omit [DecidableEq ε] in
theorem After.trans (h : After s e t) (h' : After t e u) : After s e u :=
  ⟨h'.inv, h'.os.trans h.os, h'.proc.trans h.proc, fun d hd hs => by
    obtain ⟨ho, ht⟩ := h.other d hd hs
    obtain ⟨ho', hu⟩ := h'.other d hd ht
    exact ⟨ho'.trans ho, hu⟩⟩

omit [DecidableEq ε] in
theorem After.alive (h : After s e t) (ha : s.os.alive (s.eps e).proc = true) : t.os.alive (t.eps e).proc = true := by
  rw [h.os, h.proc]
  exact ha

theorem after_shutSending (h : Inv s) (ha : s.os.alive (s.eps e).proc = true) (hm : mayShut s e) :
    After s e (s.shutSending e) := by
  obtain ⟨hi, ho⟩ := h.shutSending ha hm
  refine ⟨hi, shutSending_os s e, ?_, fun d hd hs => ⟨ho d hd hs, (shutSending_sends hd).mpr hs⟩⟩
  rw [shutSending_eps]
  split <;> rfl

theorem after_disconnect (h : Inv s) (ha : s.os.alive (s.eps e).proc = true) (hm : mayShut s e) :
    After s e (s.disconnect e) := by
  have hs := after_shutSending h ha hm
  exact hs.trans (After.calm hs.inv (calm_disconnectReceiver _ e))

/-- Once an endpoint has shut its sending it may do so again: the claim of its process was its own. -/
theorem mayShut_again (h : Inv s) (ha : s.os.alive (s.eps e).proc = true) (hm : mayShut s e)
    (hc : Calm (s.shutSending e) t) : mayShut t e := by
  intro hsh d hd hp
  rw [hc.proc, hc.proc] at hp
  rw [hc.shut] at hsh
  rw [hc.sends] at hd
  have hne : d ≠ e := by
    rintro rfl
    rw [hd.2.2] at hsh
    cases hsh
  have hds := (shutSending_sends hne).mp hd
  simp only [shutSending_eps, hne, false_and, if_false] at hp
  have hp' : (s.eps d).proc = (s.eps e).proc := by
    rw [hp]
    split <;> rfl
  by_cases hse : (s.eps e).shut = true
  · exact hm hse d hds hp'
  · -- it was the sender until now
    simp only [shutSending_eps, true_and] at hsh
    split at hsh
    · rename_i hf
      exact hne (h.one d e hds ⟨ha, hf, by simpa using hse⟩)
    · exact hse hsh

theorem after_readySending (h : Inv s) (ha : s.os.alive (s.eps e).proc = true) (hh : (s.eps e).handle = true)
    (hask : (s.eps e).senderFlag = true → (s.eps e).shut = false) :
    After s e (s.readySending e).1 ∧
      (((s.readySending e).1.eps e).senderFlag = true → (s.readySending e).1.sends e) := by
  obtain ⟨hi, hans, hoth⟩ := h.readySending ha hh hask
  refine ⟨⟨hi, ?_, ?_, hoth⟩, fun hf => hans (by rw [← readySending_flag]; exact hf)⟩
  · simp only [State.readySending]
    split <;> rfl
  · simp only [State.readySending]
    split
    · rfl
    · simp only [State.set, update_self]

theorem after_reconnect (h : Inv s) (ha : s.os.alive (s.eps e).proc = true) (hh : (s.eps e).handle = true) (m : Mode)
    (hm : m = .receiver → mayShut s e) (hask : m = .sender → (s.eps e).senderFlag = true → (s.eps e).shut = false) :
    After s e (s.reconnect e m).1 ∧
      (m = .sender → ((s.reconnect e m).1.eps e).senderFlag = true → (s.reconnect e m).1.sends e) := by
  cases m with
  | receiver =>
    have hs := after_shutSending h ha (hm rfl)
    exact ⟨hs.trans (After.calm hs.inv (calm_connectReceiver _ e)), fun hc => by cases hc⟩
  | sender =>
    have hc := calm_disconnectReceiver s e
    have hh' : ((s.disconnectReceiver e).eps e).handle = true := by
      by_contra hn
      rw [hc.handle e (by simpa using hn)] at hh
      cases hh
    have hs := After.calm (e := e) h hc
    obtain ⟨hr, hans⟩ := after_readySending hs.inv (hs.alive ha) hh' (fun hf => by
      rw [hc.shut]
      exact hask rfl (by rw [← hc.flag]; exact hf))
    exact ⟨hs.trans hr, fun _ => hans⟩

theorem after_drop {x : Endpoint π} (h : Inv s) (hp : x.proc = (s.eps e).proc) (hf : x.senderFlag = false)
    (hs : x.shut = false) : After s e (s.set e x) := by
  have heps : ∀ d, update s.eps e x d = if d = e then x else s.eps d := fun d => update_apply ..
  have hsends : ∀ d, (s.set e x).sends d → d ≠ e ∧ s.sends d := by
    intro d
    simp only [State.sends, State.set, heps]
    split
    · rintro ⟨-, hc, -⟩
      rw [hf] at hc
      cases hc
    · rename_i hne
      exact fun hd => ⟨hne, hd⟩
  refine ⟨⟨fun d hd => ?_, fun d d' hd hd' => h.one d d' (hsends d hd).2 (hsends d' hd').2, fun d => ?_, fun d => ?_,
    fun d => ?_⟩, rfl, by simp [State.set, hp], fun d hd hs' => ⟨rfl, ?_⟩⟩
  · obtain ⟨hne, hs'⟩ := hsends d hd
    simp only [State.set, heps, if_neg hne]
    exact h.held d hs'
  · simp only [State.set, heps]
    split
    · intro hc
      rw [hs] at hc
      cases hc
    · exact h.shut d
  · simp only [State.set, heps]
    split
    · exact fun _ => hf
    · exact h.fresh d
  · simp only [State.set, heps]
    split
    · exact fun _ => hf
    · exact h.bare d
  · simp only [State.sends, State.set, heps, if_neg hd]
    exact hs'

theorem after_finish {p : State W ε × Bool} {m : Mode} (h : After s e p.1)
    (hans : m = .sender → (p.1.eps e).senderFlag = true → p.1.sends e) : After s e (State.finish e m p) ∧
      (m = .sender → ((State.finish e m p).eps e).senderFlag = true → (State.finish e m p).sends e) := by
  have hc := calm_finish e m p
  refine ⟨h.trans (After.calm h.inv hc), fun hm hf => ?_⟩
  rw [hc.sends]
  exact hans hm (by rw [← hc.flag]; exact hf)

/-- A call on an endpoint that may be used so: another sender stays, and whoever is answered that it is the sender
is. -/
theorem after_call {op : Op} (h : Inv s) (ha : s.os.alive (s.eps e).proc = true) (hu : usable s (.call e op)) :
    After s e (s.call e op) ∧
      ((s.eps e).asks op = true → ((s.call e op).eps e).senderFlag = true → (s.call e op).sends e) := by
  obtain ⟨hask, hshut⟩ := hu
  cases op with
  | connect m =>
    have hm : m = .sender → (s.eps e).asks (.connect m) = true := fun he => by simp [Endpoint.asks, he]
    have hans : (s.eps e).asks (.connect m) = true → m = .sender := fun he => by simpa [Endpoint.asks] using he
    by_cases hh : (s.eps e).handle = true
    · -- the old connection is cleared first, so a former sender may not be asked here
      have hsh := hshut (by simpa [Endpoint.shuts] using hh)
      have hd := after_disconnect h ha hsh
      have hc : Calm (s.shutSending e) (s.disconnect e) := calm_disconnectReceiver (s.shutSending e) e
      have hh' : ((s.disconnect e).eps e).handle = true := by
        by_contra hn
        have := hc.handle e (by simpa using hn)
        rw [shutSending_eps] at this
        split at this <;> rw [hh] at this <;> cases this
      have hflag : m = .sender → ((s.disconnect e).eps e).senderFlag = true →
        ((s.disconnect e).eps e).shut = false := by
        intro he hf
        rw [hc.flag, shutSending_eps] at hf
        have hf' : (s.eps e).senderFlag = true := by
          split at hf <;> exact hf
        have := (hask (hm he) hf').2
        simp [Endpoint.shuts, hh] at this
      obtain ⟨hr, ha'⟩ := after_reconnect hd.inv (hd.alive ha) hh' m (fun _ => mayShut_again h ha hsh hc) hflag
      simp only [State.call, hh, if_true]
      obtain ⟨hf, hfa⟩ := after_finish hr ha'
      exact ⟨hd.trans hf, fun he => hfa (hans he)⟩
    · have hc : Calm s (s.set e { s.eps e with handle := true }) := calm_set rfl rfl rfl (fun hc => by cases hc)
      have hflag := h.bare e (by simpa using hh)
      have hd := After.calm (e := e) h hc
      obtain ⟨hr, ha'⟩ := after_reconnect hd.inv (hd.alive ha) (by simp [State.set]) m
        (fun _ hs => by
          have := hd.inv.shut e hs
          rw [hc.flag, hflag] at this
          cases this)
        (fun _ hf => by
          rw [hc.flag, hflag] at hf
          cases hf)
      simp only [State.call, hh, if_false, Bool.false_eq_true]
      obtain ⟨hf, hfa⟩ := after_finish hr ha'
      exact ⟨hd.trans hf, fun he => hfa (hans he)⟩
  | reconnect m =>
    simp only [State.call]
    split
    · rename_i hc
      refine ⟨After.calm h (Calm.refl s), fun he => ?_⟩
      simp only [Endpoint.asks, decide_eq_true_eq] at he
      simp only [he.1, Bool.not_true, Bool.false_eq_true, false_or] at hc
      exact absurd hc he.2.1
    · rename_i hc
      simp only [not_or, Bool.not_eq_true', Bool.not_eq_false] at hc
      obtain ⟨hr, ha'⟩ := after_reconnect h ha hc.1 m
        (fun he => hshut (by simp only [Endpoint.shuts, decide_eq_true_eq]; exact ⟨hc.1, hc.2, he⟩))
        (fun he hf => (hask (by simp only [Endpoint.asks, decide_eq_true_eq]; exact ⟨hc.1, hc.2, he⟩) hf).1)
      obtain ⟨hf, hfa⟩ := after_finish hr ha'
      refine ⟨hf, fun he => hfa ?_⟩
      simp only [Endpoint.asks, decide_eq_true_eq] at he
      exact he.2.2
  | disconnect =>
    refine ⟨?_, fun he => by cases he⟩
    simp only [State.call]
    split
    · rename_i hh
      have hd := after_disconnect h ha (hshut hh)
      exact hd.trans (After.calm hd.inv (calm_set rfl rfl rfl id))
    · exact After.calm h (Calm.refl s)
  | send size =>
    simp only [State.call]
    split
    · rename_i hc
      refine ⟨After.calm h (Calm.refl s), fun he => ?_⟩
      simp [Endpoint.asks] at he
      simp [he] at hc
    · rename_i hc
      simp only [not_or, Bool.not_eq_true', Bool.not_eq_false] at hc
      have hasks : (s.eps e).asks (.send size) = true := by
        simp only [Endpoint.asks, decide_eq_true_eq]
        exact hc
      obtain ⟨hr, ha'⟩ := after_readySending h ha hc.2 (fun hf => (hask hasks hf).1)
      exact ⟨hr, fun _ => ha'⟩
  | destroy =>
    refine ⟨?_, fun he => by cases he⟩
    simp only [State.call]
    split
    · rename_i hh
      have hd := after_disconnect h ha (hshut hh)
      exact hd.trans (after_drop hd.inv rfl rfl rfl)
    · exact After.calm h (Calm.refl s)

theorem Inv.step {act : Act π ε} (h : Inv s) (hu : usable s act) (hst : s.step act = some t) : Inv t := by
  cases act with
  | call e op =>
    simp only [State.step] at hst
    split at hst <;> cases hst
    rename_i ha
    exact (after_call h ha hu).1.inv
  | receivers c =>
    cases hst
    exact h.calm (calm_connections s c)
  | spawn q =>
    obtain ⟨o, ho, rfl⟩ := Option.map_eq_some_iff.mp hst
    obtain ⟨-, hborn, -⟩ := Os.spawn_run ho
    -- the endpoints of the process that starts have claimed nothing
    have hs : ∀ e, ({ s with os := o } : State W ε).sends e → s.sends e := by
      rintro e ⟨ha, hf, hsh⟩
      rcases Os.alive_of_spawn ho ha with ha | hq
      · exact ⟨ha, hf, hsh⟩
      · simp only at hf hq
        rw [h.fresh e (by rw [hq]; exact hborn)] at hf
        cases hf
    refine ⟨fun e he => h.held e (hs e he), fun e e' he he' => h.one e e' (hs e he) (hs e' he'), h.shut,
      fun e he => ?_, h.bare⟩
    by_cases hq : (s.eps e).proc = q
    · exact h.fresh e (by rw [hq]; exact hborn)
    · exact h.fresh e (Os.unborn_of_spawn ho hq he)
  | kill q =>
    obtain ⟨o, ho, rfl⟩ := Option.map_eq_some_iff.mp hst
    have hs : ∀ e, ({ s with os := o } : State W ε).sends e → s.sends e :=
      fun e he => ⟨Os.alive_of_kill ho he.1, he.2.1, he.2.2⟩
    exact ⟨fun e he => h.held e (hs e he), fun e e' he he' => h.one e e' (hs e he) (hs e' he'), h.shut,
      fun e he => h.fresh e (by rw [← Os.born_of_kill ho]; exact he), h.bare⟩

/-- A free record, and endpoints on which nothing has been called. -/
structure Unused (s : State W ε) : Prop where
  pid : s.owner.pid = 0
  handle : ∀ e, (s.eps e).handle = false
  flag : ∀ e, (s.eps e).senderFlag = false
  shut : ∀ e, (s.eps e).shut = false

omit [DecidableEq ε] in
theorem Unused.inv {s : State W ε} (h : Unused s) : Inv s := by
  refine ⟨fun e he => ?_, fun e _ he => ?_, fun e he => ?_, fun e _ => h.flag e, fun e _ => h.flag e⟩
  · rw [State.sends, h.flag] at he
    simp at he
  · rw [State.sends, h.flag] at he
    simp at he
  · rw [h.shut] at he
    cases he

instance (s : State W ε) (e : ε) : Decidable (s.sends e) := by
  unfold State.sends
  infer_instance

instance [Fintype ε] (s : State W ε) (act : Act π ε) : Decidable (usable s act) := by
  unfold usable
  split <;> infer_instance

/-! ## Two senders -/

/-- Endpoints 0 and 2 of one process and endpoint 1 of another, on a ring with a receiver. -/
def endpoints : State quartet (Fin 3) where
  os := startup.os
  owner := ⟨0, 0, 0⟩
  connections := 1
  eps := fun e => ⟨![0, 1, 0] e, false, .sender, false, 0, false, false⟩

theorem unused_endpoints : Unused endpoints := ⟨rfl, fun _ => rfl, fun _ => rfl, fun _ => rfl⟩

end Cpp

end ThothIpc.Sole
