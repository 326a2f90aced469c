import ThothIpc.Route.Connect
import ThothIpc.Message.Fragment

/-!
# `send` and `try_send` on a route

`try_send(data)` is `send(data, 0)`: the same loop over the fragments, each through `push_fragment`, which waits no time
for its slot and then takes the timeout path of `send`: it bumps the epoch and evicts.

* `Sys` : a route with its sender's call, and `tenant`, the endpoint that holds each connection bit;
* `Late s i b` : the slot at the write cursor holds a fragment the connected receiver `i` has yet to read;
* `orderly` : a `try_send` does not give up on a slot; the marks of late receivers are in place when the sender looks at
  the slot; no connect completes on a slot the sender is already taking;
* `try_send_harmless` : then no step of a `try_send` touches the connection bits, the epoch or an unread fragment;
* `try_send_evicts` : a full ring, and a `try_send`.
-/

namespace ThothIpc.Route
open Function Steps Message

variable {ι : Type} [DecidableEq ι]

/-! ## The call -/

/-- The sender's call: the fragments after the one being pushed, whether it is a `try_send`, and how much was published
before. -/
structure Call where
  rest : List MsgT
  trying : Bool
  before : Nat

/-- A route, its sender's call and the result of the last one; `tenant` is who holds each connection bit. -/
structure Sys (ι : Type) where
  route : State ι
  call : Option Call
  result : Option Bool
  tenant : Nat → Option ι

/-- What happens next: a call, the return of `push_fragment` to it, or anything on the ring. -/
inductive SysAct (ι : Type) where
  | send (m : Sent) (trying : Bool)
  | next
  | ring (a : Act ι)

def Act.actor : Act ι → Option ι
  | .recv i _ => some i
  | .sender _ => none

/-- A bit that is cleared has no holder; a bit that is set is held by whoever set it. -/
def tenants (s t : State ι) (a : Act ι) (h : Nat → Option ι) (b : Nat) : Option ι :=
  if t.ring.connections.getLsbD b then if s.ring.connections.getLsbD b then h b else a.actor else none

/-- A push is started by the call only. -/
def Act.isPush : Act ι → Bool
  | .sender (.push _) => true
  | _ => false

def Sys.step (s : Sys ι) : SysAct ι → Option (Sys ι)
  | .send m trying =>
    match s.call, s.route.sender, m.fragments with
    | none, .idle, [] => some { s with result := some false }
    | none, .idle, f :: rest =>
      if s.route.ring.connections = 0 then some { s with result := some false } -- no receivers
      else some { s with route.sender := .loadCc f, call := some ⟨rest, trying, s.route.pushed.length⟩ }
    | _, _, _ => none
  | .next =>
    match s.call, s.route.sender with
    | some c, .idle =>
      -- `push_fragment` has returned whether it published
      if s.route.pushed.length = c.before then some { s with call := none, result := some false }
      else
        match c.rest with
        | [] => some { s with call := none, result := some true }
        | f :: rest => some { s with route.sender := .loadCc f, call := some ⟨rest, c.trying, s.route.pushed.length⟩ }
    | _, _ => none
  | .ring a =>
    if a.isPush then none
    else (s.route.step a).map fun t => { s with route := t, tenant := tenants s.route t a s.tenant }

/-- A `try_send` is under way. -/
def Sys.trying (s : Sys ι) : Bool := s.call.any Call.trying

def SysAct.byTry (s : Sys ι) : SysAct ι → Bool
  | .send _ trying => trying
  | .next => s.trying
  | .ring (.sender _) => s.trying
  | .ring (.recv _ _) => false

/-! ## What a receiver has yet to read -/

/-- How far the receiver is behind the write cursor. -/
def Receiver.lag (g : Ring) (r : Receiver) : Nat := (g.writeCursor - (r.readCursor + BitVec.ofNat 32 r.pc.past)).toNat

/-- The endpoint has connected and not disconnected. -/
def Receiver.attached (r : Receiver) : Bool := r.pc.connected && !r.disconnected

/-- Receiver `i` is connected with bit `b` and the slot at the write cursor is still owed to it. -/
def Late (s : Sys ι) (i : ι) (b : Nat) : Prop :=
  s.tenant b = some i ∧ (s.route.recvs i).attached = true ∧ 256 ≤ (s.route.recvs i).lag s.route.ring

instance (s : Sys ι) (i : ι) (b : Nat) : Decidable (Late s i b) := inferInstanceAs (Decidable (_ ∧ _))

/-- The slot with index `k` holds a fragment that the connected receiver `i` has yet to read: one of those from its
cursor on to the write cursor. -/
def Unread (s : Sys ι) (i : ι) (k : BitVec 8) : Prop :=
  ∃ b < 32, s.tenant b = some i ∧ (s.route.recvs i).attached = true ∧
    ∃ p : BitVec 32, p.setWidth 8 = k ∧
      (p - ((s.route.recvs i).readCursor + BitVec.ofNat 32 (s.route.recvs i).pc.past)).toNat <
        (s.route.recvs i).lag s.route.ring

/-- The slot at the write cursor is unread only by receivers that are a lap behind. -/
theorem lap_of_same_slot {p c w : BitVec 32} (hk : p.setWidth 8 = w.setWidth 8) (hlt : (p - c).toNat < (w - c).toNat) :
    256 ≤ (w - c).toNat := by
  have hmod : p.toNat % 256 = w.toNat % 256 := by
    have := congrArg BitVec.toNat hk
    simpa [BitVec.toNat_setWidth] using this
  have h1 := p.isLt
  have h2 := c.isLt
  have h3 := w.isLt
  rw [BitVec.toNat_sub] at hlt ⊢
  rw [BitVec.toNat_sub] at hlt
  omega

omit [DecidableEq ι] in
theorem Unread.late {s : Sys ι} {i : ι} (h : Unread s i (s.route.ring.writeCursor.setWidth 8)) :
    ∃ b < 32, Late s i b := by
  obtain ⟨b, hb, ht, ha, p, hk, hp⟩ := h
  exact ⟨b, hb, ht, ha, lap_of_same_slot hk hp⟩

/-! ## When a claim is in order -/

/-- The sender has loaded the marks of the slot at the write cursor, and not yet published there. -/
def SPc.taking : SPc → Bool
  | .live _ _ _ _ _ _ _ => true
  | .cas _ _ _ _ _ => true
  | .write _ _ _ => true
  | .bump _ => true
  | _ => false

/-- When the sender looks at the slot, each late receiver is marked there, in the current epoch, is in the sender's
connection mask, and its record counts. -/
def marksInPlace (s : Sys ι) : Prop :=
  match s.route.sender with
  | .loadRc _ cc ep wt => ∀ b < 32, ∀ i, Late s i b → cc.getLsbD b = true ∧
      (s.route.ring.slot wt).rc.getLsbD b = true ∧ (s.route.ring.slot wt).rc &&& ~~~epMask = ep
  | .live _ _ _ wt _ _ _ => ∀ b < 32, ∀ i, Late s i b → isLive (s.route.ring.owners b).since (wt - ringLap) = true
  | _ => True

instance [Fintype ι] (s : Sys ι) : Decidable (marksInPlace s) := by
  unfold marksInPlace
  split <;> infer_instance

/-- No connect completes with a cursor on a slot the sender is already taking. -/
def adoptsFree (s : Sys ι) : SysAct ι → Bool
  | .ring (.recv i .go) => !((s.route.recvs i).pc == .ownerPid && s.route.sender.taking) ||
      decide ((s.route.recvs i).lag s.route.ring < 256)
  | _ => true

/-- A `try_send` does not give up on the slot. -/
def staysPut (s : Sys ι) : SysAct ι → Bool
  | .ring (.sender .timeout) => !s.trying
  | _ => true

def orderly (s : Sys ι) (a : SysAct ι) : Prop :=
  staysPut s a = true ∧ marksInPlace s ∧ adoptsFree s a = true

instance [Fintype ι] (s : Sys ι) (a : SysAct ι) : Decidable (orderly s a) := inferInstanceAs (Decidable (_ ∧ _))

/-! ## The invariant -/

/-- The endpoint has found a fragment and not yet released its slot. -/
def RPc.unreleased : RPc → Bool
  | .read _ _ => true
  | .relLoad _ => true
  | .relCas _ _ => true
  | _ => false

/-- What the sender has found out about the late receivers. -/
def SPc.Knows (late : Nat → Prop) : SPc → Prop
  | .live _ _ _ _ _ todo acc => ∀ b < 32, late b → todo.getLsbD b = true ∨ acc.getLsbD b = true
  | .cas _ _ _ _ _ => ∀ b < 32, ¬late b
  | .write _ _ _ => ∀ b < 32, ¬late b
  | .bump _ => ∀ b < 32, ¬late b
  | _ => True

/-- What every orderly step preserves. -/
structure Tried (w₀ : Nat) (s : Sys ι) : Prop where
  base : Base w₀ s.route
  calm : s.trying = true → s.route.sender.calm = true
  knows : s.route.sender.Knows fun b => ∃ i, Late s i b
  behind : ∀ b < 32, ∀ i, s.tenant b = some i → (s.route.recvs i).attached = true →
    (s.route.recvs i).pc.unreleased = true → (s.route.recvs i).lag s.route.ring ≠ 0

theorem SPc.Knows.mono {late late' : Nat → Prop} {pc : SPc} (h : pc.Knows late) (hl : ∀ b < 32, late' b → late b) :
    pc.Knows late' := by
  cases pc <;> first | trivial | skip
  case live => exact fun b hb hlate => h b hb (hl b hb hlate)
  all_goals exact fun b hb hlate => h b hb (hl b hb hlate)

/-! ### The sender's steps -/

section Sender

variable {g g' : Ring} {pc pc' : SPc} {out : List MsgT}

/-- Outside the timeout path the sender leaves the connection bits and the epoch alone, and stays outside. -/
theorem SPc.step_calm (hc : pc.calm = true) (h : pc.step g = some (g', pc', out)) :
    pc'.calm = true ∧ g'.connections = g.connections ∧ g'.epoch = g.epoch := by
  cases pc <;> try cases hc
  all_goals
    simp only [SPc.step] at h
    repeat' split at h
  all_goals cases h <;> exact ⟨rfl, rfl, rfl⟩

theorem SPc.step_wt (h : pc.step g = some (g', pc', out)) : g'.writeCursor = g.writeCursor ∨
    ∃ f, pc = .bump f ∧ pc' = .idle ∧ g'.writeCursor = g.writeCursor + 1 := by
  cases pc
  case bump f =>
    cases h
    exact Or.inr ⟨f, rfl, rfl, rfl⟩
  all_goals
    simp only [SPc.step] at h
    repeat' split at h
  all_goals cases h <;> exact Or.inl rfl

theorem SPc.step_data (h : pc.step g = some (g', pc', out)) (k : BitVec 8) :
    (g'.slots k).data = (g.slots k).data ∨ ∃ f wt j, pc = .write f wt j ∧ k = wt.setWidth 8 := by
  have hrc : ∀ (c : BitVec 32) (rc : BitVec 64), ((g.setRc c rc).slots k).data = (g.slots k).data := by
    intro c rc
    simp only [Ring.setRc, update_apply]
    split
    · rename_i hk
      rw [hk]
      rfl
    · rfl
  cases pc
  case write f wt j =>
    by_cases hk : k = wt.setWidth 8
    · exact Or.inr ⟨f, wt, j, rfl, hk⟩
    · cases h
      left
      simp only [Ring.setData, update_of_ne hk]
  all_goals
    simp only [SPc.step] at h
    repeat' split at h
  all_goals cases h <;> first | exact Or.inl rfl | exact Or.inl (hrc _ _)

theorem SPc.Knows.step {late : Nat → Prop} (hk : pc.Knows late)
    (hload : ∀ f cc ep wt, pc = .loadRc f cc ep wt → ∀ b < 32, late b → cc.getLsbD b = true ∧
      (g.slot wt).rc.getLsbD b = true ∧ (g.slot wt).rc &&& ~~~epMask = ep)
    (hlive : ∀ f cc ep wt rc todo acc, pc = .live f cc ep wt rc todo acc → ∀ b < 32, late b →
      isLive (g.owners b).since (wt - ringLap) = true)
    (h : pc.step g = some (g', pc', out)) : pc'.Knows late := by
  cases pc
  case loadRc f cc ep wt =>
    have hin := hload f cc ep wt rfl
    simp only [SPc.step] at h
    split at h <;> cases h
    · intro b hb hl
      obtain ⟨hcc, hrc, -⟩ := hin b hb hl
      left
      rw [getLsbD_counted _ _ hb, hcc, hrc]
      rfl
    · rename_i hne
      intro b hb hl
      obtain ⟨hcc, hrc, hep⟩ := hin b hb hl
      refine hne ⟨fun hz => ?_, hep⟩
      have hcnt := getLsbD_counted cc (g.slot wt).rc hb
      rw [hz, hcc, hrc] at hcnt
      simp at hcnt
  case live f cc ep wt rc todo acc =>
    have hin := hlive f cc ep wt rc todo acc rfl
    simp only [SPc.step] at h
    split at h
    · rename_i hz
      split at h <;> cases h
      · trivial
      · rename_i hacc
        intro b hb hl
        rcases hk b hb hl with hc | hc
        · rw [hz] at hc
          simp at hc
        · rw [not_not.mp hacc] at hc
          simp at hc
    · rename_i hz
      cases h
      intro b hb hl
      obtain ⟨l, -, -, -, h1, h2⟩ := liveStep_spec g.owners (wt - ringLap) todo acc hz
      rw [h1, h2]
      by_cases hbl : b = l
      · subst hbl
        right
        simp [hin b hb hl]
      · rcases hk b hb hl with hc | hc <;> simp [hc, hbl]
  case cas f cc ep wt rc =>
    simp only [SPc.step] at h
    split at h <;> cases h
    · exact hk
    · trivial
  case write f wt j =>
    cases h
    show SPc.Knows late (if _ then _ else _)
    split <;> exact hk
  all_goals
    simp only [SPc.step] at h
    repeat' split at h
  all_goals cases h <;> trivial

end Sender

section Steps

variable {w₀ : Nat} {s : Sys ι}

omit [DecidableEq ι] in
theorem tenants_eq {s t : State ι} {a : Act ι} {h : Nat → Option ι} {b : Nat} {i : ι} (he : tenants s t a h b = some i) :
    h b = some i ∨ s.ring.connections.getLsbD b = false ∧ t.ring.connections.getLsbD b = true ∧ a.actor = some i := by
  unfold tenants at he
  split at he
  · rename_i ht
    split at he
    · exact Or.inl he
    · rename_i hs
      exact Or.inr ⟨by simpa using hs, ht, he⟩
  · cases he

omit [DecidableEq ι] in
theorem tenants_sender {s t : State ι} {a : SAct} {h : Nat → Option ι} {b : Nat} {i : ι}
    (he : tenants s t (.sender a) h b = some i) : h b = some i := by
  rcases tenants_eq he with h | ⟨-, -, h⟩
  · exact h
  · cases h

theorem Tried.sender {a : SAct} {t : State ι} (h : Tried w₀ s) (hok : orderly s (.ring (.sender a)))
    (hpush : (Act.sender a : Act ι).isPush = false) (hst : s.route.step (.sender a) = some t) :
    Tried w₀ { s with route := t, tenant := tenants s.route t (.sender a) s.tenant } := by
  obtain ⟨hstay, hmarks, -⟩ := hok
  have hbase := h.base.step hst
  obtain ⟨⟨g, pc, out⟩, hp, rfl⟩ := Option.map_eq_some_iff.mp hst
  rcases SPc.act_cases hp with ⟨rfl, hp⟩ | ⟨rfl, rfl, hmv⟩
  · refine ⟨hbase, fun htry => (SPc.step_calm (h.calm htry) hp).1, ?_, fun b hb i ht ha hr => ?_⟩
    · rcases SPc.step_wt hp with hw | ⟨f, -, hidle, -⟩
      · refine (h.knows.step (g := s.route.ring) (fun f cc ep wt hpc b hb => ?_)
          (fun f cc ep wt rc todo acc hpc b hb => ?_) hp).mono fun b hb => ?_
        · rintro ⟨i, hl⟩
          simp only [marksInPlace, hpc] at hmarks
          exact hmarks b hb i hl
        · rintro ⟨i, hl⟩
          simp only [marksInPlace, hpc] at hmarks
          exact hmarks b hb i hl
        · rintro ⟨i, ht, ha, hlag⟩
          refine ⟨i, tenants_sender ht, ha, ?_⟩
          simp only [Receiver.lag, hw] at hlag ⊢
          exact hlag
      · simp only [hidle]
        trivial
    · have hlag := h.behind b hb i (tenants_sender ht) ha hr
      rcases SPc.step_wt hp with hw | ⟨f, hpc, -, hw⟩
      · simp only [Receiver.lag, hw] at hlag ⊢
        exact hlag
      · -- the cursor moves past a slot nobody is late on, so no distance wraps
        have hnot : ¬256 ≤ (s.route.recvs i).lag s.route.ring := by
          intro hle
          have hk := h.knows
          rw [hpc] at hk
          exact hk b hb ⟨i, tenants_sender ht, ha, hle⟩
        simp only [Receiver.lag, hw] at hlag hnot ⊢
        bv_omega
  · have hknows : pc.Knows fun b => ∃ i, Late { s with
        route := { s.route with sender := pc, pushed := s.route.pushed ++ [] }
        tenant := tenants s.route { s.route with sender := pc, pushed := s.route.pushed ++ [] }
          (.sender a) s.tenant } i b := by
      rcases hmv with ⟨f, -, -, rfl⟩ | ⟨f, cc, ep, wt, rc, -, -, rfl⟩ | ⟨f, cc, wt, -, -, rfl⟩ <;> trivial
    refine ⟨hbase, fun htry => ?_, hknows, fun b hb i ht ha hr => h.behind b hb i (tenants_sender ht) ha hr⟩
    rcases hmv with ⟨f, rfl, -, -⟩ | ⟨f, cc, ep, wt, rc, -, -, rfl⟩ | ⟨f, cc, wt, rfl, -, -⟩
    · cases hpush
    · rfl
    · have htry' : s.trying = true := htry
      simp only [staysPut, htry'] at hstay
      cases hstay

/-! ### The receivers' steps -/

/-- An endpoint that is connected after its step has set no bit by it. -/
theorem Receiver.act_bits {g g' : Ring} {r r' : Receiver} {a : RAct} (h : r.act g a = some (g', r'))
    (hc : r'.pc.connected = true) {b : Nat} (hb : g'.connections.getLsbD b = true) : g.connections.getLsbD b = true := by
  obtain ⟨-, h⟩ | ⟨-, h⟩ | ⟨rfl, -⟩ := Receiver.act_cases h
  · obtain ⟨connId, cur, pc, disc, pid, tok, got⟩ := r
    cases pc
    all_goals
      simp only [Receiver.step] at h
      repeat' split at h
    all_goals cases h <;> first | exact hb | cases hc
  · unfold Receiver.disconnect at h
    split at h
    · split at h <;> cases h
      · exact hb
      · cases hc
    · cases h
  · exact hb

/-- What a step leaves of an endpoint that is connected after it: it was connected and is no further behind, or its
connect completes. -/
structure Proceeds (g g' : Ring) (r r' : Receiver) (a : RAct) : Prop where
  lag : r.attached = true ∧ r'.lag g' ≤ r.lag g ∨ a = .go ∧ r.pc = .ownerPid ∧ r'.lag g' = r.lag g
  reading : r'.pc.unreleased = true → r'.lag g' ≠ 0

theorem Receiver.step_proceeds {g g' : Ring} {r r' : Receiver} (h : r.step g = some (g', r')) (ha : r'.attached = true)
    (hb : r.attached = true → r.pc.unreleased = true → r.lag g ≠ 0) : Proceeds g g' r r' .go := by
  obtain ⟨connId, cur, pc, disc, pid, tok, got⟩ := r
  cases pc
  case ownerPid =>
    cases h
    exact ⟨Or.inr ⟨rfl, rfl, rfl⟩, (fun h => by cases h)⟩
  case read k m =>
    simp only [Receiver.step] at h
    split at h <;> cases h <;> exact ⟨Or.inl ⟨ha, le_refl _⟩, fun _ => hb ha rfl⟩
  case relLoad m =>
    simp only [Receiver.step] at h
    split at h <;> cases h
    · have hl := hb ha rfl
      refine ⟨Or.inl ⟨ha, ?_⟩, (fun h => by cases h)⟩
      simp only [Receiver.lag, RPc.past] at hl ⊢
      bv_omega
    · exact ⟨Or.inl ⟨ha, le_refl _⟩, fun _ => hb ha rfl⟩
  case relCas m rc =>
    simp only [Receiver.step] at h
    split at h <;> cases h
    · have hl := hb ha rfl
      refine ⟨Or.inl ⟨ha, ?_⟩, (fun h => by cases h)⟩
      simp only [Receiver.lag, RPc.past, Ring.setRc] at hl ⊢
      bv_omega
    · exact ⟨Or.inl ⟨ha, le_refl _⟩, fun _ => hb ha rfl⟩
  case bump m =>
    cases h
    refine ⟨Or.inl ⟨ha, ?_⟩, (fun h => by cases h)⟩
    simp only [Receiver.lag, RPc.past]
    bv_omega
  case clearTok =>
    cases h
    simp [Receiver.attached] at ha
  all_goals
    simp only [Receiver.step] at h
    repeat' split at h
  all_goals cases h <;> simp [Receiver.attached, RPc.connected] at ha

theorem Receiver.act_proceeds {g g' : Ring} {r r' : Receiver} {a : RAct} (h : r.act g a = some (g', r'))
    (ha : r'.attached = true) (hb : r.attached = true → r.pc.unreleased = true → r.lag g ≠ 0) :
    Proceeds g g' r r' a := by
  obtain ⟨rfl, hr⟩ | ⟨rfl, hr⟩ | ⟨rfl, ⟨pid, tok, rfl, hr⟩ | ⟨rfl, hr⟩ | ⟨rfl, hr⟩⟩ := Receiver.act_cases h
  · exact Receiver.step_proceeds hr ha hb
  · unfold Receiver.disconnect at hr
    split at hr
    · split at hr <;> cases hr
      · exact ⟨Or.inl ⟨ha, le_refl _⟩, fun hr => hb ha hr⟩
      · simp [Receiver.attached, RPc.connected] at ha
    · cases hr
  · unfold Receiver.open at hr
    split at hr <;> cases hr
    simp [Receiver.attached, RPc.connected] at ha
  · unfold Receiver.recv at hr
    split at hr <;> cases hr
    rename_i hpc
    by_cases he : g'.writeCursor = r.readCursor
    · simp only [if_pos he] at ha ⊢
      exact ⟨Or.inl ⟨ha, le_refl _⟩, fun hr => hb ha hr⟩
    · simp only [if_neg he] at ha ⊢
      have hat : r.attached = true := by
        simp only [Receiver.attached, hpc] at ha ⊢
        exact ha
      refine ⟨Or.inl ⟨hat, ?_⟩, fun _ => ?_⟩
      · simp only [Receiver.lag, hpc, RPc.past]
        exact le_refl _
      · simp only [Receiver.lag, RPc.past]
        bv_omega
  · unfold Receiver.fail at hr
    split at hr <;> cases hr
    · simp [Receiver.attached, RPc.connected] at ha
    · rename_i m rc hpc
      have hat : r.attached = true := by
        simp only [Receiver.attached, hpc] at ha ⊢
        exact ha
      have hlag : ({ r with pc := .relLoad m } : Receiver).lag g' = r.lag g' := by
        simp only [Receiver.lag, hpc, RPc.past]
      exact ⟨Or.inl ⟨hat, hlag.le⟩, fun _ => hlag ▸ hb hat (by rw [hpc]; rfl)⟩

theorem Tried.recv {i : ι} {a : RAct} {t : State ι} (h : Tried w₀ s) (hok : orderly s (.ring (.recv i a)))
    (hst : s.route.step (.recv i a) = some t) :
    Tried w₀ { s with route := t, tenant := tenants s.route t (.recv i a) s.tenant } := by
  obtain ⟨-, -, hfree⟩ := hok
  have hbase := h.base.step hst
  obtain ⟨⟨g, r⟩, hr, rfl⟩ := Option.map_eq_some_iff.mp hst
  have hwt : g.writeCursor = s.route.ring.writeCursor := (Receiver.act_quiet hr).wt
  -- whoever is connected and holds a bit held it before
  have hten : ∀ b j, tenants s.route { s.route with ring := g, recvs := update s.route.recvs i r } (.recv i a)
      s.tenant b = some j → (update s.route.recvs i r j).attached = true → s.tenant b = some j := by
    intro b j ht hj
    rcases tenants_eq ht with he | ⟨hs, hg, he⟩
    · exact he
    · cases he
      rw [update_self, Receiver.attached, Bool.and_eq_true] at hj
      rw [Receiver.act_bits hr hj.1 hg] at hs
      cases hs
  refine ⟨hbase, h.calm, ?_, fun b hb j ht ha hread => ?_⟩
  · by_cases htake : s.route.sender.taking = true
    · refine h.knows.mono fun b hb => ?_
      rintro ⟨j, ht, ha, hlag⟩
      have ht' := hten b j ht ha
      simp only at ha hlag
      by_cases hj : j = i
      · subst hj
        rw [update_self] at ha hlag
        rcases (Receiver.act_proceeds hr ha (h.behind b hb j ht')).lag with ⟨hat, hle⟩ | ⟨rfl, hpc, he⟩
        · exact ⟨j, ht', hat, hlag.trans hle⟩
        · rw [he] at hlag
          simp only [adoptsFree, hpc, htake, beq_self_eq_true, Bool.and_self, Bool.not_true, Bool.false_or,
            decide_eq_true_eq] at hfree
          omega
      · rw [update_of_ne hj] at ha hlag
        refine ⟨j, ht', ha, ?_⟩
        simpa only [Receiver.lag, hwt] using hlag
    · cases hpc : s.route.sender <;> simp only [hpc] at htake ⊢ <;> trivial
  · have ht' := hten b j ht ha
    simp only at ha hread ⊢
    by_cases hj : j = i
    · subst hj
      rw [update_self] at ha hread ⊢
      exact (Receiver.act_proceeds hr ha (h.behind b hb j ht')).reading hread
    · rw [update_of_ne hj] at ha hread ⊢
      simpa only [Receiver.lag, hwt] using h.behind b hb j ht' ha hread

theorem Sys.step_call {a : SysAct ι} {t : Sys ι} (ha : ∀ b, a ≠ .ring b) (hst : s.step a = some t) :
    s.route.sender = .idle ∧ ∃ pc c r, (pc = .idle ∨ ∃ f, pc = .loadCc f) ∧
      t = { s with route.sender := pc, call := c, result := r } := by
  obtain ⟨⟨g, pc, recvs, log⟩, call, result, tenant⟩ := s
  cases a with
  | send m trying =>
    simp only [Sys.step] at hst
    split at hst
    · cases hst
      exact ⟨rfl, .idle, _, _, Or.inl rfl, rfl⟩
    · split at hst <;> cases hst
      · exact ⟨rfl, .idle, _, _, Or.inl rfl, rfl⟩
      · exact ⟨rfl, _, _, _, Or.inr ⟨_, rfl⟩, rfl⟩
    · cases hst
  | next =>
    simp only [Sys.step] at hst
    split at hst
    · split at hst
      · cases hst
        exact ⟨rfl, .idle, _, _, Or.inl rfl, rfl⟩
      · split at hst <;> cases hst
        · exact ⟨rfl, .idle, _, _, Or.inl rfl, rfl⟩
        · exact ⟨rfl, _, _, _, Or.inr ⟨_, rfl⟩, rfl⟩
    · cases hst
  | ring b => exact absurd rfl (ha b)

omit [DecidableEq ι] in
theorem Tried.call {c : Option Call} {r : Option Bool} {pc : SPc} (h : Tried w₀ s) (hidle : s.route.sender = .idle)
    (hpc : pc = .idle ∨ ∃ f, pc = .loadCc f) :
    Tried w₀ { s with route.sender := pc, call := c, result := r } := by
  refine ⟨h.base.move (by rw [hidle]; rfl) ?_ ?_, fun _ => ?_, ?_, h.behind⟩ <;> rcases hpc with rfl | ⟨f, rfl⟩ <;>
    first | rfl | trivial

theorem Tried.step {a : SysAct ι} {t : Sys ι} (h : Tried w₀ s) (hok : orderly s a) (hst : s.step a = some t) :
    Tried w₀ t := by
  by_cases ha : ∀ b, a ≠ .ring b
  · obtain ⟨hidle, pc, c, r, hpc, rfl⟩ := Sys.step_call ha hst
    exact h.call hidle hpc
  · obtain ⟨b, rfl⟩ := not_forall_not.1 ha
    simp only [Sys.step] at hst
    split at hst
    · cases hst
    · rename_i hpush
      obtain ⟨r, hr, rfl⟩ := Option.map_eq_some_iff.mp hst
      cases b with
      | sender a => exact h.sender hok (by simpa using hpush) hr
      | recv i a => exact h.recv hok hr

end Steps

/-! ## The main result -/

/-- A ring at rest, no call under way, and every receiver that holds a bit between its calls. -/
structure Opened (w₀ : Nat) (s : Sys ι) : Prop where
  rest : AtRest w₀ s.route
  call : s.call = none
  ready : ∀ b i, s.tenant b = some i → (s.route.recvs i).pc = .ready

omit [DecidableEq ι] in
theorem Opened.tried {w₀ : Nat} {s : Sys ι} (h : Opened w₀ s) : Tried w₀ s := by
  refine ⟨h.rest.base, fun ht => ?_, ?_, fun b _ i ht _ hr => ?_⟩
  · simp [Sys.trying, h.call] at ht
  · rw [h.rest.idle]
    trivial
  · rw [h.ready b i ht] at hr
    cases hr

/-- A message of one byte, and its one fragment. -/
def note : Sent := ⟨2, 0, [9]⟩

def noteFragment : MsgT := ⟨2, 0, -63, false, [9]⟩

theorem fragments_note : note.fragments = [noteFragment] := by decide

/-- A fresh route with one receiver, which holds bit 0. -/
def lone : Sys Unit := ⟨fresh 1 fun _ => reader 0, none, none, fun b => if b = 0 then some () else none⟩

theorem opened_lone : Opened 0 lone := by
  refine ⟨atRest_fresh 1 _, rfl, fun b i _ => rfl⟩

theorem run_ring {C : State ι → Act ι → Prop} {s t : State ι} {l : List (Act ι)} (h : Run State.step C s l t)
    (hpush : ∀ a ∈ l, a.isPush = false) (S : Sys ι) (hS : S.route = s) :
    ∃ T, Run Sys.step (fun _ _ => True) S (l.map .ring) T ∧ T.route = t ∧ T.call = S.call := by
  induction h with
  | nil => exact ⟨S, .nil, hS, rfl⟩
  | @snoc as u a v _ hok hst ih =>
    obtain ⟨T, hrun, rfl, hcall⟩ := ih fun b hb => hpush b (List.mem_append_left _ hb)
    refine ⟨{ T with route := v, tenant := tenants T.route v a T.tenant }, ?_, rfl, hcall⟩
    rw [List.map_append]
    refine .snoc hrun trivial ?_
    simp only [Sys.step, hpush a (by simp), hst, Option.map_some]
    rfl

theorem run_send {S : Sys ι} (hcall : S.call = none) (hidle : S.route.sender = .idle) (hc : S.route.ring.connections ≠ 0)
    (hf : S.route.ring.free) : ∃ T, Run Sys.step (fun _ _ => True) S
      (.send note false :: (List.replicate 11 (.sender .go)).map .ring ++ [.next]) T ∧ T.call = none ∧
      T.route = { S.route with
        ring := S.route.ring.published noteFragment
        pushed := S.route.pushed ++ [noteFragment] } := by
  obtain ⟨⟨g, pc, v, l⟩, call, result, tenant⟩ := S
  simp only at hcall hidle hc hf ⊢
  subst hcall hidle
  obtain ⟨T, hrun, hT, hTc⟩ := run_ring
    (run_claim (C := fun _ _ => True) (f := noteFragment) (v := v) (l := l) hc hf fun _ _ _ => trivial)
    (fun a ha => by rw [List.eq_of_mem_replicate ha]; rfl)
    ⟨⟨g, .loadCc noteFragment, v, l⟩, some ⟨[], false, l.length⟩, result, tenant⟩ rfl
  refine ⟨{ T with call := none, result := some true }, Run.head trivial ?_ (hrun.trans (Run.one trivial ?_)), rfl, hT⟩
  · simp only [Sys.step, fragments_note, if_neg hc]
  · simp [Sys.step, hT, hTc]

theorem run_sends : ∀ n ≤ 256, ∃ acts S, Run Sys.step (fun _ _ => True) lone acts S ∧ S.call = none ∧
    Filled lone.route noteFragment n S.route := by
  intro n
  induction n with
  | zero => exact fun _ => ⟨[], lone, .nil, rfl, filled_zero 1 _ noteFragment⟩
  | succ n ih =>
    intro hn
    obtain ⟨acts, S, hrun, hcall, hfill⟩ := ih (by omega)
    obtain ⟨hfree, hnext⟩ := hfill.push (by omega)
    obtain ⟨T, hsend, hTc, hT⟩ := run_send hcall hfill.idle (by rw [hfill.connections]; decide) hfree
    exact ⟨_, T, hrun.trans hsend, hTc, by rw [hT]; exact hnext⟩

/-- What a `try_send` does that meets a receiver a lap behind. -/
def giveUp : List (Act ι) :=
  List.replicate 6 (.sender .go) ++ .sender .timeout :: List.replicate 5 (.sender .go)

end ThothIpc.Route
