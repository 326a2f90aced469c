import ThothIpc.Endpoint.Model
import ThothIpc.Route.Trace

/-!
# A disconnected endpoint

`disconnect` marks the endpoint, and `disconnect` and `drop` do nothing on a marked one. `send` and `recv` do not look
at the mark: a `send` claims the sole-sender record again, or pushes, and a `recv` goes on reading.

* `Footprint` : the steps of a ring by which a push claims a slot, or a receive takes something off one;
* `untouched` : no disconnected endpoint takes such a step, or claims the record;
* `Inv` : what every such step preserves: where a disconnected endpoint may stand, and who will free the record;
* `disconnected_inert` : no step on a disconnected endpoint changes the shared memory.
-/

namespace ThothIpc.Endpoint
open Function Steps Sole Message

/-! ## What a ring's steps touch -/

/-- Which steps of a ring take something: a push that claims a slot, a receive that takes a fragment or a mark. -/
structure Footprint (K : RingModel) where
  wins : K.Ring → K.Place → K.WAct → Bool
  takes : K.Ring → K.Recv → K.RAct → Bool

/-- A push on a route is never begun by a disconnected endpoint. A receive takes its mark off the slot. -/
def routeFootprint : Footprint routeModel where
  wins _ _ _ := true
  takes (g : Route.Ring) (r : Route.Receiver) (a : Route.RAct) :=
    match a, r.pc with
    | .go, .relCas _ rc => (g.slot r.readCursor).rc == rc && rc &&& r.connId.setWidth 64 != 0
    | _, _ => false

/-- A push on a channel claims by its exchange. A receive that finds a fragment goes on to free its slot. -/
def channelFootprint : Footprint channelModel where
  wins (g : Channel.Ring × List (BitVec 32 × MsgT)) (w : Channel.WPc) (a : Channel.WAct) :=
    match a, w with
    | .go, .cas x _ => (g.1.slot x.ct).rc == x.rc
    | _, _ => false
  takes (g : Channel.Ring × List (BitVec 32 × MsgT)) (r : Channel.Receiver) (a : Channel.RAct) :=
    match a with
    | .recv => (g.1.slot r.readCursor).fCt == Channel.atPos r.readCursor
    | _ => false

def footprint : (k : Kind) → Footprint (model k)
  | .route => routeFootprint
  | .channel => channelFootprint

variable {K : RingModel} {π ε ι : Type} {W : World π}

/-- A disconnected endpoint's claim of the record does not succeed, its push claims no slot, and its receive takes
nothing. -/
def untouched (F : Footprint K) (s : State K W ε ι) : Act K π ε ι → Prop
  | .sender e .go => (s.senders e).disconnected = true →
    match (s.senders e).pc with
    | .ask _ (.cas cur _) => s.sole.pid ≠ cur
    | _ => True
  | .sender e (.writer a) => (s.senders e).disconnected = true →
    match (s.senders e).pc with
    | .push w _ => F.wins s.ring w a = false
    | _ => True
  | .recv i a => K.disconnected (s.recvs i) = true → F.takes s.ring (s.recvs i) a = false
  | _ => True

def Act.onDisconnected (s : State K W ε ι) : Act K π ε ι → Bool
  | .sender e _ => (s.senders e).disconnected
  | .recv i _ => K.disconnected (s.recvs i)
  | .refused i => K.disconnected (s.recvs i)
  | _ => false

/-! ## Steps that take nothing -/

/-- Where a push that has claimed nothing may stand, and a disconnected receiver; such steps leave the ring as it is. -/
structure Mild (F : Footprint K) where
  place : K.Place → Prop
  calm : K.Recv → Prop
  start : K.multi = true → ∀ f, place (K.start f)
  push : ∀ {g g' w a next}, place w → F.wins g w a = false → K.push g w a = some (g', next) →
    g' = g ∧ ∀ w', next = .inl w' → place w'
  recv : ∀ {g g' r r' a}, (K.disconnected r = true → calm r) →
    (K.disconnected r = true → F.takes g r a = false) → K.recv g r a = some (g', r') →
    (K.disconnected r' = true → calm r') ∧ (K.disconnected r = true → g' = g)

/-- Where a disconnected receiver of a route may stand. -/
def routeCalm (r : Route.Receiver) : Prop :=
  match r.pc with
  | .closed => True
  | .ready => True
  | .read _ _ => True
  | .relLoad _ => True
  | .relCas _ _ => True
  | .bump _ => True
  | _ => False

theorem setRc_same (g : Route.Ring) (c : BitVec 32) : g.setRc c (g.slot c).rc = g := by
  have h : update g.slots (c.setWidth 8) { g.slot c with rc := (g.slot c).rc } = g.slots :=
    update_eq_self_iff.2 rfl
  rw [Route.Ring.setRc, h]

theorem route_recv_calm {g g' : Route.Ring} {r r' : Route.Receiver} {a : Route.RAct}
    (hr : r.disconnected = true → routeCalm r)
    (ht : r.disconnected = true → routeFootprint.takes g r a = false) (h : r.act g a = some (g', r')) :
    (r'.disconnected = true → routeCalm r') ∧ (r.disconnected = true → g' = g) := by
  obtain ⟨connId, cur, pc, disc, pid, tok, got⟩ := r
  obtain ⟨rfl, hs⟩ | ⟨rfl, hs⟩ | ⟨rfl, ⟨pid, tok, rfl, hs⟩ | ⟨rfl, hs⟩ | ⟨rfl, hs⟩⟩ := Route.Receiver.act_cases h
  · cases pc
    case relCas m rc =>
      simp only [Route.Receiver.step] at hs
      split at hs <;> cases hs
      · rename_i hrc
        refine ⟨fun _ => trivial, fun hd => ?_⟩
        -- the exchange writes what was there: the slot has no mark of the endpoint
        have hno : rc &&& connId.setWidth 64 = 0 := by
          simpa [routeFootprint, hrc] using ht hd
        have hsame : rc &&& ~~~(connId.setWidth 64) = rc := by
          refine BitVec.eq_of_getLsbD_eq fun j hj => ?_
          have hbit : (rc.getLsbD j && (connId.setWidth 64).getLsbD j) = false := by
            rw [← BitVec.getLsbD_and, hno]
            exact BitVec.getLsbD_zero
          rw [Bool.and_eq_false_iff] at hbit
          simp only [BitVec.getLsbD_and, BitVec.getLsbD_not, hj, decide_true, Bool.true_and]
          rcases hbit with hb | hb <;> simp only [hb, Bool.false_and, Bool.not_false, Bool.and_true]
        rw [hsame, ← hrc]
        exact setRc_same g cur
      · exact ⟨fun _ => trivial, fun _ => rfl⟩
    case read k m =>
      simp only [Route.Receiver.step] at hs
      split at hs <;> cases hs <;> exact ⟨fun _ => trivial, fun _ => rfl⟩
    case relLoad m =>
      simp only [Route.Receiver.step] at hs
      split at hs <;> cases hs <;> exact ⟨fun _ => trivial, fun _ => rfl⟩
    case bump m =>
      cases hs
      exact ⟨fun _ => trivial, fun _ => rfl⟩
    case clearTok =>
      cases hs
      exact ⟨fun _ => trivial, fun hd => absurd (hr hd) not_false⟩
    all_goals
      simp only [Route.Receiver.step] at hs
      repeat' split at hs
    all_goals cases hs <;> exact ⟨fun hd => absurd (hr hd) not_false, fun hd => absurd (hr hd) not_false⟩
  · unfold Route.Receiver.disconnect at hs
    split at hs
    · split at hs <;> cases hs
      · exact ⟨hr, fun _ => rfl⟩
      · rename_i hd
        exact ⟨fun h => absurd h hd, fun h => absurd h hd⟩
    · cases hs
  · unfold Route.Receiver.open at hs
    split at hs <;> cases hs
    exact ⟨(by simp), fun _ => rfl⟩
  · unfold Route.Receiver.recv at hs
    split at hs <;> cases hs
    refine ⟨fun hd => ?_, fun _ => rfl⟩
    split at hd
    · rename_i hw
      rw [if_pos hw]
      exact hr hd
    · rename_i hw
      rw [if_neg hw]
      trivial
  · unfold Route.Receiver.fail at hs
    split at hs <;> cases hs
    · rename_i hpc
      simp only at hpc
      subst hpc
      exact ⟨fun hd => absurd (hr hd) not_false, fun _ => rfl⟩
    · exact ⟨fun _ => trivial, fun _ => rfl⟩

def routeMild : Mild routeFootprint where
  place _ := False
  calm := routeCalm
  start h := by cases h
  push h := h.elim
  recv := route_recv_calm

/-- Where a push on a channel that has claimed nothing may stand. -/
def channelPlace : Channel.WPc → Prop
  | .loadEpoch k _ => k = .rust
  | .loadCc k _ _ => k = .rust
  | .loadCt k _ _ _ => k = .rust
  | .loadRc k _ _ _ _ _ => k = .rust
  | .loadFl a => a.call = .rust
  | .busy k _ _ => k = .rust
  | .cas a _ => a.call = .rust
  | _ => False

/-- Where a disconnected receiver of a channel may stand. -/
def channelCalm (r : Channel.Receiver) : Prop := r.pc = .closed ∨ r.pc = .ready

theorem channel_push_mild {g g' : Channel.Ring} {n : Nat} {w w' : Channel.WPc} {a : Channel.WAct}
    {out : List (BitVec 32 × MsgT)} {l : List (BitVec 32 × MsgT)} (hw : channelPlace w)
    (hwin : channelFootprint.wins (g, l) w a = false) (h : w.act g n a = some (g', w', out)) :
    g' = g ∧ out = [] ∧ (w' = .idle ∨ channelPlace w') := by
  cases a with
  | call k f => cases w <;> first | cases h | exact hw.elim
  | giveUp =>
    cases w <;> try cases h
    cases hw
    cases h
    exact ⟨rfl, rfl, Or.inl rfl⟩
  | fail =>
    cases w <;> try exact hw.elim
    case cas x c =>
      cases h
      exact ⟨rfl, rfl, Or.inr hw⟩
    all_goals cases h
  | go =>
    cases w <;> try exact hw.elim
    case cas x c =>
      have hne : (g.slot x.ct).rc ≠ x.rc := by simpa [channelFootprint] using hwin
      simp only [Channel.WPc.act, Channel.WPc.step, if_neg hne] at h
      cases h
      exact ⟨rfl, rfl, Or.inr hw⟩
    case loadRc k f ep cc ct seen =>
      cases hw
      cases h
      refine ⟨rfl, rfl, Or.inr ?_⟩
      simp only [Channel.WPc.tested]
      split
      · rfl
      · split <;> rfl
    case busy k f ep =>
      cases hw
      cases h
      exact ⟨rfl, rfl, Or.inr rfl⟩
    case loadCc k f ep =>
      cases hw
      simp only [Channel.WPc.act, Channel.WPc.step] at h
      split at h <;> cases h
      · exact ⟨rfl, rfl, Or.inl rfl⟩
      · exact ⟨rfl, rfl, Or.inr rfl⟩
    case loadFl x =>
      cases h
      refine ⟨rfl, rfl, Or.inr ?_⟩
      split <;> exact hw
    all_goals
      cases hw
      cases h
      exact ⟨rfl, rfl, Or.inr rfl⟩

theorem channel_recv_calm {g g' : Channel.Ring} {l : List (BitVec 32 × MsgT)} {r r' : Channel.Receiver} {a : Channel.RAct}
    (hr : r.disconnected = true → channelCalm r)
    (ht : r.disconnected = true → channelFootprint.takes (g, l) r a = false) (h : r.act g a = some (g', r')) :
    (r'.disconnected = true → channelCalm r') ∧ (r.disconnected = true → g' = g) := by
  obtain ⟨connId, cur, pc, disc, pid, tok, got⟩ := r
  have hnot : ∀ {q : Channel.RPc}, pc = q → q ≠ .closed → q ≠ .ready → disc ≠ true := by
    rintro q rfl h1 h2 hd
    exact (hr hd).elim h1 h2
  cases a with
  | opens p t =>
    cases pc <;> cases h
    exact ⟨nofun, fun _ => rfl⟩
  | recv =>
    cases pc <;> cases h
    have hempty : disc = true → ¬(g.slot cur).fCt = Channel.atPos cur := fun hd => by
      simpa [channelFootprint] using ht hd
    refine ⟨fun hd => ?_, fun _ => rfl⟩
    split at hd
    · rename_i hfl
      exact absurd hfl (hempty hd)
    · rename_i hfl
      rw [if_neg hfl]
      exact Or.inr rfl
  | go =>
    cases pc
    case clearTok =>
      cases h
      exact ⟨fun _ => Or.inr rfl, fun hd => absurd hd (hnot rfl nofun nofun)⟩
    all_goals
      simp only [Channel.Receiver.act, Channel.Receiver.step] at h
      repeat' split at h
    all_goals cases h <;> exact ⟨fun hd => absurd hd (hnot rfl nofun nofun), fun hd => absurd hd (hnot rfl nofun nofun)⟩
  | fail =>
    simp only [Channel.Receiver.act, Channel.Receiver.fail] at h
    split at h <;> cases h <;> exact ⟨fun hd => absurd hd (hnot rfl nofun nofun), fun _ => rfl⟩
  | disconnect =>
    cases pc <;> try cases h
    simp only [Channel.Receiver.act, Channel.Receiver.disconnect] at h
    split at h <;> cases h
    · exact ⟨hr, fun _ => rfl⟩
    · rename_i hd
      exact ⟨fun h => absurd h hd, fun h => absurd h hd⟩

def channelMild : Mild channelFootprint where
  place := channelPlace
  calm := channelCalm
  start _ _ := rfl
  push := by
    rintro ⟨g, l⟩ g' w a next hw hwin h
    obtain ⟨⟨g₁, w', out⟩, hp, he⟩ := Option.map_eq_some_iff.mp h
    obtain ⟨rfl, rfl, hnext⟩ := channel_push_mild hw hwin hp
    cases he
    refine ⟨Prod.ext rfl (List.append_nil l), fun w'' hw'' => ?_⟩
    split at hw''
    · cases hw''
    · rename_i hne
      cases hw''
      exact hnext.resolve_left hne
  recv := by
    rintro ⟨g, l⟩ g' r r' a hr ht h
    obtain ⟨⟨g₁, r₁⟩, hp, he⟩ := Option.map_eq_some_iff.mp h
    cases he
    obtain ⟨h1, h2⟩ := channel_recv_calm hr ht hp
    exact ⟨h1, fun hd => by rw [h2 hd]⟩

def mild : (k : Kind) → Mild (footprint k)
  | .route => routeMild
  | .channel => channelMild

/-! ## What every run preserves -/

/-- What one access of `claim_sole_owner` does to the recorded pid: nothing, or it wins the record, or (past that) it
stores its token or its pid. -/
theorem claim_cases {token : Int → Option Nat} {pid : Int} {tok : Nat} {o o' : SlotOwner} {c : ClaimPc} {r : ClaimPc ⊕ Bool}
    (h : c.step token pid tok o = (o', r)) :
    (o' = o ∧ c ≠ .storeTok ∧ c ≠ .storePid ∧ (r = .inr false ∨ ∃ c', r = .inl c' ∧ c' ≠ .storeTok ∧ c' ≠ .storePid)) ∨
    (∃ cur t, c = .cas cur t ∧ o.pid = cur ∧ o'.pid = ownerClaiming ∧ r = .inl .storeTok) ∨
    (c = .storeTok ∧ o'.pid = o.pid ∧ r = .inl .storePid) ∨ (c = .storePid ∧ o'.pid = pid ∧ r = .inr true) := by
  cases c with
  | loadPid =>
    simp only [ClaimPc.step] at h
    repeat' split at h
    all_goals
      cases h
      refine Or.inl ⟨rfl, (by simp), (by simp), ?_⟩
      first | exact Or.inl rfl | exact Or.inr ⟨_, rfl, (by simp), (by simp)⟩
  | loadTok cur =>
    cases h
    exact Or.inl ⟨rfl, (by simp), (by simp), Or.inr ⟨_, rfl, (by simp), (by simp)⟩⟩
  | check cur t =>
    cases h
    refine Or.inl ⟨rfl, (by simp), (by simp), ?_⟩
    split
    · exact Or.inl rfl
    · exact Or.inr ⟨_, rfl, (by simp), (by simp)⟩
  | cas cur t =>
    simp only [ClaimPc.step] at h
    split at h <;> cases h
    · rename_i hp
      exact Or.inr (Or.inl ⟨cur, t, rfl, hp, rfl, rfl⟩)
    · exact Or.inl ⟨rfl, (by simp), (by simp), Or.inl rfl⟩
  | storeTok =>
    cases h
    exact Or.inr (Or.inr (Or.inl ⟨rfl, rfl, rfl⟩))
  | storePid =>
    cases h
    exact Or.inr (Or.inr (Or.inr ⟨rfl, rfl, rfl⟩))

/-- The endpoint is in a claim of the record. -/
def SndPc.asking : SndPc K → Option ClaimPc
  | .claim c => some c
  | .ask _ c => some c
  | _ => none

/-- Where a disconnected sender may stand. -/
def SndPc.Off (place : K.Place → Prop) : SndPc K → Prop
  | .closed => True
  | .ready => True
  | .holder => True
  | .ask _ c => c ≠ .storeTok ∧ c ≠ .storePid
  | .conns _ => K.multi = true
  | .ident _ => K.multi = true
  | .push w _ => K.multi = true ∧ place w
  | _ => False

/-- The endpoint will free a record that has `pid`: its claim is in flight, or it has claimed for its process and is not
dropped. -/
def Sender.Owes (W : World π) (pid : Int) (x : Sender K π) : Prop :=
  pid = ownerClaiming ∧ (x.pc.asking = some .storeTok ∨ x.pc.asking = some .storePid) ∨
    pid = W.pid x.proc ∧ x.claimed = true ∧ x.pc ≠ .closed

structure Sender.Sane (place : K.Place → Prop) (x : Sender K π) : Prop where
  off : x.disconnected = true → x.claimed = false ∧ x.pc.Off place
  asking : x.pc.asking ≠ none → x.claimed = false
  fresh : x.pc = .count → x.claimed = false

structure Inv {F : Footprint K} (M : Mild F) (s : State K W ε ι) : Prop where
  sane : ∀ e, (s.senders e).Sane M.place
  calm : ∀ i, K.disconnected (s.recvs i) = true → M.calm (s.recvs i)
  owed : s.sole.pid ≠ 0 → ∃ e, (s.senders e).Owes W s.sole.pid

section Steps

variable {F : Footprint K} {M : Mild F} {s : State K W ε ι} {e : ε}

theorem Sender.Owes.of_same {x y : Sender K π} {p : Int} (h : x.Owes W p) (hx : x.pc.asking = none)
    (hproc : y.proc = x.proc) (hcl : y.claimed = x.claimed) (hopen : y.pc ≠ .closed) : y.Owes W p := by
  rcases h with ⟨-, h⟩ | ⟨hp, hc, -⟩
  · rw [hx] at h
    rcases h with h | h <;> cases h
  · exact Or.inr ⟨by rw [hproc]; exact hp, by rw [hcl]; exact hc, hopen⟩

theorem Sender.not_owes {x : Sender K π} {p : Int} (hx : x.pc.asking = none) (hc : x.claimed = false) : ¬x.Owes W p := by
  rintro (⟨-, h⟩ | ⟨-, h, -⟩)
  · rw [hx] at h
    rcases h with h | h <;> cases h
  · rw [hc] at h
    cases h

theorem Sender.not_owes_of_asking {x : Sender K π} {p : Int} {c : ClaimPc} (hx : x.pc.asking = some c)
    (h1 : c ≠ .storeTok) (h2 : c ≠ .storePid) (hc : x.claimed = false) : ¬x.Owes W p := by
  rintro (⟨-, h⟩ | ⟨-, h, -⟩)
  · rw [hx, Option.some.injEq, Option.some.injEq] at h
    exact h.elim h1 h2
  · rw [hc] at h
    cases h

theorem Sender.Sane.of_on {place : K.Place → Prop} {x : Sender K π} (hd : x.disconnected = false)
    (hx : x.pc.asking = none) (hf : x.pc ≠ .count) : x.Sane place :=
  ⟨fun h => (by rw [hd] at h; cases h), fun h => absurd hx h, fun h => absurd h hf⟩

theorem Sender.Sane.of_off {place : K.Place → Prop} {x y : Sender K π} (h : x.Sane place)
    (hd : y.disconnected = x.disconnected) (hcl : y.claimed = x.claimed) (hoff : x.disconnected = true → y.pc.Off place)
    (hx : y.pc.asking = none) (hf : y.pc ≠ .count) : y.Sane place :=
  ⟨fun hy => ⟨by rw [hcl]; exact (h.off (hd ▸ hy)).1, hoff (hd ▸ hy)⟩, fun h => absurd hx h, fun h => absurd h hf⟩

theorem pushRest_off (l : List MsgT) (hm : K.multi = true) : (pushRest l : SndPc K).Off M.place := by
  cases l with
  | nil => trivial
  | cons f rest => exact ⟨hm, M.start hm f⟩

theorem pushRest_plain (l : List MsgT) : (pushRest l : SndPc K).asking = none ∧ (pushRest l : SndPc K) ≠ .count ∧
    (pushRest l : SndPc K) ≠ .closed := by
  cases l <;> exact ⟨rfl, nofun, nofun⟩

variable [DecidableEq ε]

/-- A sender moves on; the record is free, or it has to free it, or it is as before and somebody else has to. -/
theorem Inv.move (h : Inv M s) {x : Sender K π} {g : K.Ring} {n m : BitVec 32} {o : SlotOwner} (hx : x.Sane M.place)
    (ho : o.pid = 0 ∨ x.Owes W o.pid ∨ o.pid = s.sole.pid ∧ ¬(s.senders e).Owes W o.pid) :
    Inv M { s with
      ring := g
      senderCount := n
      sole := o
      msgIds := m
      senders := update s.senders e x } := by
  refine ⟨fun d => ?_, h.calm, fun hp => ?_⟩
  · by_cases hd : d = e
    · subst hd
      simpa using hx
    · simpa [hd] using h.sane d
  · rcases ho with h0 | hown | ⟨hpid, hnot⟩
    · exact absurd h0 hp
    · exact ⟨e, by simpa using hown⟩
    · simp only at hp ⊢
      rw [hpid] at hp hnot ⊢
      obtain ⟨d, hd⟩ := h.owed hp
      have hne : d ≠ e := fun he => hnot (he ▸ hd)
      exact ⟨d, by simpa [hne] using hd⟩

theorem Inv.keep (h : Inv M s) {x : Sender K π} {g : K.Ring} {n m : BitVec 32} (hx : x.Sane M.place)
    (hk : (s.senders e).Owes W s.sole.pid → x.Owes W s.sole.pid) :
    Inv M { s with
      ring := g
      senderCount := n
      msgIds := m
      senders := update s.senders e x } := by
  refine h.move (o := s.sole) hx ?_
  by_cases ho : (s.senders e).Owes W s.sole.pid
  · exact Or.inr (Or.inl (hk ho))
  · exact Or.inr (Or.inr ⟨rfl, ho⟩)

def Same (s t : State K W ε ι) : Prop := t.ring = s.ring ∧ t.sole = s.sole ∧ t.senderCount = s.senderCount

theorem Inv.plain (h : Inv M s) {y : Sender K π} {g : K.Ring} {n m : BitVec 32} (hpc : (s.senders e).pc.asking = none)
    (hproc : y.proc = (s.senders e).proc) (hcl : y.claimed = (s.senders e).claimed)
    (hd : y.disconnected = (s.senders e).disconnected) (hq : y.pc.asking = none ∧ y.pc ≠ .count ∧ y.pc ≠ .closed)
    (hoff : (s.senders e).disconnected = true → y.pc.Off M.place) :
    Inv M { s with ring := g, senderCount := n, msgIds := m, senders := update s.senders e y } :=
  h.keep ((h.sane e).of_off hd hcl hoff hq.1 hq.2.1) fun ho => ho.of_same hpc hproc hcl hq.2.2

/-- The endpoint's disconnect ends: it has released the record, or the record is not its to free. -/
theorem Inv.finish (h : Inv M s) {y : Sender K π} {n : BitVec 32} {o : SlotOwner} (hcl : y.claimed = false)
    (ho : o.pid = 0 ∨ o.pid = s.sole.pid ∧ ¬(s.senders e).Owes W o.pid) :
    Inv M { s with senderCount := n, sole := o, senders := update s.senders e y.finish } := by
  have hpc : y.finish.pc = .closed ∨ y.finish.pc = .ready := by
    unfold Sender.finish
    simp only
    split
    · exact Or.inl rfl
    · exact Or.inr rfl
  refine h.move (g := s.ring) (m := s.msgIds) ⟨fun _ => ⟨hcl, ?_⟩, fun _ => hcl, fun _ => hcl⟩ (ho.imp_right Or.inr)
  rcases hpc with h | h <;> rw [h] <;> trivial

/-! ### The accesses of a claim -/

theorem Inv.ask (h : Inv M s) {c : ClaimPc} {q : SndPc K} (hx : (s.senders e).pc.asking = some c) (h1 : c ≠ .storeTok)
    (h2 : c ≠ .storePid) (hq : q ≠ .count) (hoff : (s.senders e).disconnected = true → q.Off M.place) :
    Inv M { s with senders := update s.senders e { s.senders e with pc := q } } := by
  have hcl := (h.sane e).asking (by rw [hx]; nofun)
  refine h.keep (g := s.ring) (n := s.senderCount) (m := s.msgIds)
    ⟨fun hd => ⟨hcl, hoff hd⟩, fun _ => hcl, fun he => absurd he hq⟩ fun ho => ?_
  exact absurd ho (Sender.not_owes_of_asking hx h1 h2 hcl)

theorem Inv.flight (h : Inv M s) {q : SndPc K} {o : SlotOwner} (hx : (s.senders e).pc.asking ≠ none)
    (hd : (s.senders e).disconnected = false) (hq : q.asking = some .storeTok ∨ q.asking = some .storePid)
    (ho : o.pid = ownerClaiming ∨ o.pid = s.sole.pid) :
    Inv M { s with sole := o, senders := update s.senders e { s.senders e with pc := q } } := by
  have hcl := (h.sane e).asking hx
  have hne : q ≠ .count := by
    rintro rfl
    rcases hq with h | h <;> cases h
  refine h.move (g := s.ring) (n := s.senderCount) (m := s.msgIds)
    ⟨fun h => (by rw [show (s.senders e).disconnected = true from h] at hd; cases hd), fun _ => hcl,
    fun he => absurd he hne⟩ ?_
  by_cases hp : o.pid = ownerClaiming
  · exact Or.inr (Or.inl (Or.inl ⟨hp, hq⟩))
  · refine Or.inr (Or.inr ⟨ho.resolve_left hp, ?_⟩)
    rintro (⟨h, -⟩ | ⟨-, h, -⟩)
    · exact hp h
    · rw [hcl] at h
      cases h

theorem Inv.won (h : Inv M s) {q : SndPc K} {o : SlotOwner} (hd : (s.senders e).disconnected = false)
    (hq : q.asking = none ∧ q ≠ .count ∧ q ≠ .closed) (ho : o.pid = W.pid (s.senders e).proc) :
    Inv M { s with sole := o, senders := update s.senders e { s.senders e with pc := q, claimed := true } } :=
  h.move (g := s.ring) (n := s.senderCount) (m := s.msgIds) (Sender.Sane.of_on hd hq.1 hq.2.1)
    (Or.inr (Or.inl (Or.inr ⟨ho, rfl, hq.2.2⟩)))

/-! ### The steps -/

theorem Inv.go (h : Inv M s) {t : State K W ε ι} (hok : untouched F s (.sender e .go)) (hst : s.senderGo e = some t) :
    Inv M t ∧ ((s.senders e).disconnected = true → Same s t) := by
  have hs := h.sane e
  have hon : ∀ {q}, (s.senders e).pc = q → ¬q.Off M.place → (s.senders e).disconnected = false := by
    intro q hq hno
    by_contra hd
    rw [Bool.not_eq_false] at hd
    exact hno (hq ▸ (hs.off hd).2)
  have habs : ∀ {P : Prop}, (s.senders e).disconnected = false → (s.senders e).disconnected = true → P := by
    intro P h1 h2
    rw [h1] at h2
    cases h2
  unfold State.senderGo at hst
  simp only at hst
  split at hst
  case h_1 => cases hst
  case h_2 hpc =>
    have hd := hon hpc (fun h => by cases h)
    have hcl := hs.fresh hpc
    cases hst
    refine ⟨h.keep (g := s.ring) (m := s.msgIds) ⟨fun h => habs hd h, fun _ => hcl, fun _ => hcl⟩ fun ho => ?_, habs hd⟩
    exact absurd ho (Sender.not_owes (by rw [hpc]; rfl) hcl)
  case h_3 c hpc =>
    have hd := hon hpc (fun h => by cases h)
    have hx : (s.senders e).pc.asking = some c := by rw [hpc]; rfl
    have hcl := hs.asking (by rw [hx]; simp)
    generalize hc : c.step s.os.token (W.pid (s.senders e).proc) (W.tok (s.senders e).proc) s.sole = p at hst
    obtain ⟨o, r⟩ := p
    refine ⟨?_, habs hd⟩
    rcases claim_cases hc with ⟨rfl, h1, h2, rfl | ⟨c', rfl, h3, h4⟩⟩ | ⟨cur, tk, rfl, -, ho, rfl⟩ | ⟨rfl, ho, rfl⟩ |
      ⟨rfl, ho, rfl⟩ <;> cases hst
    · have := h.ask (e := e) (q := .ready) hx h1 h2 (by simp) fun _ => trivial
      rw [← hcl]
      exact this
    · exact h.ask hx h1 h2 (by simp) fun h => habs hd h
    · exact h.flight (by rw [hx]; simp) hd (Or.inl rfl) (Or.inl ho)
    · exact h.flight (by rw [hx]; simp) hd (Or.inr rfl) (Or.inr ho)
    · exact h.won hd ⟨rfl, (by simp), (by simp)⟩ ho
  case h_4 => cases hst
  case h_5 data c hpc =>
    have hx : (s.senders e).pc.asking = some c := by rw [hpc]; rfl
    generalize hc : c.step s.os.token (W.pid (s.senders e).proc) (W.tok (s.senders e).proc) s.sole = p at hst
    obtain ⟨o, r⟩ := p
    -- past the exchange the endpoint is not disconnected
    have hstore : c = .storeTok ∨ c = .storePid → (s.senders e).disconnected = false := by
      intro hc
      refine hon hpc fun hoff => ?_
      exact hc.elim hoff.1 hoff.2
    have hcas : ∀ cur tk, c = .cas cur tk → s.sole.pid = cur → (s.senders e).disconnected = false := by
      rintro cur tk rfl hp
      by_contra hd
      rw [Bool.not_eq_false] at hd
      have := hok hd
      rw [hpc] at this
      exact this hp
    rcases claim_cases hc with ⟨rfl, h1, h2, rfl | ⟨c', rfl, h3, h4⟩⟩ | ⟨cur, tk, rfl, hp, ho, rfl⟩ | ⟨rfl, ho, rfl⟩ |
      ⟨rfl, ho, rfl⟩ <;> cases hst
    · exact ⟨h.ask hx h1 h2 (by simp) fun _ => trivial, fun _ => ⟨rfl, rfl, rfl⟩⟩
    · exact ⟨h.ask hx h1 h2 (by simp) fun _ => ⟨h3, h4⟩, fun _ => ⟨rfl, rfl, rfl⟩⟩
    · have hd := hcas cur tk rfl hp
      exact ⟨h.flight (by rw [hx]; simp) hd (Or.inl rfl) (Or.inl ho), habs hd⟩
    · have hd := hstore (Or.inl rfl)
      exact ⟨h.flight (by rw [hx]; simp) hd (Or.inr rfl) (Or.inr ho), habs hd⟩
    · have hd := hstore (Or.inr rfl)
      exact ⟨h.won hd ⟨rfl, (by simp), (by simp)⟩ ho, habs hd⟩
  case h_6 hpc =>
    cases hst
    exact ⟨h.plain (by rw [hpc]; rfl) rfl rfl rfl ⟨rfl, (by simp), (by simp)⟩ fun _ => trivial, fun _ => ⟨rfl, rfl, rfl⟩⟩
  case h_7 data hpc =>
    have hoff : (s.senders e).disconnected = true → K.multi = true := fun hd => by
      have := (hs.off hd).2
      rwa [hpc] at this
    cases hst
    refine ⟨h.plain (by rw [hpc]; rfl) rfl rfl rfl ?_ fun hd => ?_, fun _ => ⟨rfl, rfl, rfl⟩⟩ <;> simp only <;> split
    · exact ⟨rfl, (by simp), (by simp)⟩
    · exact ⟨rfl, (by simp), (by simp)⟩
    · trivial
    · exact hoff hd
  case h_8 data hpc =>
    have hoff : (s.senders e).disconnected = true → K.multi = true := fun hd => by
      have := (hs.off hd).2
      rwa [hpc] at this
    split at hst <;> cases hst
    · exact ⟨h.plain (by rw [hpc]; rfl) rfl rfl rfl (pushRest_plain _) fun hd => pushRest_off _ (hoff hd),
        fun _ => ⟨rfl, rfl, rfl⟩⟩
    · exact ⟨h.plain (by rw [hpc]; rfl) rfl rfl rfl (pushRest_plain _) fun hd => pushRest_off _ (hoff hd),
        fun _ => ⟨rfl, rfl, rfl⟩⟩
  case h_9 => cases hst
  case h_10 hpc =>
    have hd := hon hpc (fun h => by cases h)
    cases hst
    refine ⟨?_, habs hd⟩
    by_cases hcl : (s.senders e).claimed = true
    · simp only [hcl, if_true]
      exact h.plain (by rw [hpc]; rfl) rfl hcl.symm rfl ⟨rfl, (by simp), (by simp)⟩ fun h => habs hd h
    · rw [Bool.not_eq_true] at hcl
      simp only [hcl, Bool.false_eq_true, if_false]
      exact h.finish hcl (Or.inr ⟨rfl, Sender.not_owes (by rw [hpc]; rfl) hcl⟩)
  case h_11 r hpc =>
    have hd := hon hpc (fun h => by cases h)
    have hx : (s.senders e).pc.asking = none := by rw [hpc]; rfl
    -- whoever finds another pid in the record owes nothing
    have hother : s.sole.pid ≠ W.pid (s.senders e).proc → ¬(s.senders e).Owes W s.sole.pid := by
      rintro hne (⟨-, h⟩ | ⟨h, -⟩)
      · rw [hx] at h
        rcases h with h | h <;> cases h
      · exact hne h
    refine ⟨?_, habs hd⟩
    cases r with
    | load =>
      by_cases hp : s.sole.pid = W.pid (s.senders e).proc
      · simp only [RelPc.step, hp, if_true] at hst
        cases hst
        exact h.plain hx rfl rfl rfl ⟨rfl, (by simp), (by simp)⟩ fun h => habs hd h
      · simp only [RelPc.step, hp, if_false] at hst
        cases hst
        exact h.finish rfl (Or.inr ⟨rfl, hother hp⟩)
    | tok =>
      cases hst
      refine h.move (g := s.ring) (n := s.senderCount) (m := s.msgIds) (Sender.Sane.of_on hd rfl (by simp)) ?_
      by_cases ho : (s.senders e).Owes W s.sole.pid
      · exact Or.inr (Or.inl (ho.of_same hx rfl rfl (by simp)))
      · exact Or.inr (Or.inr ⟨rfl, ho⟩)
    | cas =>
      cases hst
      refine h.finish rfl ?_
      by_cases hp : s.sole.pid = W.pid (s.senders e).proc
      · exact Or.inl (by rw [if_pos hp])
      · rw [if_neg hp]
        exact Or.inr ⟨rfl, hother hp⟩

theorem Inv.push (h : Inv M s) {t : State K W ε ι} {a : K.WAct} (hok : untouched F s (.sender e (.writer a)))
    (hst : s.senderPush e a = some t) : Inv M t ∧ ((s.senders e).disconnected = true → Same s t) := by
  unfold State.senderPush at hst
  simp only at hst
  split at hst
  · rename_i w rest hpc
    obtain ⟨⟨g, next⟩, hp, rfl⟩ := Option.map_eq_some_iff.mp hst
    -- a disconnected endpoint's push stands where it has claimed nothing
    have hoff : (s.senders e).disconnected = true → K.multi = true ∧ g = s.ring ∧ ∀ w', next = .inl w' → M.place w' := by
      intro hd
      have hw := ((h.sane e).off hd).2
      rw [hpc] at hw
      have hwin := hok hd
      rw [hpc] at hwin
      exact ⟨hw.1, M.push hw.2 hwin hp⟩
    refine ⟨h.plain (n := s.senderCount) (m := s.msgIds) (by rw [hpc]; rfl) rfl rfl rfl ?_ fun hd => ?_,
      fun hd => ⟨(hoff hd).2.1, rfl, rfl⟩⟩ <;> simp only
    · split
      · exact ⟨rfl, nofun, nofun⟩
      · exact pushRest_plain rest
      · exact ⟨rfl, nofun, nofun⟩
    · obtain ⟨hm, -, hplace⟩ := hoff hd
      split
      · exact ⟨hm, hplace _ rfl⟩
      · exact pushRest_off rest hm
      · trivial
  · cases hst

theorem Inv.call (h : Inv M s) {a : SndAct K π} {x : Sender K π} (hst : (s.senders e).call a = some x) :
    Inv M { s with senders := update s.senders e x } := by
  have hs := h.sane e
  cases a with
  | opens q ccId =>
    simp only [Sender.call] at hst
    split at hst
    · rename_i hpc
      cases hst
      refine h.keep (g := s.ring) (n := s.senderCount) (m := s.msgIds) ⟨nofun, fun _ => rfl, fun _ => rfl⟩ fun ho => ?_
      rcases ho with ⟨-, ho⟩ | ⟨-, -, ho⟩
      · rw [hpc] at ho
        rcases ho with ho | ho <;> cases ho
      · exact absurd hpc ho
    · cases hst
  | send data =>
    simp only [Sender.call] at hst
    split at hst
    · rename_i hpc
      have hx : (s.senders e).pc.asking = none := by rw [hpc]; rfl
      split at hst
      · cases hst
        rw [update_eq_self]
        exact h
      · split at hst <;> cases hst
        · rename_i hm
          refine h.plain (g := s.ring) (n := s.senderCount)
            (m := s.msgIds) hx rfl rfl rfl ⟨rfl, nofun, nofun⟩ fun hd => ?_
          rw [(hs.off hd).1, Bool.or_false] at hm
          exact hm
        · rename_i hm
          rw [Bool.or_eq_true, not_or, Bool.not_eq_true, Bool.not_eq_true] at hm
          refine h.keep (g := s.ring) (n := s.senderCount) (m := s.msgIds)
            ⟨fun _ => ⟨hm.2, nofun, nofun⟩, fun _ => hm.2, nofun⟩ fun ho => ?_
          exact absurd ho (Sender.not_owes hx hm.2)
    · cases hst
  | disconnect =>
    simp only [Sender.call] at hst
    split at hst
    · rename_i hpc
      have hx : (s.senders e).pc.asking = none := by rw [hpc]; rfl
      split at hst <;> cases hst
      · rw [update_eq_self]
        exact h
      · rename_i hd
        exact h.plain (g := s.ring) (n := s.senderCount) (m := s.msgIds) hx rfl rfl rfl ⟨rfl, nofun, nofun⟩
          fun h => absurd h hd
    · cases hst
  | drop =>
    simp only [Sender.call] at hst
    split at hst
    · rename_i hpc
      have hx : (s.senders e).pc.asking = none := by rw [hpc]; rfl
      split at hst <;> cases hst
      · rename_i hd
        have hcl := (hs.off hd).1
        refine h.keep (g := s.ring) (n := s.senderCount) (m := s.msgIds)
          ⟨fun _ => ⟨hcl, trivial⟩, fun _ => hcl, nofun⟩ fun ho => ?_
        exact absurd ho (Sender.not_owes hx hcl)
      · rename_i hd
        exact h.plain (g := s.ring) (n := s.senderCount) (m := s.msgIds) hx rfl rfl rfl ⟨rfl, nofun, nofun⟩
          fun h => absurd h hd
    · cases hst
  | refused =>
    simp only [Sender.call] at hst
    split at hst
    · cases hst
      rw [update_eq_self]
      exact h
    · cases hst
  | go => cases hst
  | writer a => cases hst

variable [DecidableEq π] [DecidableEq ι]

/-- One step of anybody; on a disconnected endpoint it leaves the shared memory as it is. -/
theorem Inv.step (h : Inv M s) {a : Act K π ε ι} {t : State K W ε ι} (hok : untouched F s a) (hst : s.step a = some t) :
    Inv M t ∧ (a.onDisconnected s = true → Same s t) := by
  cases a with
  | spawn q =>
    obtain ⟨o, -, rfl⟩ := Option.map_eq_some_iff.mp hst
    exact ⟨⟨h.sane, h.calm, h.owed⟩, nofun⟩
  | kill q =>
    obtain ⟨o, -, rfl⟩ := Option.map_eq_some_iff.mp hst
    exact ⟨⟨h.sane, h.calm, h.owed⟩, nofun⟩
  | refused i =>
    cases hst
    exact ⟨h, fun _ => ⟨rfl, rfl, rfl⟩⟩
  | recv i a =>
    obtain ⟨⟨g, r⟩, hr, rfl⟩ := Option.map_eq_some_iff.mp hst
    obtain ⟨h1, h2⟩ := M.recv (h.calm i) hok hr
    refine ⟨⟨h.sane, fun j hj => ?_, h.owed⟩, fun hd => ⟨h2 hd, rfl, rfl⟩⟩
    by_cases hji : j = i
    · subst hji
      simp only [update_self] at hj ⊢
      exact h1 hj
    · simp only [update_of_ne hji] at hj ⊢
      exact h.calm j hj
  | sender e a =>
    simp only [State.step] at hst
    split at hst
    · cases a with
      | go => exact h.go hok hst
      | writer a => exact h.push hok hst
      | _ =>
        obtain ⟨x, hx, rfl⟩ := Option.map_eq_some_iff.mp hst
        exact ⟨h.call hx, fun _ => ⟨rfl, rfl, rfl⟩⟩
    · cases hst

end Steps

/-! ## The main result -/

/-- Nobody has the record, every sender endpoint is still to be opened, and no receiver is disconnected. -/
structure Fresh (s : State K W ε ι) : Prop where
  free : s.sole.pid = 0
  closed : ∀ e, (s.senders e).pc = .closed ∧ (s.senders e).claimed = false ∧ (s.senders e).disconnected = false
  recvs : ∀ i, K.disconnected (s.recvs i) = false

theorem Inv.fresh {F : Footprint K} {M : Mild F} {s : State K W ε ι} (h : Fresh s) : Inv M s := by
  refine ⟨fun e => ?_, fun i hi => ?_, fun hp => absurd h.free hp⟩
  · obtain ⟨hpc, -, hd⟩ := h.closed e
    exact Sender.Sane.of_on hd (by rw [hpc]; rfl) (by rw [hpc]; nofun)
  · rw [h.recvs i] at hi
    cases hi

variable [DecidableEq π] [DecidableEq ε] [DecidableEq ι]

/-- **A disconnected endpoint is inert**, as long as none claims the record or a slot or takes a fragment or mark: its
steps change nothing shared, and the record is free once every sender is dropped. -/
theorem disconnected_inert (k : Kind) {s₀ s : State (model k) W ε ι} {acts : List (Act (model k) π ε ι)} (h₀ : Fresh s₀)
    (hrun : Run State.step (untouched (footprint k)) s₀ acts s) :
    (∀ a t, untouched (footprint k) s a → s.step a = some t → a.onDisconnected s = true →
      t.ring = s.ring ∧ t.sole = s.sole ∧ t.senderCount = s.senderCount) ∧
    ((∀ e, (s.senders e).pc = .closed) → s.sole.pid = 0) := by
  have h : Inv (mild k) s := hrun.inv (Inv (mild k)) (Inv.fresh h₀) fun _ _ _ h hok hst => (h.step hok hst).1
  refine ⟨fun a t hok hst hd => (h.step hok hst).2 hd, fun hall => ?_⟩
  by_contra hp
  obtain ⟨e, he⟩ := h.owed hp
  rcases he with ⟨-, he⟩ | ⟨-, -, he⟩
  · rw [hall e] at he
    rcases he with he | he <;> cases he
  · exact he (hall e)

/-! ### Runs -/

instance (F : Footprint K) (s : State K W ε ι) (a : Act K π ε ι) : Decidable (untouched F s a) := by
  unfold untouched
  split
  · split <;> infer_instance
  · split <;> infer_instance
  · infer_instance
  · infer_instance

/-- A route with two senders, of two processes, that are still to be opened. -/
def duo : State routeModel quartet (Fin 2) Empty where
  os := startup.os
  ring := Route.freshRing 0
  senderCount := 0
  sole := ⟨0, 0, 0⟩
  msgIds := 0
  senders := fun e => ⟨![0, 1] e, 0, false, false, false, 0, .closed⟩
  recvs := nofun

theorem fresh_duo : Fresh duo := ⟨rfl, fun _ => ⟨rfl, rfl, rfl⟩, nofun⟩

/-- A call on endpoint `e`, and `n` of its accesses. -/
def calling (e : Fin 2) (a : SndAct routeModel (Fin 4)) (n : Nat) : List (Act routeModel (Fin 4) (Fin 2) Empty) :=
  .sender e a :: List.replicate n (.sender e .go)

/-- Endpoint 0 disconnects and endpoint 1 is the sender: a `send` on endpoint 0 is refused, and changes nothing. -/
theorem disconnected_inert_refused :
    ∃ s, Run State.step (untouched routeFootprint) duo
        (calling 0 (.opens 0 7) 5 ++ calling 0 .disconnect 4 ++ calling 1 (.opens 1 8) 5 ++ calling 0 (.send [1]) 3) s ∧
      s.sole.pid = quartet.pid 1 ∧
      ∀ t, s.step (.sender 0 .go) = some t → t.ring = s.ring ∧ t.sole = s.sole ∧ t.senderCount = s.senderCount := by
  refine exists_run_imp (fun s => s.sole.pid = 2 ∧ (s.senders 0).disconnected = true ∧
    untouched routeFootprint s (.sender 0 .go)) (by decide +kernel) fun s hrun hs => ?_
  exact ⟨hs.1, fun t ht => (disconnected_inert .route fresh_duo hrun).1 _ t hs.2.2 ht hs.2.1⟩

/-- The endpoint is not open. -/
def SndPc.isClosed : SndPc K → Bool
  | .closed => true
  | _ => false

theorem SndPc.isClosed_iff {pc : SndPc K} : pc.isClosed = true ↔ pc = .closed := by
  cases pc <;> simp [SndPc.isClosed]

/-- **The record is kept.** The only sender disconnects, and the record is free; its `send` claims it again, and its
`drop` leaves it so. -/
theorem record_kept :
    (∃ s, Run State.step (fun _ _ => True) duo (calling 0 (.opens 0 7) 5 ++ calling 0 .disconnect 4) s ∧
      (s.senders 0).disconnected = true ∧ s.sole.pid = 0) ∧
    ∃ s, Run State.step (fun _ _ => True) duo
        (calling 0 (.opens 0 7) 5 ++ calling 0 .disconnect 4 ++ calling 0 (.send [1]) 5 ++ calling 0 .drop 0) s ∧
      (∀ e, (s.senders e).pc = .closed) ∧ s.sole.pid = quartet.pid 0 := by
  constructor
  · exact exists_run_of (by decide +kernel)
  · refine exists_run_imp (fun s => (∀ e, (s.senders e).pc.isClosed = true) ∧ s.sole.pid = 1) (by decide +kernel)
      fun s hrun hs => ?_
    exact ⟨fun e => SndPc.isClosed_iff.mp (hs.1 e), hs.2⟩

end ThothIpc.Endpoint
