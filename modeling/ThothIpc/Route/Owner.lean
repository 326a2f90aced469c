import ThothIpc.Route.Trace

/-!
# Who owns a connection bit

An endpoint takes the lowest clear bit when it connects and gives it back by clearing it, first in the connection mask
and then in the owner table. The timeout path clears the bits of the receivers it evicts behind their backs.

* `Receiver.regards` : the endpoint regards itself as connected;
* `Distinct s` : endpoints that regard themselves as connected have different bits;
* `Untouched b g g'` : the connection bit, the owner record and the marks of bit `b` are as before;
* `sound` : no bit is issued while an endpoint that was evicted, or has not finished its disconnect, still has it, and
  no `recv` is called on a disconnected endpoint;
* `bits_distinct` : under it both hold in every run; `bit_reissued` : without it two endpoints share a bit.
-/

namespace ThothIpc.Route
open Function Steps

variable {ι : Type} {b : Nat} {s t : State ι} {i : ι}

/-! ## Bits and endpoints -/

theorem claim_bit {c : BitVec 32} (h : c ||| (c + 1) ≠ c) : ∃ l < 32, c.getLsbD l = false ∧
    (c ||| (c + 1)) ^^^ c = BitVec.twoPow 32 l ∧ (c ||| (c + 1)).getLsbD l = true := by
  obtain ⟨l, hl, hcl, -, hx, hor⟩ := Bits.exists_lowest_clear c h
  exact ⟨l, hl, hcl, hx, by rw [hor]; simp⟩

/-- An endpoint comes to its claim only from the test for a clear bit. -/
theorem Receiver.act_room {g g' : Ring} {r r' : Receiver} {ra : RAct} {since curr : BitVec 32}
    (h : r.act g ra = some (g', r')) (hpc : r'.pc = .casConns since curr) :
    curr ||| (curr + 1) ≠ curr ∨ r.pc = .casConns since curr := by
  obtain ⟨-, h⟩ | ⟨-, h⟩ | ⟨-, ⟨pid, tok, -, h⟩ | ⟨-, h⟩ | ⟨-, h⟩⟩ := Receiver.act_cases h
  · unfold Receiver.step at h
    split at h
    case h_3 since' _ =>
      split at h <;> cases h
      · cases hpc
      · rename_i hne
        cases hpc
        exact Or.inl hne
    all_goals
      (try simp only at h)
      (try split at h) <;> cases h <;> cases hpc
  · unfold Receiver.disconnect at h
    split at h
    · rename_i hr
      split at h <;> cases h
      · rw [hr] at hpc; cases hpc
      · cases hpc
    · cases h
  · unfold Receiver.open at h
    split at h <;> cases h
    cases hpc
  · unfold Receiver.recv at h
    split at h <;> cases h
    rename_i hr
    split at hpc
    · rw [hr] at hpc; cases hpc
    · cases hpc
  · unfold Receiver.fail at h
    split at h <;> cases h <;> cases hpc

def Receiver.regards (r : Receiver) : Bool := r.pc.joined && !r.disconnected

/-- Nothing that belongs to bit `b` has changed hands: its connection, its owner record, its marks. -/
structure Untouched (b : Nat) (g g' : Ring) : Prop where
  conn : g.connections.getLsbD b = true → g'.connections.getLsbD b = true
  owner : g'.owners b = g.owners b
  mark : ∀ i, (g'.slots i).rc.getLsbD b = (g.slots i).rc.getLsbD b

theorem owners_setOwner {g : Ring} {x : BitVec 32} {f : SlotOwner → SlotOwner} (hb : b < 32) (h : x.getLsbD b = false) :
    (g.setOwner x f).owners b = g.owners b := by
  simp only [Ring.setOwner, update_apply]
  rw [if_neg fun he => slotIndex_ne hb h he.symm]

theorem Receiver.act_untouched {g g' : Ring} {r r' : Receiver} {ra : RAct} (hb : b < 32)
    (h : r.act g ra = some (g', r')) (hc : r.pc.joined = true → r.connId.getLsbD b = false) : Untouched b g g' := by
  have hk := Receiver.act_keeps hb h hc
  refine ⟨hk.conn, ?_, hk.mark⟩
  obtain ⟨-, h⟩ | ⟨-, h⟩ | ⟨rfl, -⟩ := Receiver.act_cases h
  · unfold Receiver.step at h
    split at h
    all_goals
      rename_i hpc
      rw [hpc] at hc
      (try simp only at h)
      (try split at h) <;> cases h <;> first | rfl | exact owners_setOwner hb (hc rfl)
  · unfold Receiver.disconnect at h
    split at h
    · split at h <;> cases h <;> rfl
    · cases h
  · rfl

/-! ## Distinct bits -/

/-- Endpoints that regard themselves as connected have one bit each, and different ones. -/
structure Distinct (s : State ι) : Prop where
  bit : ∀ j, (s.recvs j).regards = true → ∃ c < 32, (s.recvs j).connId = BitVec.twoPow 32 c
  ne : ∀ i j, i ≠ j → (s.recvs i).regards = true → (s.recvs j).regards = true → (s.recvs i).connId ≠ (s.recvs j).connId
  parked : ∀ j, (s.recvs j).disconnected = true → (s.recvs j).pc = .ready ∨ (s.recvs j).pc = .closed
  room : ∀ j since curr, (s.recvs j).pc = .casConns since curr → curr ||| (curr + 1) ≠ curr

/-- The endpoint regards itself as connected, but its bit is not: it was evicted, or is in the middle of
`disconnect`. -/
def Receiver.stale (g : Ring) (r : Receiver) : Bool := r.regards && g.connections &&& r.connId == 0

/-- The bit the endpoint's next access claims. -/
def Receiver.claims (g : Ring) (r : Receiver) : Option (BitVec 32) :=
  match r.pc with
  | .casConns _ curr => if g.connections = curr then some ((curr ||| (curr + 1)) ^^^ curr) else none
  | _ => none

/-- A bit is issued only when no stale endpoint has it, and `recv` is not called on a disconnected endpoint. -/
def sound (s : State ι) : Act ι → Prop
  | .recv i .go => ∀ j, j ≠ i → (s.recvs j).stale s.ring = true → (s.recvs i).claims s.ring ≠ some (s.recvs j).connId
  | .recv i .recv => (s.recvs i).disconnected = false
  | _ => True

instance [Fintype ι] [DecidableEq ι] (s : State ι) (act : Act ι) : Decidable (sound s act) :=
  match act with
  | .sender _ => inferInstanceAs (Decidable True)
  | .recv _ .go => inferInstanceAs (Decidable (∀ _, _))
  | .recv _ .recv => inferInstanceAs (Decidable (_ = _))
  | .recv _ (.opens _ _) => inferInstanceAs (Decidable True)
  | .recv _ .fail => inferInstanceAs (Decidable True)
  | .recv _ .disconnect => inferInstanceAs (Decidable True)

/-- A disconnected endpoint on which nothing but `disconnect` is called stays as it is. -/
theorem Receiver.act_parked {g g' : Ring} {r r' : Receiver} {ra : RAct} (h : r.act g ra = some (g', r'))
    (hp : r.pc = .ready) (hd : r.disconnected = true) (hr : ra ≠ .recv) : g' = g ∧ r' = r := by
  obtain ⟨-, h⟩ | ⟨-, h⟩ | ⟨rfl, ⟨pid, tok, -, h⟩ | ⟨rfl, -⟩ | ⟨-, h⟩⟩ := Receiver.act_cases h
  · simp [Receiver.step, hp] at h
  · simp only [Receiver.disconnect, hp, hd, if_true, Option.some.injEq, Prod.mk.injEq] at h
    exact ⟨h.1.symm, h.2.symm⟩
  · simp [Receiver.open, hp] at h
  · exact absurd rfl hr
  · simp [Receiver.fail, hp] at h

theorem Receiver.act_parks {g g' : Ring} {r r' : Receiver} {ra : RAct} (h : r.act g ra = some (g', r'))
    (hp : r.disconnected = true → r.pc = .ready ∨ r.pc = .closed) (hr : ra = .recv → r.disconnected = false)
    (hd : r'.disconnected = true) : r'.pc = .ready ∨ r'.pc = .closed := by
  by_cases hdr : r.disconnected = true
  · rcases hp hdr with hpc | hpc
    · obtain ⟨-, rfl⟩ := Receiver.act_parked h hpc hdr (fun he => by rw [hr he] at hdr; cases hdr)
      exact Or.inl hpc
    · obtain ⟨-, h⟩ | ⟨-, h⟩ | ⟨-, ⟨pid, tok, -, h⟩ | ⟨-, h⟩ | ⟨-, h⟩⟩ := Receiver.act_cases h
      · simp [Receiver.step, hpc] at h
      · simp [Receiver.disconnect, hpc] at h
      · simp only [Receiver.open, hpc, Option.some.injEq] at h
        rw [← h] at hd
        cases hd
      · simp [Receiver.recv, hpc] at h
      · simp [Receiver.fail, hpc] at h
  · obtain ⟨-, h⟩ | ⟨-, h⟩ | ⟨-, ⟨pid, tok, -, h⟩ | ⟨-, h⟩ | ⟨-, h⟩⟩ := Receiver.act_cases h
    · unfold Receiver.step at h
      split at h
      all_goals
        (try simp only at h)
        (try split at h) <;> cases h <;> first | exact Or.inl rfl | exact absurd hd hdr
    · unfold Receiver.disconnect at h
      split at h
      · split at h <;> cases h <;> exact absurd hd hdr
      · cases h
    · unfold Receiver.open at h
      split at h <;> cases h
      cases hd
    · unfold Receiver.recv at h
      split at h <;> cases h
      split at hd <;> exact absurd hd hdr
    · unfold Receiver.fail at h
      split at h <;> cases h <;> exact absurd hd hdr

/-- Only a new `open` makes a disconnected endpoint connected again. -/
theorem Receiver.act_disconnected {g g' : Ring} {r r' : Receiver} {ra : RAct} (h : r.act g ra = some (g', r'))
    (hj : r'.pc.joined = true) (hd : r'.disconnected = false) : r.disconnected = false := by
  obtain ⟨-, h⟩ | ⟨-, h⟩ | ⟨-, ⟨pid, tok, -, h⟩ | ⟨-, h⟩ | ⟨-, h⟩⟩ := Receiver.act_cases h
  · unfold Receiver.step at h
    split at h
    all_goals
      (try simp only at h)
      (try split at h) <;> cases h <;> first | exact hd | cases hd
  · unfold Receiver.disconnect at h
    split at h
    · split at h <;> cases h <;> exact hd
    · cases h
  · unfold Receiver.open at h
    split at h <;> cases h
    cases hj
  · unfold Receiver.recv at h
    split at h <;> cases h
    split at hd <;> exact hd
  · unfold Receiver.fail at h
    split at h <;> cases h <;> exact hd

theorem Receiver.act_regards {g g' : Ring} {r r' : Receiver} {ra : RAct} (h : r.act g ra = some (g', r'))
    (hj : r'.regards = true) : r.regards = true ∧ r'.connId = r.connId ∨
      (∃ since, r.pc = .casConns since g.connections) ∧ ra = .go ∧ r.claims g = some r'.connId := by
  simp only [Receiver.regards, Bool.and_eq_true, Bool.not_eq_true'] at hj ⊢
  rcases Receiver.act_joined h hj.1 with ⟨hjo, hid⟩ | ⟨since, hpc, hpc', hid, -⟩
  · exact Or.inl ⟨⟨hjo, Receiver.act_disconnected h hj.1 hj.2⟩, hid⟩
  · refine Or.inr ⟨⟨since, hpc⟩, ?_, by simp only [Receiver.claims, hpc, hid, if_true]⟩
    -- only an access claims
    obtain ⟨rfl, -⟩ | ⟨-, h⟩ | ⟨-, ⟨pid, tok, -, h⟩ | ⟨-, h⟩ | ⟨-, h⟩⟩ := Receiver.act_cases h
    · rfl
    · simp [Receiver.disconnect, hpc] at h
    · simp [Receiver.open, hpc] at h
    · simp [Receiver.recv, hpc] at h
    · simp only [Receiver.fail, hpc, Option.some.injEq] at h
      rw [← h] at hpc'
      cases hpc'

section Steps
variable [DecidableEq ι]

section Update
variable {k : ι} {ra : RAct} {g : Ring} {r : Receiver}

theorem connId_ne_update {P : Receiver → Bool}
    (hne : ∀ i j, i ≠ j → P (s.recvs i) = true → P (s.recvs j) = true → (s.recvs i).connId ≠ (s.recvs j).connId)
    (hnew : ∀ j, j ≠ k → P (s.recvs j) = true → P r = true → (s.recvs j).connId ≠ r.connId) {i j : ι} (hij : i ≠ j) :
    P (update s.recvs k r i) = true → P (update s.recvs k r j) = true →
      (update s.recvs k r i).connId ≠ (update s.recvs k r j).connId := by
  simp only [update_apply]
  split <;> split
  · rename_i h1 h2
    exact absurd (h1.trans h2.symm) hij
  · rename_i h1 h2
    exact fun hi hj => (hnew j h2 hj hi).symm
  · rename_i h1 h2
    exact fun hi hj => hnew i h1 hi hj
  · exact hne i j hij

theorem parked_update (hp : ∀ j, (s.recvs j).disconnected = true → (s.recvs j).pc = .ready ∨ (s.recvs j).pc = .closed)
    (hr : (s.recvs k).act s.ring ra = some (g, r)) (hok : ra = .recv → (s.recvs k).disconnected = false) (j : ι) :
    (update s.recvs k r j).disconnected = true →
      (update s.recvs k r j).pc = .ready ∨ (update s.recvs k r j).pc = .closed := by
  simp only [update_apply]
  split
  · exact Receiver.act_parks hr (hp k) hok
  · exact hp j

theorem room_update (hroom : ∀ j since curr, (s.recvs j).pc = .casConns since curr → curr ||| (curr + 1) ≠ curr)
    (hr : (s.recvs k).act s.ring ra = some (g, r)) (j : ι) (since curr : BitVec 32) :
    (update s.recvs k r j).pc = .casConns since curr → curr ||| (curr + 1) ≠ curr := by
  simp only [update_apply]
  split
  · intro hpc
    rcases Receiver.act_room hr hpc with hne | hpc
    · exact hne
    · exact hroom k _ _ hpc
  · exact hroom j since curr

end Update

theorem Distinct.step {act : Act ι} (h : Distinct s) (hok : sound s act) (hst : s.step act = some t) : Distinct t := by
  rcases State.step_cases hst with ⟨sa, g, pc, out, -, -, rfl⟩ | ⟨k, ra, g, r, rfl, hr, rfl⟩
  · exact ⟨h.bit, h.ne, h.parked, h.room⟩
  -- the bit an endpoint has just claimed is nobody else's
  have hnew : ∀ j, j ≠ k → (s.recvs j).regards = true → r.regards = true → (s.recvs j).connId ≠ r.connId := by
    intro j hj hrj hrr
    rcases Receiver.act_regards hr hrr with ⟨hrk, hid⟩ | ⟨⟨since, hpc⟩, rfl, hcl⟩
    · rw [hid]; exact h.ne j k hj hrj hrk
    · intro he
      obtain ⟨l, hl, hclear, hx, -⟩ := claim_bit (h.room k _ _ hpc)
      have hid := hcl
      simp only [Receiver.claims, hpc, if_true, hx, Option.some.injEq] at hid
      refine hok j hj ?_ (he ▸ hcl)
      rw [Receiver.stale, hrj, Bool.true_and, beq_iff_eq, he, ← hid, Bits.and_twoPow_eq_zero hl]
      exact hclear
  refine ⟨fun j => ?_, fun i j hij => connId_ne_update h.ne hnew hij, parked_update h.parked hr ?_,
    room_update h.room hr⟩
  · simp only [update_apply]
    split
    · intro hj
      rcases Receiver.act_regards hr hj with ⟨hrk, hid⟩ | ⟨⟨since, hpc⟩, -, hcl⟩
      · rw [hid]; exact h.bit k hrk
      · obtain ⟨l, hl, -, hx, -⟩ := claim_bit (h.room k _ _ hpc)
        simp only [Receiver.claims, hpc, if_true, hx, Option.some.injEq] at hcl
        exact ⟨l, hl, hcl.symm⟩
    · exact h.bit j
  · intro he
    rw [he] at hok
    exact hok

/-- A step of an endpoint leaves what belongs to another connected endpoint alone. -/
theorem Distinct.untouched {j : ι} {ra : RAct} (h : Distinct s) (hok : sound s (.recv j ra))
    (hst : s.step (.recv j ra) = some t) (hij : i ≠ j) (hi : (s.recvs i).regards = true) :
    ∃ b < 32, (s.recvs i).connId = BitVec.twoPow 32 b ∧ Untouched b s.ring t.ring := by
  obtain ⟨c, hc, hid⟩ := h.bit i hi
  refine ⟨c, hc, hid, ?_⟩
  rcases State.step_cases hst with ⟨sa, g, pc, out, he, -, rfl⟩ | ⟨k, ra', g, r, he, hr, rfl⟩
  · cases he
  cases he
  by_cases hd : (s.recvs j).pc.joined = true ∧ (s.recvs j).disconnected = true
  · -- a disconnected endpoint does nothing
    have hpc : (s.recvs j).pc = .ready := (h.parked j hd.2).resolve_right fun he => by rw [he] at hd; cases hd.1
    have hne : ra ≠ .recv := fun he => by
      rw [he] at hok
      rw [show (s.recvs j).disconnected = false from hok] at hd
      cases hd.2
    obtain ⟨rfl, -⟩ := Receiver.act_parked hr hpc hd.2 hne
    exact ⟨id, rfl, fun _ => rfl⟩
  · refine Receiver.act_untouched hc hr fun hjo => ?_
    have hrj : (s.recvs j).regards = true := by
      rw [Receiver.regards, hjo]
      simpa [hjo] using hd
    obtain ⟨d, hd32, hidj⟩ := h.bit j hrj
    rw [hidj, BitVec.getLsbD_twoPow]
    have hne : d ≠ c := fun he => h.ne i j hij hi hrj (by rw [hid, hidj, he])
    simp [hne]

/-- **Connected endpoints have different bits, and none touches what belongs to another**, if no bit is issued while a
stale endpoint has it and no disconnected endpoint receives. -/
theorem bits_distinct {s₀ : State ι} {acts : List (Act ι)} (h0 : Distinct s₀) (hrun : Run State.step sound s₀ acts s) :
    (∀ i j, i ≠ j → (s.recvs i).regards = true → (s.recvs j).regards = true →
      (s.recvs i).connId ≠ (s.recvs j).connId) ∧
    ∀ i j ra t, sound s (.recv j ra) → s.step (.recv j ra) = some t → i ≠ j → (s.recvs i).regards = true →
      ∃ b < 32, (s.recvs i).connId = BitVec.twoPow 32 b ∧ Untouched b s.ring t.ring := by
  have h := hrun.inv Distinct h0 fun t act u ht hok hst => ht.step hok hst
  exact ⟨h.ne, fun i j ra t hok hst hij hi => h.untouched hok hst hij hi⟩

end Steps

/-! ## Bits issued too early -/

/-- Receiver 0 is connected, receiver 1 not yet. -/
def newcomer : State (Fin 2) := fresh 1 fun i => if i = 0 then reader 0 else { reader 0 with connId := 0, pc := .closed }

/-- The accesses of a connect that finds no slot to walk back over. -/
def connectActs {ι : Type} (i : ι) : List (Act ι) := .recv i (.opens 2 2) :: List.replicate 9 (.recv i .go)

theorem distinct_newcomer : Distinct newcomer := by
  have hcase : ∀ j : Fin 2, newcomer.recvs j = reader 0 ∧ j = 0 ∨
      newcomer.recvs j = { reader 0 with connId := 0, pc := .closed } := by decide
  refine ⟨fun j hj => ?_, fun i j hij hi hj => ?_, fun j hj => ?_, fun j since curr hj => ?_⟩
  · rcases hcase j with ⟨h, -⟩ | h <;> rw [h] at hj ⊢
    · exact ⟨0, by decide, rfl⟩
    · cases hj
  · rcases hcase i with ⟨h, rfl⟩ | h
    · rcases hcase j with ⟨h', rfl⟩ | h'
      · exact absurd rfl hij
      · rw [h'] at hj; cases hj
    · rw [h] at hi; cases hi
  · rcases hcase j with ⟨h, -⟩ | h <;> rw [h] at hj <;> cases hj
  · rcases hcase j with ⟨h, -⟩ | h <;> rw [h] at hj <;> cases hj

theorem bits_distinct_connect : ∃ s, Run State.step sound newcomer (connectActs 1) s ∧
    (s.recvs 0).regards = true ∧ (s.recvs 1).regards = true ∧ (s.recvs 0).connId ≠ (s.recvs 1).connId := by
  refine exists_run_imp (fun s => (s.recvs 0).regards = true ∧ (s.recvs 1).regards = true) (by decide)
    fun s hrun hs => ?_
  obtain ⟨h0, h1⟩ := hs
  exact ⟨h0, h1, (bits_distinct distinct_newcomer hrun).1 0 1 (by decide) h0 h1⟩

theorem run_connect {i : ι} [DecidableEq ι] {C : State ι → Act ι → Prop} {g : Ring} {p : SPc} {v : ι → Receiver}
    {l : List MsgT} {r : Receiver} (hr : v i = r) (hcl : r.pc = .closed) (hc : g.connections = 0)
    (hok : ∀ u a, C u (.recv i a)) :
    ∃ s, Run State.step C ⟨g, p, v, l⟩ (connectActs i) s ∧ s.ring.connections = 1#32 ∧
      s.recvs = update v i { r with
        connId := 1#32, readCursor := g.writeCursor, pc := .ready, disconnected := false, pid := 2, tok := 2 } := by
  obtain ⟨c, w, e, slots, owners⟩ := g
  obtain ⟨connId, cur, rpc, disc, pid, tok, got⟩ := r
  simp only at hcl hc
  subst hcl hc
  refine ⟨⟨((Ring.setOwner ⟨1#32, w, e, slots, owners⟩ 1#32 fun o => { o with since := w }).setOwner 1#32 fun o =>
    { o with startTok := 2 }).setOwner 1#32 fun o => { o with pid := 2 }, p, _, l⟩, ?_, rfl, rfl⟩
  · refine Run.head (t := ⟨⟨0, w, e, slots, owners⟩, p,
      update v i ⟨connId, cur, .readSince, false, 2, 2, got⟩, l⟩) (hok _ _) ?_ ?_
    · simp only [State.step, Receiver.act, hr, Receiver.open, Option.map_some]
    refine run_go rfl (hok _ _) ?_
    refine run_go (q := ⟨connId, cur, .casConns w 0, false, 2, 2, got⟩)
      (if_neg (show ¬ (0 : BitVec 32) ||| (0 + 1) = 0 by decide)) (hok _ _) ?_
    refine run_go (d := ⟨1#32, w, e, slots, owners⟩) (q := ⟨1#32, cur, .setSince w, false, 2, 2, got⟩) rfl (hok _ _) ?_
    refine run_go rfl (hok _ _) (run_go rfl (hok _ _) (run_go rfl (hok _ _) ?_))
    refine run_go (if_pos (Or.inr (Or.inl rfl))) (hok _ _) ?_
    exact run_go rfl (hok _ _) (run_go rfl (hok _ _) .nil)

/-- **Two endpoints share a bit.** The sender evicts receiver 0, and receiver 1 gets its bit. When receiver 0
disconnects it clears the bit of receiver 1. -/
theorem bit_reissued : ∃ acts s t, Run State.step (fun _ _ => True) newcomer acts s ∧
    (s.recvs 0).regards = true ∧ (s.recvs 1).regards = true ∧ (s.recvs 0).connId = 1#32 ∧ (s.recvs 1).connId = 1#32 ∧
    s.step (.recv 0 .disconnect) = some t ∧ s.ring.connections = 1#32 ∧ t.ring.connections = 0#32 := by
  obtain ⟨acts, s, hrun, hf⟩ := run_fill (f := blank) (C := fun _ _ => True)
    (show Filled newcomer blank 0 newcomer from filled_zero 1 _ blank) (by decide)
    (fun _ _ _ _ _ => trivial) 256 (Nat.le_refl _)
  obtain ⟨g, pc, recvs, log⟩ := s
  have hidle : pc = .idle := hf.idle
  subst hidle
  have h0 : recvs 0 = reader 0 := congrFun hf.recvs 0
  have h1 : recvs 1 = { reader 0 with connId := 0, pc := .closed } := congrFun hf.recvs 1
  have hconn : g.connections = 1#32 := hf.connections
  have hstuck : (g.slot 256#32).rc = 1#64 := by
    have hz : (slotAt g 0).rc = 1#64 := hf.unread 0 (by decide)
    exact hz
  have hev := run_evict (C := fun _ _ => True) (f := blank) (g := g) (v := recvs) (l := log)
    (by rw [hconn]; decide) hf.epoch hf.wt hstuck (by rw [show g.owners = _ from hf.owners]; rfl)
    (fun _ _ _ _ => trivial)
  simp only [hconn, show 1#32 &&& ~~~1#32 = 0 by decide, if_true] at hev
  obtain ⟨s, hcon, hg, hrecvs⟩ := run_connect (C := fun _ _ => True) (i := 1) (p := .idle) (l := log)
    (g := { g with epoch := epIncr, connections := 0 }) h1 rfl rfl (fun _ _ => trivial)
  have hs0 : s.recvs 0 = reader 0 := by rw [hrecvs, update_of_ne (by decide), h0]
  have hs1 : (s.recvs 1).regards = true ∧ (s.recvs 1).connId = 1#32 := by
    rw [hrecvs, update_self]
    exact ⟨rfl, rfl⟩
  have hdisc : (reader 0).disconnect s.ring =
      some ({ s.ring with connections := 0#32 }, { reader 0 with pc := .clearPid }) := by
    simp only [Receiver.disconnect, reader, hg]
    rfl
  refine ⟨_, s, { s with
    ring := { s.ring with connections := 0#32 }, recvs := update s.recvs 0 { reader 0 with pc := .clearPid } },
    (hrun.trans hev).trans hcon, by rw [hs0]; rfl, hs1.1, by rw [hs0]; rfl, hs1.2, ?_, hg, rfl⟩
  simp only [State.step, Receiver.act, hs0, hdisc, Option.map_some]

/-- A leaving endpoint clears the owner record of the one that got its bit. -/
theorem owner_record_cleared : ∃ s t,
    Run State.step (fun _ _ => True) newcomer (.recv 0 .disconnect :: connectActs 1) s ∧
    (s.recvs 1).regards = true ∧ (s.recvs 1).connId = 1#32 ∧ s.step (.recv 0 .go) = some t ∧
    (s.ring.owners 0).pid = 2 ∧ (t.ring.owners 0).pid = 0 := by
  obtain ⟨s, hrun, hs⟩ := exists_run State.step (fun _ _ => True) newcomer (.recv 0 .disconnect :: connectActs 1)
    (fun s => (s.recvs 1, (s.ring.owners 0).pid, (s.step (.recv 0 .go)).map fun t => (t.ring.owners 0).pid))
    (x := ({ reader 0 with pid := 2, tok := 2 }, 2, some 0)) (by decide)
  simp only [Prod.mk.injEq] at hs
  obtain ⟨hr, hp, ht⟩ := hs
  obtain ⟨t, hst, ht⟩ := Option.map_eq_some_iff.mp ht
  exact ⟨s, t, hrun, by rw [hr]; rfl, by rw [hr]; rfl, hst, hp, ht⟩

end ThothIpc.Route
