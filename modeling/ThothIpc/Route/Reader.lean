import ThothIpc.Route.Guard

/-!
# A receiver that stays connected

* `Alone s i b` : no other endpoint that has connected holds bit `b`;
* `Attached w₀ s i b a σ` : receiver `i` holds bit `b`, started reading at position `a`, has read exactly the fragments
  published from there on up to its cursor, and everything it has still to read is guarded;
* `Attached.step` : every step that spares the bit preserves both (`Follows.step`);
* `Lossless` : what follows for the receiver (`Follows.lossless`).
-/

namespace ThothIpc.Route
open Function

variable {ι : Type} {w₀ b m σ a : Nat} {s t : State ι} {i : ι}

/-! ## Who holds a bit -/

/-- The endpoint has claimed a connection bit. -/
def RPc.joined : RPc → Bool
  | .closed => false
  | .readSince => false
  | .loadConns _ => false
  | .casConns _ _ => false
  | _ => true

/-- No endpoint but `i` holds bit `b`. -/
def Alone (s : State ι) (i : ι) (b : Nat) : Prop :=
  ∀ j, j ≠ i → (s.recvs j).pc.joined = true → (s.recvs j).connId.getLsbD b = false

theorem Receiver.step_joined {g g' : Ring} {r r' : Receiver} (h : r.step g = some (g', r'))
    (hj : r'.pc.joined = true) : r.pc.joined = true ∧ r'.connId = r.connId ∨
      ∃ since, r.pc = .casConns since g.connections ∧ r'.pc = .setSince since ∧
        r'.connId = (g.connections ||| (g.connections + 1)) ^^^ g.connections ∧
        g' = { g with connections := g.connections ||| (g.connections + 1) } := by
  unfold Receiver.step at h
  split at h
  case h_4 since curr hpc =>
    simp only at h
    split at h <;> cases h
    · rename_i hcur
      exact Or.inr ⟨since, by rw [hcur]; exact hpc, rfl, by rw [hcur], by rw [hcur]⟩
    · cases hj
  all_goals
    rename_i hpc
    (try simp only at h)
    (try split at h) <;> cases h <;> first | exact Or.inl ⟨by rw [hpc]; rfl, rfl⟩ | cases hj

/-- An endpoint keeps its bit, or has just claimed the lowest clear one. -/
theorem Receiver.act_joined {g g' : Ring} {r r' : Receiver} {a : RAct} (h : r.act g a = some (g', r'))
    (hj : r'.pc.joined = true) : r.pc.joined = true ∧ r'.connId = r.connId ∨
      ∃ since, r.pc = .casConns since g.connections ∧ r'.pc = .setSince since ∧
        r'.connId = (g.connections ||| (g.connections + 1)) ^^^ g.connections ∧
        g' = { g with connections := g.connections ||| (g.connections + 1) } := by
  obtain ⟨-, h⟩ | ⟨-, h⟩ | ⟨-, ⟨pid, tok, -, h⟩ | ⟨-, h⟩ | ⟨-, h⟩⟩ := Receiver.act_cases h
  · exact Receiver.step_joined h hj
  · unfold Receiver.disconnect at h
    split at h
    · rename_i hpc
      split at h <;> cases h <;> exact Or.inl ⟨by rw [hpc]; rfl, rfl⟩
    · cases h
  · unfold Receiver.open at h
    split at h <;> cases h
    cases hj
  · unfold Receiver.recv at h
    split at h <;> cases h
    rename_i hpc
    left
    split <;> exact ⟨by rw [hpc]; rfl, rfl⟩
  · unfold Receiver.fail at h
    split at h <;> cases h
    · cases hj
    · rename_i hpc
      exact Or.inl ⟨by rw [hpc]; rfl, rfl⟩

/-- A step of an endpoint that does not hold the bit leaves everything about it alone. -/
theorem Receiver.act_keeps {g g' : Ring} {r r' : Receiver} {a : RAct} (hb : b < 32) (h : r.act g a = some (g', r'))
    (hc : r.pc.joined = true → r.connId.getLsbD b = false) : Keeps b g g' := by
  obtain ⟨-, h⟩ | ⟨-, h⟩ | ⟨rfl, -⟩ := Receiver.act_cases h
  · refine Receiver.step_keeps hb h ?_
    by_cases hj : r.pc.joined = true
    · exact Or.inl (hc hj)
    · refine Or.inr ⟨fun x hx => hj ?_, fun m x hx => hj ?_⟩ <;> rw [hx] <;> rfl
  · refine Receiver.disconnect_keeps hb h (hc ?_)
    unfold Receiver.disconnect at h
    split at h
    · rename_i hpc
      rw [hpc]
      rfl
    · cases h
  · exact Keeps.refl b g'

theorem claimed_bit_clear {c : BitVec 32} (hc : c.getLsbD b = true) : ((c ||| (c + 1)) ^^^ c).getLsbD b = false := by
  rw [BitVec.getLsbD_xor, BitVec.getLsbD_or, hc]
  rfl

theorem Alone.step [DecidableEq ι] {act : Act ι} (h : Alone s i b) (hc : s.ring.connections.getLsbD b = true)
    (hst : s.step act = some t) : Alone t i b := by
  rcases State.step_cases hst with ⟨a, g, pc, out, -, -, rfl⟩ | ⟨j, a, g, r, -, hr, rfl⟩
  · exact h
  · intro k hk hj
    simp only [update_apply] at hj ⊢
    split
    · rename_i he
      subst he
      rw [if_pos rfl] at hj
      rcases Receiver.act_joined hr hj with ⟨hjo, hid⟩ | ⟨since, -, -, hid, -⟩
      · rw [hid]; exact h k hk hjo
      · rw [hid]; exact claimed_bit_clear hc
    · rename_i he
      rw [if_neg he] at hj
      exact h k hk hj

/-! ## Reading -/

/-- How far the endpoint is with the fragment at index `k` of the log. -/
def RPc.Reading (log : List MsgT) (k : Nat) : RPc → Prop
  | .ready => True
  | .read j m => j < MsgT.fields ∧ ∃ d, log[k]? = some d ∧ d.Agree j m
  | .relLoad m => log[k]? = some m
  | .relCas m _ => log[k]? = some m
  | .bump m => log[k]? = some m
  | _ => False

/-- Between the release of a slot and the cursor's move the endpoint is done with one more position. -/
def RPc.past : RPc → Nat
  | .bump _ => 1
  | _ => 0

/-- The position an endpoint that started at `a` reads next. -/
def Receiver.next (a : Nat) (r : Receiver) : Nat := a + r.got.length

/-- Receiver `i` is connected with bit `b` and reads, from position `a` on, everything published. -/
structure Attached (w₀ : Nat) (s : State ι) (i : ι) (b a σ : Nat) : Prop where
  connId : (s.recvs i).connId = BitVec.twoPow 32 b
  start : w₀ ≤ a
  start_le : a ≤ pos w₀ s
  cursor : (s.recvs i).readCursor = BitVec.ofNat 32 ((s.recvs i).next a)
  got : (s.recvs i).got <+: s.pushed.drop (a - w₀)
  reading : (s.recvs i).pc.Reading s.pushed ((s.recvs i).next a - w₀)
  guard : Guarded w₀ s b ((s.recvs i).next a + (s.recvs i).pc.past) σ

theorem prefix_snoc {α : Type} {l log : List α} {x : α} (h : l <+: log) (hx : log[l.length]? = some x) :
    l ++ [x] <+: log := by
  obtain ⟨r, rfl⟩ := h
  rw [List.getElem?_append_right (Nat.le_refl _), Nat.sub_self] at hx
  cases r with
  | nil => simp at hx
  | cons y r =>
    simp only [List.getElem?_cons_zero, Option.some.injEq] at hx
    subst hx
    exact ⟨r, by simp⟩

theorem RPc.Reading.append {log : List MsgT} {k : Nat} {pc : RPc} (h : pc.Reading log k) (out : List MsgT) :
    pc.Reading (log ++ out) k := by
  have hx : ∀ d, log[k]? = some d → (log ++ out)[k]? = some d := by
    intro d hd
    rw [List.getElem?_append_left (List.getElem?_eq_some_iff.mp hd).1]
    exact hd
  cases pc <;> simp only [RPc.Reading] at h ⊢
  case read j m =>
    obtain ⟨hj, d, hd, ha⟩ := h
    exact ⟨hj, d, hx d hd, ha⟩
  all_goals exact hx _ h

theorem Guarded.claimed_lt (h : Guarded w₀ s b m σ) (hcl : s.sender.claimed = true) : pos w₀ s < m + 256 := by
  have ho := h.snd
  cases hpc : s.sender <;> rw [hpc] at hcl ho <;> first | exact ho.1 | cases hcl

theorem Guarded.data {p : Nat} (h : Guarded w₀ s b m σ) (hb : Base w₀ s) (hw : w₀ ≤ p) (hm : m ≤ p)
    (hp : p < pos w₀ s) : s.pushed[p - w₀]? = some (slotAt s.ring p).data := by
  refine hb.data p hw hp (by have := h.lap; omega) fun hcl => ?_
  have := h.claimed_lt hcl
  omega

theorem Attached.next_le (h : Attached w₀ s i b a σ) : (s.recvs i).next a ≤ pos w₀ s := by
  have hl := h.got.length_le
  have h1 := h.start
  have h2 := h.start_le
  simp only [List.length_drop, pos, Receiver.next] at *
  omega

theorem Attached.keeps (h : Attached w₀ s i b a σ) (hk : Keeps b s.ring t.ring) (hs : t.sender = s.sender)
    (hp : t.pushed = s.pushed) (hr : t.recvs i = s.recvs i) : Attached w₀ t i b a σ := by
  have hpos : pos w₀ t = pos w₀ s := by simp [pos, hp]
  have hg := h.guard.keeps hk hs hp
  refine ⟨?_, h.start, ?_, ?_, ?_, ?_, ?_⟩
  · rw [hr]; exact h.connId
  · rw [hpos]; exact h.start_le
  · rw [hr]; exact h.cursor
  · rw [hr, hp]; exact h.got
  · rw [hr, hp]; exact h.reading
  · rw [hr]; exact hg

theorem Attached.senderMove {pc : SPc} (h : Attached w₀ s i b a σ)
    (ho : pc.Owes s.ring b ((s.recvs i).next a + (s.recvs i).pc.past) (pos w₀ s)) :
    Attached w₀ { s with sender := pc } i b a σ :=
  ⟨h.connId, h.start, h.start_le, h.cursor, h.got, h.reading, h.guard.move ho⟩

theorem Attached.sender {g' : Ring} {pc : SPc} {out : List MsgT} (h : Attached w₀ s i b a σ) (hb : Base w₀ s)
    (hsp : s.sender.Spares s.ring b ((s.recvs i).next a + (s.recvs i).pc.past) σ (pos w₀ s))
    (hst : s.sender.step s.ring = some (g', pc, out)) :
    Attached w₀ { s with ring := g', sender := pc, pushed := s.pushed ++ out } i b a σ := by
  refine ⟨h.connId, h.start, ?_, h.cursor, ?_, h.reading.append out, h.guard.sender hb hsp hst⟩
  · have := h.start_le
    simp only [pos, List.length_append] at this ⊢
    omega
  · have h1 := h.start
    have h2 := h.start_le
    rw [List.drop_append_of_le_length (by simp only [pos] at h2; omega)]
    exact h.got.trans (List.prefix_append _ _)

theorem Attached.marked (h : Attached w₀ s i b a σ) (hp : (s.recvs i).pc.past = 0) {m : MsgT}
    (hd : s.pushed[(s.recvs i).next a - w₀]? = some m) :
    (s.recvs i).next a < pos w₀ s ∧ (s.ring.slot (s.recvs i).readCursor).rc.getLsbD b = true := by
  have h1 := h.start
  have hlt : (s.recvs i).next a < pos w₀ s := by
    have := (List.getElem?_eq_some_iff.mp hd).1
    simp only [Receiver.next, pos] at this ⊢
    omega
  refine ⟨hlt, ?_⟩
  rw [h.cursor, slot_ofNat]
  exact h.guard.marks _ (by rw [hp]; simp) hlt

section Own
variable [DecidableEq ι]

theorem Attached.move {q : RPc} (h : Attached w₀ s i b a σ)
    (hr : q.Reading s.pushed ((s.recvs i).next a - w₀)) (hp : q.past = (s.recvs i).pc.past) :
    Attached w₀ { s with recvs := update s.recvs i { s.recvs i with pc := q } } i b a σ := by
  refine ⟨?_, h.start, h.start_le, ?_, ?_, ?_, ?_⟩ <;> simp only [update_self]
  · exact h.connId
  · exact h.cursor
  · exact h.got
  · exact hr
  · have hg := h.guard
    rw [← hp] at hg
    exact hg.keeps (Keeps.refl b _) rfl rfl

/-- The emptiness test: a fragment is there unless the cursors are equal. -/
theorem Attached.recv {r : Receiver} (h : Attached w₀ s i b a σ) (hb : Base w₀ s)
    (hst : (s.recvs i).recv s.ring = some r) : Attached w₀ { s with recvs := update s.recvs i r } i b a σ := by
  unfold Receiver.recv at hst
  split at hst
  · rename_i hpc
    cases hst
    split
    · have := h.move (q := .ready) trivial (by rw [hpc])
      rw [← hpc] at this
      exact this
    · rename_i hne
      have hle := h.next_le
      have hlt : (s.recvs i).next a < pos w₀ s := by
        refine Nat.lt_of_le_of_ne hle fun he => hne ?_
        rw [hb.wt, h.cursor, he]
      have hd := h.guard.data hb (p := (s.recvs i).next a)
        (by have := h.start; simp only [Receiver.next]; omega) (by rw [hpc]; simp [RPc.past]) hlt
      exact h.move (q := .read 0 blank) ⟨by decide, _, hd, MsgT.agree_zero _ _⟩ (by rw [hpc]; rfl)
  · cases hst

theorem Attached.copy {k : Nat} {m : MsgT} (h : Attached w₀ s i b a σ) (hb : Base w₀ s)
    (hpc : (s.recvs i).pc = .read k m) :
    Attached w₀ { s with recvs := update s.recvs i { s.recvs i with
      pc := if k + 1 = MsgT.fields then .relLoad ((s.ring.slot (s.recvs i).readCursor).data.copy k m)
        else .read (k + 1) ((s.ring.slot (s.recvs i).readCursor).data.copy k m) } } i b a σ := by
  have hr := h.reading
  rw [hpc] at hr
  obtain ⟨hk, d, hd, hag⟩ := hr
  have h1 := h.start
  have hlt : (s.recvs i).next a < pos w₀ s := by
    have := (List.getElem?_eq_some_iff.mp hd).1
    simp only [Receiver.next, pos] at this ⊢
    omega
  have hdata := h.guard.data hb (p := (s.recvs i).next a) (by simp only [Receiver.next]; omega)
    (by rw [hpc]; simp [RPc.past]) hlt
  have hslot : (s.ring.slot (s.recvs i).readCursor).data = d := by
    rw [h.cursor, slot_ofNat]
    rw [hd] at hdata
    exact (Option.some.inj hdata).symm
  rw [hslot]
  have hag' := hag.copy hk
  refine h.move ?_ (by rw [hpc]; split <;> rfl)
  split
  · rename_i hend
    rw [← hag'.eq (by omega)]
    exact hd
  · exact ⟨by omega, d, hd, hag'⟩

theorem Attached.go {g' : Ring} {r' : Receiver} (h : Attached w₀ s i b a σ) (hb : Base w₀ s)
    (hst : (s.recvs i).step s.ring = some (g', r')) :
    Attached w₀ { s with ring := g', recvs := update s.recvs i r' } i b a σ := by
  have hr := h.reading
  cases hpc : (s.recvs i).pc with
  | ready => simp [Receiver.step, hpc] at hst
  | read k m =>
    simp only [Receiver.step, hpc] at hst
    cases hst
    exact h.copy hb hpc
  | relLoad m =>
    rw [hpc] at hr
    simp only [Receiver.step, hpc] at hst
    cases hst
    obtain ⟨-, hm⟩ := h.marked (by rw [hpc]; rfl) hr
    have hnz : ¬ (s.ring.slot (s.recvs i).readCursor).rc &&& epMask = 0 := by
      refine marked_ne_zero (b := b) ?_
      rw [BitVec.getLsbD_and, hm, getLsbD_epMask]
      simp [h.guard.bit]
    rw [if_neg hnz]
    exact h.move hr (by rw [hpc]; rfl)
  | relCas m rc =>
    rw [hpc] at hr
    simp only [Receiver.step, hpc] at hst
    split at hst <;> cases hst
    · obtain ⟨hlt, -⟩ := h.marked (by rw [hpc]; rfl) hr
      have hg : Guarded w₀ s b ((s.recvs i).next a) σ := by have := h.guard; rw [hpc] at this; exact this
      have hrel := hg.release hlt (rc &&& ~~~((s.recvs i).connId.setWidth 64))
      rw [← h.cursor] at hrel
      refine ⟨?_, h.start, h.start_le, ?_, ?_, ?_, ?_⟩ <;> simp only [update_self]
      · exact h.connId
      · exact h.cursor
      · exact h.got
      · exact hr
      · exact hrel.keeps (Keeps.refl b _) rfl rfl
    · exact h.move hr (by rw [hpc]; rfl)
  | bump m =>
    rw [hpc] at hr
    simp only [Receiver.step, hpc] at hst
    cases hst
    have hg := h.guard
    rw [hpc] at hg
    have hlen : Receiver.next a { s.recvs i with
        readCursor := (s.recvs i).readCursor + 1, pc := .ready, got := (s.recvs i).got ++ [m] } =
        (s.recvs i).next a + 1 := by
      simp only [Receiver.next, List.length_append, List.length_singleton]
      omega
    refine ⟨?_, h.start, h.start_le, ?_, ?_, ?_, ?_⟩ <;> simp only [update_self]
    · exact h.connId
    · rw [hlen, h.cursor, Bits.ofNat_add_one]
    · exact prefix_snoc h.got (by
        rw [List.getElem?_drop]
        have h1 := h.start
        have he : a - w₀ + (s.recvs i).got.length = (s.recvs i).next a - w₀ := by simp only [Receiver.next]; omega
        rw [he]
        exact hr)
    · trivial
    · rw [hlen]
      exact hg.keeps (Keeps.refl b _) rfl rfl
  | _ => rw [hpc] at hr; exact hr.elim

theorem Attached.fail {r : Receiver} (h : Attached w₀ s i b a σ) (hst : (s.recvs i).fail = some r) :
    Attached w₀ { s with recvs := update s.recvs i r } i b a σ := by
  have hr := h.reading
  unfold Receiver.fail at hst
  split at hst <;> cases hst
  · rename_i hpc
    rw [hpc] at hr
    exact hr.elim
  · rename_i hpc
    rw [hpc] at hr
    exact h.move hr (by rw [hpc]; rfl)

/-- **A receiver that stays connected keeps its place** in every step that spares its bit. -/
theorem Attached.step {act : Act ι} (h : Attached w₀ s i b a σ) (hb : Base w₀ s) (ha : Alone s i b)
    (hd : act ≠ .recv i .disconnect)
    (hsp : act = .sender .go → s.sender.Spares s.ring b ((s.recvs i).next a + (s.recvs i).pc.past) σ (pos w₀ s))
    (hst : s.step act = some t) : Attached w₀ t i b a σ := by
  rcases State.step_cases hst with ⟨sa, g, pc, out, rfl, hp, rfl⟩ | ⟨j, ra, g, r, rfl, hr, rfl⟩
  · rcases SPc.act_cases hp with ⟨rfl, hp⟩ | ⟨rfl, rfl, hmv⟩
    · exact h.sender hb (hsp rfl) hp
    · rw [List.append_nil]
      refine h.senderMove ?_
      obtain ⟨f, -, -, rfl⟩ | ⟨f, cc, ep, wt, rc, -, -, rfl⟩ | ⟨f, cc, wt, -, -, rfl⟩ := hmv <;> trivial
  · by_cases hj : i = j
    · subst hj
      obtain ⟨-, hr⟩ | ⟨rfl, -⟩ | ⟨rfl, ⟨pid, tok, -, hr⟩ | ⟨-, hr⟩ | ⟨-, hr⟩⟩ := Receiver.act_cases hr
      · exact h.go hb hr
      · exact absurd rfl hd
      · -- an attached endpoint is not closed
        have hrd := h.reading
        unfold Receiver.open at hr
        split at hr <;> cases hr
        rename_i hpc
        rw [hpc] at hrd
        exact hrd.elim
      · exact h.recv hb hr
      · exact h.fail hr
    · refine h.keeps (Receiver.act_keeps h.guard.bit hr (ha j (Ne.symm hj))) rfl rfl ?_
      exact update_of_ne hj r s.recvs

end Own

/-! ## Following the sender -/

/-- The sender is idle at position `w₀` and nothing has been published yet. -/
structure AtRest (w₀ : Nat) (s : State ι) : Prop where
  idle : s.sender = .idle
  wt : s.ring.writeCursor = BitVec.ofNat 32 w₀
  epoch : LowClear s.ring.epoch
  pushed : s.pushed = []

theorem AtRest.pos_eq (h : AtRest w₀ s) : pos w₀ s = w₀ := by simp [pos, h.pushed]

theorem AtRest.base (h : AtRest w₀ s) : Base w₀ s := by
  have hpos := h.pos_eq
  refine ⟨?_, h.epoch, ?_, fun p h1 h2 => ?_, ?_⟩
  · rw [hpos]; exact h.wt
  · rw [h.idle]; trivial
  · omega
  · rw [h.idle]; trivial

theorem AtRest.current (h : AtRest w₀ s) : Current w₀ s := by
  have hpos := h.pos_eq
  refine ⟨?_, fun p h1 h2 => ?_, ?_⟩
  · rw [h.idle]; rfl
  · omega
  · rw [h.idle]; nofun

/-- Receiver `i` is connected with bit `b` where the write cursor stands, and nothing has been published since. -/
structure Connected (w₀ : Nat) (i : ι) (b : Nat) (s : State ι) : Prop extends AtRest w₀ s where
  bit : b < 32
  conn : s.ring.connections.getLsbD b = true
  since : (s.ring.owners b).since = BitVec.ofNat 32 w₀
  connId : (s.recvs i).connId = BitVec.twoPow 32 b
  cursor : (s.recvs i).readCursor = BitVec.ofNat 32 w₀
  ready : (s.recvs i).pc = .ready
  got : (s.recvs i).got = []
  alone : Alone s i b

/-- Somebody disconnects. -/
def Act.leaves : Act ι → Bool
  | .recv _ .disconnect => true
  | _ => false

/-- Nobody leaves, the sender's wait does not time out, and fewer than `2 ^ 31` fragments have been published. -/
def undisturbed (s : State ι) (act : Act ι) : Prop :=
  act ≠ .sender .timeout ∧ act.leaves = false ∧ s.pushed.length < 2 ^ 31

instance [DecidableEq ι] (s : State ι) (act : Act ι) : Decidable (undisturbed s act) :=
  inferInstanceAs (Decidable (_ ∧ _))

/-- The ring is in order, the bit is the receiver's alone, and the receiver is attached. -/
structure Follows (w₀ : Nat) (s : State ι) (i : ι) (b a σ : Nat) : Prop where
  base : Base w₀ s
  alone : Alone s i b
  attached : Attached w₀ s i b a σ

theorem Follows.step [DecidableEq ι] {act : Act ι} (h : Follows w₀ s i b a σ) (hd : act ≠ .recv i .disconnect)
    (hsp : act = .sender .go → s.sender.Spares s.ring b ((s.recvs i).next a + (s.recvs i).pc.past) σ (pos w₀ s))
    (hst : s.step act = some t) : Follows w₀ t i b a σ :=
  ⟨h.base.step hst, h.alone.step h.attached.guard.conn hst, h.attached.step h.base h.alone hd hsp hst⟩

theorem Connected.follows (h : Connected w₀ i b s) : Follows w₀ s i b w₀ w₀ := by
  have hpos := h.pos_eq
  have hnext : (s.recvs i).next w₀ = w₀ := by simp [Receiver.next, h.got]
  refine ⟨h.base, h.alone,
    ⟨h.connId, Nat.le_refl _, by omega, ?_, ?_, ?_, h.bit, h.conn, h.since, ?_, fun p h1 h2 => ?_, ?_, ?_⟩⟩
  · rw [hnext]; exact h.cursor
  · rw [h.got]; exact List.nil_prefix
  · rw [h.ready]; trivial
  · omega
  · omega
  · omega
  · rw [h.idle]; trivial

/-- What a receiver that started at position `a` sees of the route: it has read, in order and each once, what was
published from there on; what it has not read is intact; and it is at most a lap behind. -/
structure Lossless (w₀ a : Nat) (s : State ι) (i : ι) : Prop where
  wt : s.ring.writeCursor = BitVec.ofNat 32 (w₀ + s.pushed.length)
  cursor : (s.recvs i).readCursor = BitVec.ofNat 32 (a + (s.recvs i).got.length)
  got : (s.recvs i).got <+: s.pushed.drop (a - w₀)
  lap : w₀ + s.pushed.length ≤ a + (s.recvs i).got.length + (s.recvs i).pc.past + 256
  unread : ∀ p, a + (s.recvs i).got.length + (s.recvs i).pc.past ≤ p → p < w₀ + s.pushed.length →
    s.pushed[p - w₀]? = some (slotAt s.ring p).data

theorem Follows.lossless (h : Follows w₀ s i b a σ) : Lossless w₀ a s i := by
  have ha := h.attached
  refine ⟨h.base.wt, ha.cursor, ha.got, ha.guard.lap, fun p h1 h2 => ?_⟩
  have hs := ha.start
  exact ha.guard.data h.base (by omega) h1 h2

end ThothIpc.Route
