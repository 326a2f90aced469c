import ThothIpc.Table.Reap

/-!
# The owner table at rest

`disconnect` clears the connection bit first and then the two words of the record; `open` claims the bit first and then
stores the two words. A newcomer that gets the bit in between may store its record before the leaver clears it.

* `ordered` : a leaver clears a word of the record only before the newcomer on its bit has stored that word;
* `table_consistent` : then the table is right whenever nobody is connecting or disconnecting.
-/

namespace ThothIpc.Table
open Function Steps

variable {π ι ρ : Type} {W : World π}

section Steps

/-- Receivers connect and disconnect, and nothing else happens. -/
def churns : Act π ι ρ → Prop
  | .opens .. | .go _ | .fail _ | .disconnect _ => True
  | _ => False

/-- A leaver clears a word of its record only before a newcomer on its bit has stored that word. -/
def ordered (s : State W ι ρ) : Act π ι ρ → Prop
  | .go i =>
    match (s.recvs i).pc with
    | .clearPid => ∀ j, (s.recvs j).pc = .ready → (s.recvs j).connId ≠ (s.recvs i).connId
    | .clearTok => ∀ j, (s.recvs j).pc = .ownerPid ∨ (s.recvs j).pc = .ready → (s.recvs j).connId ≠ (s.recvs i).connId
    | _ => True
  | _ => True

/-- Nobody is connecting or disconnecting. -/
def State.rests (s : State W ι ρ) : Prop := ∀ i, (s.recvs i).pc = .closed ∨ (s.recvs i).pc = .ready

/-- What a receiver has stored is still there. -/
structure Stored (W : World π) (o : SlotOwner) (q : π) (c : Pc) : Prop where
  tok : c = .ownerPid ∨ c = .ready → o.startTok = W.tok q
  pid : c = .ready → o.pid = W.pid q

theorem Stored.of_other {o : SlotOwner} {q : π} {c : Pc} (h1 : c ≠ .ownerPid) (h2 : c ≠ .ready) : Stored W o q c :=
  ⟨fun h => h.elim (fun h => absurd h h1) fun h => absurd h h2, fun h => absurd h h2⟩

/-- The receiver has a word of its record left to clear. -/
def Pc.leaving : Pc → Bool
  | .clearPid | .clearTok => true
  | _ => false

theorem Pc.not_leaving_of_holds {c : Pc} (h : c.holds = true) : c.leaving = false := by
  cases c <;> first | rfl | cases h

theorem Pc.of_not_uses {c : Pc} (h : c.uses = false) :
    c.holds = false ∧ c.leaving = false ∧ c ≠ .ownerPid ∧ c ≠ .ready ∧ c ≠ .clearPid := by
  cases c <;> first | exact ⟨rfl, rfl, by simp, by simp, by simp⟩ | cases h

structure Tidy (s : State W ι ρ) : Prop where
  bit : ∀ i, (s.recvs i).pc.uses = true → ∃ l < 32, (s.recvs i).connId = BitVec.twoPow 32 l
  conn : ∀ i l, (s.recvs i).pc.holds = true → (s.recvs i).connId = BitVec.twoPow 32 l → s.connections.getLsbD l = true
  room : ∀ i since curr, (s.recvs i).pc = .casConns since curr → curr ||| (curr + 1) ≠ curr
  unique : ∀ i j, (s.recvs i).pc.holds = true → (s.recvs j).pc.holds = true →
    (s.recvs i).connId = (s.recvs j).connId → i = j
  stored : ∀ i, Stored W (s.record i) (s.recvs i).proc (s.recvs i).pc
  set : ∀ l < 32, s.connections.getLsbD l = true → ∃ i, (s.recvs i).pc.holds = true ∧
    (s.recvs i).connId = BitVec.twoPow 32 l
  pid : ∀ l < 32, s.connections.getLsbD l = false → (s.owners l).pid = 0 ∨
    ∃ i, (s.recvs i).pc = .clearPid ∧ (s.recvs i).connId = BitVec.twoPow 32 l
  tok : ∀ l < 32, s.connections.getLsbD l = false → (s.owners l).startTok = 0 ∨
    ∃ i, (s.recvs i).pc.leaving = true ∧ (s.recvs i).connId = BitVec.twoPow 32 l

variable {s t : State W ι ρ} {i : ι}

/-- Nobody is connected, and the table is zero. -/
structure Zeroed (s : State W ι ρ) : Prop where
  closed : ∀ i, (s.recvs i).pc = .closed
  connections : s.connections = 0
  owners : ∀ l, (s.owners l).pid = 0 ∧ (s.owners l).startTok = 0

theorem Zeroed.tidy (h : Zeroed s) : Tidy s := by
  refine ⟨fun i hi => ?_, fun i _ hi => ?_, fun i _ _ hi => ?_, fun i _ hi => ?_, fun i => ?_, fun l _ hc => ?_,
    fun l _ _ => Or.inl (h.owners l).1, fun l _ _ => Or.inl (h.owners l).2⟩
  · rw [h.closed] at hi; cases hi
  · rw [h.closed] at hi; cases hi
  · rw [h.closed] at hi; cases hi
  · rw [h.closed] at hi; cases hi
  · rw [h.closed]; exact Stored.of_other (by simp) (by simp)
  · rw [h.connections] at hc; simp at hc

namespace Tidy

/-! ### Who else -/

theorem other {p : Pc → Prop} {l : Nat} (h : ∃ j, p (s.recvs j).pc ∧ (s.recvs j).connId = BitVec.twoPow 32 l)
    (hi : p (s.recvs i).pc → (s.recvs i).connId ≠ BitVec.twoPow 32 l) :
    ∃ j, j ≠ i ∧ p (s.recvs j).pc ∧ (s.recvs j).connId = BitVec.twoPow 32 l := by
  obtain ⟨j, hj, hid⟩ := h
  exact ⟨j, fun he => hi (he ▸ hj) (he ▸ hid), hj, hid⟩

theorem set_other (h : Tidy s) {l : Nat} (hl : l < 32) (hc : s.connections.getLsbD l = true)
    (hi : (s.recvs i).pc.holds = true → (s.recvs i).connId ≠ BitVec.twoPow 32 l) :
    ∃ j, j ≠ i ∧ (s.recvs j).pc.holds = true ∧ (s.recvs j).connId = BitVec.twoPow 32 l :=
  other (p := fun c => c.holds = true) (h.set l hl hc) hi

theorem pid_other (h : Tidy s) {l : Nat} {q : Prop} (hl : l < 32) (hc : s.connections.getLsbD l = false)
    (hi : (s.recvs i).pc = .clearPid → (s.recvs i).connId ≠ BitVec.twoPow 32 l) : (s.owners l).pid = 0 ∨ q ∨
      ∃ j, j ≠ i ∧ (s.recvs j).pc = .clearPid ∧ (s.recvs j).connId = BitVec.twoPow 32 l :=
  (h.pid l hl hc).imp_right fun hx => Or.inr (other (p := fun c => c = .clearPid) hx hi)

theorem tok_other (h : Tidy s) {l : Nat} {q : Prop} (hl : l < 32) (hc : s.connections.getLsbD l = false)
    (hi : (s.recvs i).pc.leaving = true → (s.recvs i).connId ≠ BitVec.twoPow 32 l) : (s.owners l).startTok = 0 ∨ q ∨
      ∃ j, j ≠ i ∧ (s.recvs j).pc.leaving = true ∧ (s.recvs j).connId = BitVec.twoPow 32 l :=
  (h.tok l hl hc).imp_right fun hx => Or.inr (other (p := fun c => c.leaving = true) hx hi)

theorem setOwner_at {b l : Nat} {c : BitVec 32} {f : SlotOwner → SlotOwner} (hb : b < 32) (hc : c = BitVec.twoPow 32 b) :
    s.setOwner c f l = if l = b then f (s.owners b) else s.owners l := by
  rw [State.setOwner, hc, slotIndex_twoPow hb, update_apply]

/-! ### The steps -/

variable [DecidableEq ι]

theorem move (h : Tidy s) {x : Receiver π} {c : BitVec 32} {o : Nat → SlotOwner} {g : Nat → Option ι}
    (hbit : x.pc.uses = true → ∃ l < 32, x.connId = BitVec.twoPow 32 l)
    (hconn : ∀ l, x.pc.holds = true → x.connId = BitVec.twoPow 32 l → c.getLsbD l = true)
    (hkeep : ∀ j l, j ≠ i → (s.recvs j).pc.holds = true → (s.recvs j).connId = BitVec.twoPow 32 l →
      s.connections.getLsbD l = true → c.getLsbD l = true)
    (hroom : ∀ since curr, x.pc = .casConns since curr → curr ||| (curr + 1) ≠ curr)
    (huniq : x.pc.holds = true → ∀ j, j ≠ i → (s.recvs j).pc.holds = true → (s.recvs j).connId ≠ x.connId)
    (hst : Stored W (o (slotIndex x.connId)) x.proc x.pc)
    (hoth : ∀ j, j ≠ i → Stored W (o (slotIndex (s.recvs j).connId)) (s.recvs j).proc (s.recvs j).pc)
    (hset : ∀ l < 32, c.getLsbD l = true → (x.pc.holds = true ∧ x.connId = BitVec.twoPow 32 l) ∨
      ∃ j, j ≠ i ∧ (s.recvs j).pc.holds = true ∧ (s.recvs j).connId = BitVec.twoPow 32 l)
    (hpid : ∀ l < 32, c.getLsbD l = false → (o l).pid = 0 ∨ (x.pc = .clearPid ∧ x.connId = BitVec.twoPow 32 l) ∨
      ∃ j, j ≠ i ∧ (s.recvs j).pc = .clearPid ∧ (s.recvs j).connId = BitVec.twoPow 32 l)
    (htok : ∀ l < 32, c.getLsbD l = false → (o l).startTok = 0 ∨
      (x.pc.leaving = true ∧ x.connId = BitVec.twoPow 32 l) ∨
      ∃ j, j ≠ i ∧ (s.recvs j).pc.leaving = true ∧ (s.recvs j).connId = BitVec.twoPow 32 l) :
    Tidy { s with connections := c, owners := o, recvs := update s.recvs i x, holder := g } := by
  have hr : ∀ j, update s.recvs i x j = if j = i then x else s.recvs j := fun j => update_apply ..
  have hself : update s.recvs i x i = x := update_self ..
  have hne : ∀ j, j ≠ i → update s.recvs i x j = s.recvs j := fun j hj => update_of_ne hj ..
  refine ⟨fun j => ?_, fun j l => ?_, fun j since curr => ?_, fun j k => ?_, fun j => ?_, fun l hl hc => ?_,
    fun l hl hc => ?_, fun l hl hc => ?_⟩
  · simp only [hr]
    split
    · exact hbit
    · exact h.bit j
  · simp only [hr]
    split
    · exact hconn l
    · rename_i hj
      exact fun hho hid => hkeep j l hj hho hid (h.conn j l hho hid)
  · simp only [hr]
    split
    · exact hroom since curr
    · exact h.room j since curr
  · simp only [hr]
    split <;> split
    · rename_i h1 h2; exact fun _ _ _ => h1.trans h2.symm
    · rename_i h1 h2; exact fun hj hk he => absurd he.symm (huniq hj k h2 hk)
    · rename_i h1 h2; exact fun hj hk he => absurd he (huniq hk j h1 hj)
    · exact h.unique j k
  · simp only [State.record, hr]
    split
    · exact hst
    · rename_i hj; exact hoth j hj
  · rcases hset l hl hc with hx | ⟨j, hj, hx⟩
    · exact ⟨i, by simpa only [hself] using hx⟩
    · exact ⟨j, by simpa only [hne j hj] using hx⟩
  · rcases hpid l hl hc with hx | hx | ⟨j, hj, hx⟩
    · exact Or.inl hx
    · exact Or.inr ⟨i, by simpa only [hself] using hx⟩
    · exact Or.inr ⟨j, by simpa only [hne j hj] using hx⟩
  · rcases htok l hl hc with hx | hx | ⟨j, hj, hx⟩
    · exact Or.inl hx
    · exact Or.inr ⟨i, by simpa only [hself] using hx⟩
    · exact Or.inr ⟨j, by simpa only [hne j hj] using hx⟩

theorem idle (h : Tidy s) {x : Receiver π} (ho : (s.recvs i).pc.uses = false) (hu : x.pc.uses = false)
    (hroom : ∀ since curr, x.pc = .casConns since curr → curr ||| (curr + 1) ≠ curr) :
    Tidy { s with recvs := update s.recvs i x } := by
  obtain ⟨hio, hil, -, -, hic⟩ := Pc.of_not_uses ho
  obtain ⟨hxo, -, hx1, hx2, -⟩ := Pc.of_not_uses hu
  refine h.move (c := s.connections) (o := s.owners) (g := s.holder) (fun hc => by rw [hu] at hc; cases hc)
    (fun _ hc => by rw [hxo] at hc; cases hc) (fun _ _ _ _ _ hc => hc) hroom (fun hc => by rw [hxo] at hc; cases hc)
    (Stored.of_other hx1 hx2) (fun j _ => h.stored j) (fun l hl hc => Or.inr ?_) (fun l hl hc => ?_) (fun l hl hc => ?_)
  · exact h.set_other hl hc fun hc => by rw [hio] at hc; cases hc
  · exact h.pid_other hl hc fun hc => absurd hc hic
  · exact h.tok_other hl hc fun hc => by rw [hil] at hc; cases hc

/-- The holder of a bit moves on with it, and writes only its record. -/
theorem own (h : Tidy s) {c : Pc} {f : SlotOwner → SlotOwner} (ho : (s.recvs i).pc.holds = true) (hx : c.holds = true)
    (hst : Stored W (f (s.record i)) (s.recvs i).proc c) :
    Tidy { s with
      owners := s.setOwner (s.recvs i).connId f
      recvs := update s.recvs i { s.recvs i with pc := c } } := by
  have huse := Pc.uses_of_engaged (Pc.engaged_of_holds ho)
  have hbit := h.bit i huse
  obtain ⟨b, hb, hid⟩ := hbit
  have hset : s.connections.getLsbD b = true := h.conn i b ho hid
  -- a clear bit is another one, so its record is not written
  have howner : ∀ l < 32, s.connections.getLsbD l = false → s.setOwner (s.recvs i).connId f l = s.owners l := by
    intro l hl hc
    rw [State.setOwner, hid, slotIndex_twoPow hb, update_of_ne]
    rintro rfl
    rw [hset] at hc
    cases hc
  have hnl := Pc.not_leaving_of_holds ho
  have hnc : (s.recvs i).pc ≠ .clearPid := fun he => by rw [he] at hnl; cases hnl
  refine h.move (x := { s.recvs i with pc := c }) (c := s.connections) (g := s.holder) (fun _ => ⟨b, hb, hid⟩)
    (fun l _ hl => h.conn i l ho hl) (fun _ _ _ _ _ hc => hc) (fun _ _ he => by simp only at he; rw [he] at hx; cases hx)
    (fun _ j hj hjo he => hj (h.unique j i hjo ho he)) ?_ (fun j hj => ?_) (fun l hl hc => ?_) (fun l hl hc => ?_)
    (fun l hl hc => ?_)
  · rw [setOwner_self]
    exact hst
  · by_cases hjr : (s.recvs j).pc = .ownerPid ∨ (s.recvs j).pc = .ready
    · have hjo : (s.recvs j).pc.holds = true := by rcases hjr with he | he <;> rw [he] <;> rfl
      rw [setOwner_of_ne ⟨b, hb, hid⟩ (h.bit j (Pc.uses_of_engaged (Pc.engaged_of_holds hjo)))
        fun he => hj (h.unique j i hjo ho he)]
      exact h.stored j
    · rw [not_or] at hjr
      exact Stored.of_other hjr.1 hjr.2
  · by_cases hlb : (s.recvs i).connId = BitVec.twoPow 32 l
    · exact Or.inl ⟨hx, hlb⟩
    · exact Or.inr (h.set_other hl hc fun _ => hlb)
  · rw [howner l hl hc]
    exact h.pid_other hl hc fun hc => absurd hc hnc
  · rw [howner l hl hc]
    exact h.tok_other hl hc fun hc => by rw [hnl] at hc; cases hc

theorem claim (h : Tidy s) {since curr : BitVec 32} (hpc : (s.recvs i).pc = .casConns since curr)
    (hcc : s.connections = curr) {g : Nat → Option ι} :
    Tidy { s with
      connections := curr ||| (curr + 1)
      recvs := update s.recvs i { s.recvs i with connId := claimBit curr, pc := .setSince since }
      holder := g } := by
  obtain ⟨b, hb, hbit, hclear, hor⟩ := claimBit_spec (h.room i since curr hpc)
  have hmono : ∀ l, s.connections.getLsbD l = true → (curr ||| (curr + 1)).getLsbD l = true := by
    intro l hl
    rw [hor, ← hcc, hl, Bool.true_or]
  have hback : ∀ l, (curr ||| (curr + 1)).getLsbD l = false → s.connections.getLsbD l = false := by
    intro l hl
    rw [hor, Bool.or_eq_false_iff] at hl
    rw [hcc]
    exact hl.1
  refine h.move (x := { s.recvs i with connId := claimBit curr, pc := .setSince since }) (o := s.owners)
    (fun _ => ⟨b, hb, hbit⟩) (fun l _ hl => ?_) (fun j l _ _ _ hc => hmono l hc) (fun _ _ he => by cases he)
    (fun _ j _ hjo he => ?_) (Stored.of_other (by simp) (by simp)) (fun j _ => h.stored j) (fun l hl hc => ?_)
    (fun l hl hc => ?_) (fun l hl hc => ?_)
  · have := Bits.twoPow_inj hb (hbit.symm.trans hl)
    rw [hor, this]
    simp
  · -- a holder's bit is set, this one is clear
    have := h.conn j b hjo (by rw [he]; exact hbit)
    rw [hcc, hclear] at this
    cases this
  · by_cases hlb : l = b
    · exact Or.inl ⟨rfl, by rw [hlb]; exact hbit⟩
    · rw [hor, ← hcc] at hc
      simp only [hlb, decide_false, Bool.or_false] at hc
      exact Or.inr (h.set_other hl hc fun ho => by rw [hpc] at ho; cases ho)
  · exact h.pid_other hl (hback l hc) fun he => by rw [hpc] at he; cases he
  · exact h.tok_other hl (hback l hc) fun he => by rw [hpc] at he; cases he

theorem leave (h : Tidy s) (hpc : (s.recvs i).pc = .ready) {g : Nat → Option ι} :
    Tidy { s with
      connections := s.connections &&& ~~~(s.recvs i).connId
      recvs := update s.recvs i { s.recvs i with pc := .clearPid }
      holder := g } := by
  have ho : (s.recvs i).pc.holds = true := by rw [hpc]; rfl
  obtain ⟨b, hb, hid⟩ := h.bit i (by rw [hpc]; rfl)
  have hand : ∀ l < 32, (s.connections &&& ~~~(s.recvs i).connId).getLsbD l =
      (s.connections.getLsbD l && decide (l ≠ b)) := by
    intro l hl
    rw [hid]
    by_cases hlb : l = b
    · simp [hlb, hb]
    · simp [hl, hlb]
  refine h.move (x := { s.recvs i with pc := .clearPid }) (o := s.owners) (fun _ => ⟨b, hb, hid⟩)
    (fun _ hc => by cases hc) (fun j l hj hjo hjl hc => ?_) (fun _ _ he => by cases he) (fun hc => by cases hc)
    (Stored.of_other (by simp) (by simp)) (fun j _ => h.stored j) (fun l hl hc => ?_) (fun l hl hc => ?_)
    (fun l hl hc => ?_)
  · have hl : l < 32 := by
      by_contra hge
      rw [BitVec.getLsbD_of_ge _ _ (by omega)] at hc
      cases hc
    rw [hand l hl, hc, Bool.true_and, decide_eq_true_eq]
    rintro rfl
    exact hj (h.unique j i hjo ho (hjl.trans hid.symm))
  · rw [hand l hl, Bool.and_eq_true, decide_eq_true_eq] at hc
    exact Or.inr (h.set_other hl hc.1 fun _ he => hc.2 (Bits.twoPow_inj hb (hid.symm.trans he)).symm)
  · by_cases hlb : l = b
    · exact Or.inr (Or.inl ⟨rfl, by rw [hlb]; exact hid⟩)
    · rw [hand l hl] at hc
      simp only [ne_eq, hlb, not_false_eq_true, decide_true, Bool.and_true] at hc
      exact h.pid_other hl hc fun he => by rw [hpc] at he; cases he
  · by_cases hlb : l = b
    · exact Or.inr (Or.inl ⟨rfl, by rw [hlb]; exact hid⟩)
    · rw [hand l hl] at hc
      simp only [ne_eq, hlb, not_false_eq_true, decide_true, Bool.and_true] at hc
      exact h.tok_other hl hc fun he => by rw [hpc] at he; cases he

theorem clearPid (h : Tidy s) (hpc : (s.recvs i).pc = .clearPid)
    (hok : ∀ j, (s.recvs j).pc = .ready → (s.recvs j).connId ≠ (s.recvs i).connId) :
    Tidy { s with
      owners := s.setOwner (s.recvs i).connId fun o => { o with pid := 0 }
      recvs := update s.recvs i { s.recvs i with pc := .clearTok } } := by
  obtain ⟨b, hb, hid⟩ := h.bit i (by rw [hpc]; rfl)
  refine h.move (x := { s.recvs i with pc := .clearTok }) (c := s.connections) (g := s.holder) (fun _ => ⟨b, hb, hid⟩)
    (fun _ hc => by cases hc) (fun _ _ _ _ _ hc => hc) (fun _ _ he => by cases he) (fun hc => by cases hc)
    (Stored.of_other (by simp) (by simp)) (fun j _ => ⟨fun hj => ?_, fun hj => ?_⟩) (fun l hl hc => Or.inr ?_)
    (fun l hl hc => ?_) (fun l hl hc => ?_)
  · rw [State.setOwner, apply_update fun _ => SlotOwner.startTok, update_eq_self]
    exact (h.stored j).tok hj
  · rw [setOwner_of_ne ⟨b, hb, hid⟩ (h.bit j (by rw [hj]; rfl)) (hok j hj)]
    exact (h.stored j).pid hj
  · exact h.set_other hl hc fun he => by rw [hpc] at he; cases he
  · rw [setOwner_at hb hid]
    split
    · exact Or.inl rfl
    · rename_i hlb
      exact h.pid_other hl hc fun _ he => hlb (Bits.twoPow_inj hb (hid.symm.trans he)).symm
  · rw [setOwner_at hb hid]
    split
    · rename_i hlb; exact Or.inr (Or.inl ⟨rfl, by rw [hlb]; exact hid⟩)
    · rename_i hlb
      exact h.tok_other hl hc fun _ he => hlb (Bits.twoPow_inj hb (hid.symm.trans he)).symm

theorem clearTok (h : Tidy s) (hpc : (s.recvs i).pc = .clearTok)
    (hok : ∀ j, (s.recvs j).pc = .ownerPid ∨ (s.recvs j).pc = .ready → (s.recvs j).connId ≠ (s.recvs i).connId) :
    Tidy { s with
      owners := s.setOwner (s.recvs i).connId fun o => { o with startTok := 0 }
      recvs := update s.recvs i { s.recvs i with pc := .closed } } := by
  obtain ⟨b, hb, hid⟩ := h.bit i (by rw [hpc]; rfl)
  refine h.move (x := { s.recvs i with pc := .closed }) (c := s.connections) (g := s.holder) (fun hc => by cases hc)
    (fun _ hc => by cases hc) (fun _ _ _ _ _ hc => hc) (fun _ _ he => by cases he) (fun hc => by cases hc)
    (Stored.of_other (by simp) (by simp)) (fun j _ => ⟨fun hj => ?_, fun hj => ?_⟩) (fun l hl hc => Or.inr ?_)
    (fun l hl hc => ?_) (fun l hl hc => ?_)
  · have huse : (s.recvs j).pc.uses = true := by rcases hj with he | he <;> rw [he] <;> rfl
    rw [setOwner_of_ne ⟨b, hb, hid⟩ (h.bit j huse) (hok j hj)]
    exact (h.stored j).tok hj
  · rw [setOwner_of_ne ⟨b, hb, hid⟩ (h.bit j (by rw [hj]; rfl)) (hok j (Or.inr hj))]
    exact (h.stored j).pid hj
  · exact h.set_other hl hc fun he => by rw [hpc] at he; cases he
  · rw [State.setOwner, apply_update fun _ => SlotOwner.pid, update_eq_self]
    exact h.pid_other hl hc fun he => by rw [hpc] at he; cases he
  · rw [setOwner_at hb hid]
    split
    · exact Or.inl rfl
    · rename_i hlb
      exact h.tok_other hl hc fun _ he => hlb (Bits.twoPow_inj hb (hid.symm.trans he)).symm

theorem recvStep (h : Tidy s) (hok : ordered s (.go i)) (hst : s.recvStep i = some t) : Tidy t := by
  have hstd := h.stored i
  unfold State.recvStep at hst
  simp only [ordered] at hok
  cases hpc : (s.recvs i).pc with
  | closed => simp only [hpc] at hst; cases hst
  | loadConns since =>
    simp only [hpc] at hst
    have hu : (s.recvs i).pc.uses = false := by rw [hpc]; rfl
    split at hst <;> cases hst
    · exact h.idle (x := { s.recvs i with pc := .closed }) hu rfl (fun _ _ he => by cases he)
    · rename_i hne
      exact h.idle (x := { s.recvs i with pc := .casConns since s.connections }) hu rfl
        (fun _ _ he => by cases he; exact hne)
  | casConns since curr =>
    simp only [hpc] at hst
    split at hst <;> cases hst
    · rename_i hcc
      exact h.claim hpc hcc
    · exact h.idle (x := { s.recvs i with pc := .loadConns since }) (by rw [hpc]; rfl) rfl (fun _ _ he => by cases he)
  | setSince since =>
    simp only [hpc] at hst
    cases hst
    exact h.own (c := .adopt) (by rw [hpc]; rfl) rfl (Stored.of_other (by simp) (by simp))
  | adopt =>
    simp only [hpc] at hst
    cases hst
    have hm := h.own (i := i) (c := .ownerTok) (f := fun o => o) (by rw [hpc]; rfl) rfl
      (Stored.of_other (by simp) (by simp))
    rwa [setOwner_id] at hm
  | ownerTok =>
    simp only [hpc] at hst
    cases hst
    exact h.own (c := .ownerPid) (by rw [hpc]; rfl) rfl ⟨fun _ => rfl, fun he => by cases he⟩
  | ownerPid =>
    simp only [hpc] at hst
    cases hst
    rw [hpc] at hstd
    exact h.own (c := .ready) (by rw [hpc]; rfl) rfl ⟨fun _ => hstd.tok (Or.inl rfl), fun _ => rfl⟩
  | ready => simp only [hpc] at hst; cases hst
  | clearPid =>
    simp only [hpc] at hst hok
    cases hst
    exact h.clearPid hpc hok
  | clearTok =>
    simp only [hpc] at hst hok
    cases hst
    exact h.clearTok hpc hok

variable [DecidableEq ρ] [DecidableEq π]

theorem step {act : Act π ι ρ} (h : Tidy s) (hch : churns act) (hok : ordered s act) (hst : s.step act = some t) :
    Tidy t := by
  cases act with
  | opens i q since =>
    simp only [State.step] at hst
    split at hst <;> cases hst
    rename_i hq
    exact h.idle (x := { s.recvs i with proc := q, pc := .loadConns since }) (by rw [hq.2]; rfl) rfl
      (fun _ _ he => by cases he)
  | go i =>
    simp only [State.step] at hst
    split at hst
    · exact h.recvStep hok hst
    · cases hst
  | fail i =>
    simp only [State.step] at hst
    split at hst
    · rename_i since curr hpc
      split at hst <;> cases hst
      exact h.idle (x := { s.recvs i with pc := .loadConns since }) (by rw [hpc]; rfl) rfl (fun _ _ he => by cases he)
    · cases hst
  | disconnect i =>
    simp only [State.step] at hst
    split at hst <;> cases hst
    rename_i hi
    exact h.leave hi.2
  | spawn q => exact hch.elim
  | kill q => exact hch.elim
  | evict mask => exact hch.elim
  | reap r q => exact hch.elim
  | reapGo r => exact hch.elim

end Tidy

variable [DecidableEq ι] [DecidableEq ρ] [DecidableEq π]

/-- **At rest the owner table is right**: the record of every set bit is that of the receiver that holds it, and the
record of every clear bit is zero, if every step is `ordered`. -/
theorem table_consistent {s₀ : State W ι ρ} {acts : List (Act π ι ρ)} (h0 : Zeroed s₀)
    (hrun : Run State.step (fun s act => churns act ∧ ordered s act) s₀ acts s) (hrest : s.rests) :
    (∀ l < 32, s.connections.getLsbD l = true → ∃ i, (s.recvs i).pc = .ready ∧ (s.recvs i).connId = BitVec.twoPow 32 l ∧
      (s.owners l).pid = W.pid (s.recvs i).proc ∧ (s.owners l).startTok = W.tok (s.recvs i).proc) ∧
    ∀ l < 32, s.connections.getLsbD l = false → (s.owners l).pid = 0 ∧ (s.owners l).startTok = 0 := by
  have h := hrun.inv Tidy h0.tidy fun _ _ _ h hok hst => h.step hok.1 hok.2 hst
  refine ⟨fun l hl hc => ?_, fun l hl hc => ⟨?_, ?_⟩⟩
  · obtain ⟨i, hi, hid⟩ := h.set l hl hc
    have hpc : (s.recvs i).pc = .ready := by
      rcases hrest i with he | he
      · rw [he] at hi; cases hi
      · exact he
    have hst := h.stored i
    rw [State.record, hid, slotIndex_twoPow hl] at hst
    exact ⟨i, hpc, hid, hst.pid hpc, hst.tok (Or.inr hpc)⟩
  · rcases h.pid l hl hc with hz | ⟨i, hi, -⟩
    · exact hz
    · rcases hrest i with he | he <;> rw [he] at hi <;> cases hi
  · rcases h.tok l hl hc with hz | ⟨i, hi, -⟩
    · exact hz
    · rcases hrest i with he | he <;> rw [he] at hi <;> cases hi

end Steps

instance (act : Act π ι ρ) : Decidable (churns act) := by
  induction act using Act.casesOn <;> unfold churns <;> infer_instance

instance [Fintype ι] [DecidableEq ι] [DecidableEq ρ] [DecidableEq π] (s : State W ι ρ) (act : Act π ι ρ) :
    Decidable (ordered s act) := by
  induction act using Act.casesOn <;> unfold ordered
  case go i =>
    dsimp only
    induction (s.recvs i).pc using Pc.casesOn <;> infer_instance
  all_goals infer_instance

instance [Fintype ι] (s : State W ι ρ) : Decidable s.rests := inferInstanceAs (Decidable (∀ _, _))

/-! ## A connected receiver without a record -/

theorem zeroed_nobody : Zeroed nobody := ⟨fun _ => rfl, rfl, fun _ => ⟨rfl, rfl⟩⟩

/-- Receiver 0 disconnects and receiver 1 gets its bit: the record is that of receiver 1. -/
theorem table_consistent_reuse : ∃ s, Run State.step (fun s act => churns act ∧ ordered s act) nobody
      (opening 0 0 6 ++ [.disconnect 0, .go 0, .go 0] ++ opening 1 1 6) s ∧ s.rests ∧
    s.connections.getLsbD 0 = true ∧ ∃ i, (s.recvs i).connId = 1#32 ∧ (s.owners 0).pid = trio.pid (s.recvs i).proc := by
  refine exists_run_imp (fun s => s.rests ∧ s.connections.getLsbD 0 = true) (by decide +kernel) fun s hrun hs => ?_
  obtain ⟨hrest, hc⟩ := hs
  obtain ⟨i, -, hid, hp, -⟩ := (table_consistent zeroed_nobody hrun hrest).1 0 (by decide) hc
  exact ⟨hrest, hc, i, hid, hp⟩

/-- **A connected receiver's record is erased.** Receiver 0 has cleared its bit; receiver 1 claims it and records
itself; receiver 0 then clears the record. -/
theorem record_erased : ∃ s, Run State.step (fun _ act => churns act) nobody
      (opening 0 0 6 ++ [.disconnect 0] ++ opening 1 1 6 ++ [.go 0, .go 0]) s ∧ s.rests ∧
    s.connections.getLsbD 0 = true ∧ (s.owners 0).pid = 0 ∧ (s.owners 0).startTok = 0 :=
  exists_run_of (by decide +kernel)

end ThothIpc.Table
