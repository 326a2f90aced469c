import ThothIpc.Table.Model

/-!
# The reaper and live receivers

A reaper clears the bit of a receiver whose recorded process is dead. The bit and the record are two words, so what it
clears may be a newcomer's bit by then.

* `Fits` : what the record of a bit is while a live receiver has the bit;
* `settled` : a bit is claimed only when its record is free, nobody alive has still to record itself there and no reaper
  is about to clear it; and a reaper takes a record only while the token is the one it has tested;
* `live_never_reaped` : then no reap clears a bit a live process holds;
* `newcomer_reaped` : otherwise it does, with no process dead at all.
-/

namespace ThothIpc.Table
open Function Steps

variable {π ι ρ : Type} {W : World π}

/-! ## Where they stand -/

/-- The receiver has claimed its bit and not yet recorded its pid. -/
def Pc.pending : Pc → Bool
  | .setSince _ | .adopt | .ownerTok | .ownerPid => true
  | _ => false

def Pc.recorded : Pc → Bool
  | .ready | .clearPid => true
  | _ => false

/-- The receiver has to do with the record of its bit. -/
def Pc.engaged (c : Pc) : Bool := c.pending || c.recorded

/-- The receiver goes by its bit. -/
def Pc.uses : Pc → Bool
  | .closed | .loadConns _ | .casConns _ _ => false
  | _ => true

/-- The receiver has its bit, as far as it knows. -/
def Pc.holds : Pc → Bool
  | .setSince _ | .adopt | .ownerTok | .ownerPid | .ready => true
  | _ => false

def ReapPc.bit : ReapPc → Option (BitVec 32)
  | .loadTok _ b _ | .check _ b _ _ | .cas _ b _ _ | .clearTok _ b | .clearBit _ b => some b
  | _ => none

/-- The pid a reaper has loaded and still goes by. -/
def ReapPc.seen : ReapPc → Option Int
  | .loadTok _ _ p | .check _ _ p _ | .cas _ _ p _ => some p
  | _ => none

def ReapPc.clears : ReapPc → Option (BitVec 32)
  | .clearTok _ b | .clearBit _ b => some b
  | _ => none

theorem Pc.engaged_of_pending {c : Pc} (h : c.pending = true) : c.engaged = true := by
  simp [Pc.engaged, h]

theorem Pc.engaged_of_recorded {c : Pc} (h : c.recorded = true) : c.engaged = true := by
  simp [Pc.engaged, h]

theorem Pc.engaged_of_holds {c : Pc} (h : c.holds = true) : c.engaged = true := by
  cases c <;> first | rfl | cases h

theorem Pc.uses_of_engaged {c : Pc} (h : c.engaged = true) : c.uses = true := by
  cases c <;> first | rfl | cases h

/-- What the record `o` of its bit must be for a live receiver of process `q` that stands at `c`. -/
structure Fits (W : World π) (o : SlotOwner) (q : π) (c : Pc) : Prop where
  pend : c.pending = true → o.pid = 0
  tok : c = .ownerPid → o.startTok = W.tok q ∨ o.startTok = 0
  recd : c.recorded = true → o.pid = W.pid q ∧ (o.startTok = W.tok q ∨ o.startTok = 0)

/-- The record keeps its pid, and at most loses its token. -/
def Mild (o o' : SlotOwner) : Prop := o'.pid = o.pid ∧ (o'.startTok = o.startTok ∨ o'.startTok = 0)

theorem Mild.refl (o : SlotOwner) : Mild o o := ⟨rfl, Or.inl rfl⟩

theorem Fits.mild {o o' : SlotOwner} {q : π} {c : Pc} (h : Fits W o q c) (hm : Mild o o') : Fits W o' q c := by
  obtain ⟨hp, ht⟩ := hm
  have htok : o.startTok = W.tok q ∨ o.startTok = 0 → o'.startTok = W.tok q ∨ o'.startTok = 0 := by
    rintro h
    rcases ht with ht | ht
    · rw [ht]; exact h
    · exact Or.inr ht
  refine ⟨fun hc => ?_, fun hc => htok (h.tok hc), fun hc => ?_⟩
  · rw [hp]; exact h.pend hc
  · rw [hp]; exact ⟨(h.recd hc).1, htok (h.recd hc).2⟩

theorem Fits.of_not_engaged {o : SlotOwner} {q : π} {c : Pc} (h : c.engaged = false) : Fits W o q c := by
  refine ⟨fun hc => ?_, fun hc => ?_, fun hc => ?_⟩
  · rw [Pc.engaged_of_pending hc] at h; cases h
  · rw [hc] at h; cases h
  · rw [Pc.engaged_of_recorded hc] at h; cases h

variable {s t : State W ι ρ} {i : ι} {r : ρ}

theorem setOwner_self (s : State W ι ρ) (bit : BitVec 32) (f : SlotOwner → SlotOwner) :
    s.setOwner bit f (slotIndex bit) = f (s.owners (slotIndex bit)) := by
  simp [State.setOwner]

theorem setOwner_of_ne {b c : BitVec 32} {f : SlotOwner → SlotOwner} (hb : ∃ l < 32, b = BitVec.twoPow 32 l)
    (hc : ∃ l < 32, c = BitVec.twoPow 32 l) (hne : c ≠ b) : s.setOwner b f (slotIndex c) = s.owners (slotIndex c) := by
  obtain ⟨l, hl, rfl⟩ := hb
  obtain ⟨k, hk, rfl⟩ := hc
  have hkl : k ≠ l := fun he => hne (by rw [he])
  rw [State.setOwner, update_of_ne]
  rw [slotIndex_twoPow hk, slotIndex_twoPow hl]
  exact hkl

theorem setOwner_mild {b c : BitVec 32} {f : SlotOwner → SlotOwner} (hf : ∀ o, Mild o (f o)) :
    Mild (s.owners (slotIndex c)) (s.setOwner b f (slotIndex c)) := by
  by_cases he : slotIndex c = slotIndex b
  · rw [he, setOwner_self]; exact hf _
  · rw [State.setOwner, update_of_ne he]; exact Mild.refl _

theorem setOwner_id (s : State W ι ρ) (b : BitVec 32) : s.setOwner b (fun o => o) = s.owners := by
  rw [State.setOwner, update_eq_self]

theorem reapStep_holder [DecidableEq ρ] (hst : s.reapStep r = some t) (l : Nat)
    (hl : ∀ m, (s.reapers r).pc ≠ .clearBit m (BitVec.twoPow 32 l))
    (hbit : ∀ b, (s.reapers r).pc.bit = some b → ∃ k < 32, b = BitVec.twoPow 32 k) :
    t.holder l = s.holder l ∧ t.connections.getLsbD l = s.connections.getLsbD l := by
  unfold State.reapStep at hst
  cases hpc : (s.reapers r).pc with
  | clearBit m b =>
    simp only [hpc] at hst
    rw [hpc] at hbit hl
    obtain ⟨k, hk, rfl⟩ := hbit b rfl
    have hkl : l ≠ k := fun he => hl m (by rw [he])
    cases hst
    refine ⟨update_of_ne (by rw [slotIndex_twoPow hk]; exact hkl) _ _, ?_⟩
    by_cases hl32 : l < 32
    · simp [hl32, hkl]
    · rw [BitVec.getLsbD_of_ge _ _ (by omega), BitVec.getLsbD_of_ge _ _ (by omega)]
  | next m =>
    simp only [hpc] at hst
    split at hst <;> cases hst <;> exact ⟨rfl, rfl⟩
  | cas m b p t =>
    simp only [hpc] at hst
    split at hst <;> cases hst <;> exact ⟨rfl, rfl⟩
  | idle => simp only [hpc] at hst; cases hst
  | loadTok m b p => simp only [hpc] at hst; cases hst; exact ⟨rfl, rfl⟩
  | check m b p t => simp only [hpc] at hst; cases hst; exact ⟨rfl, rfl⟩
  | clearTok m b => simp only [hpc] at hst; cases hst; exact ⟨rfl, rfl⟩

/-! ## Conditions -/

section Steps
variable [DecidableEq π]

/-- No pid is used again while a reaper goes by it. -/
def noReuse (s : State W ι ρ) : Act π ι ρ → Prop
  | .spawn q => ∀ r, s.os.alive (s.reapers r).proc = true → (s.reapers r).pc.seen ≠ some (W.pid q)
  | _ => True

/-- Bit `bit` may be issued: its record is free, nobody alive that claimed it before has still to record itself there,
and no reaper is about to clear it. -/
def vacant (s : State W ι ρ) (bit : BitVec 32) : Prop :=
  (s.owners (slotIndex bit)).pid = 0 ∧
  (∀ j, s.os.alive (s.recvs j).proc = true → (s.recvs j).pc.pending = true → (s.recvs j).connId ≠ bit) ∧
  ∀ r, s.os.alive (s.reapers r).proc = true → (s.reapers r).pc.clears ≠ some bit

/-- Only vacant bits are issued, and a reaper takes a record only while the token is the one it has tested. -/
def settled (s : State W ι ρ) : Act π ι ρ → Prop
  | .go i =>
    match (s.recvs i).pc with
    | .casConns _ curr => s.connections = curr → vacant s (claimBit curr)
    | _ => True
  | .reapGo r =>
    match (s.reapers r).pc with
    | .cas _ bit p t => (s.owners (slotIndex bit)).pid = p → (s.owners (slotIndex bit)).startTok = t
    | _ => True
  | _ => True

/-! ## What holds in every run -/

def State.record (s : State W ι ρ) (i : ι) : SlotOwner := s.owners (slotIndex (s.recvs i).connId)

/-- Receiver `i` is alive and has to do with the record of its bit. -/
def State.active (s : State W ι ρ) (i : ι) : Prop :=
  s.os.alive (s.recvs i).proc = true ∧ (s.recvs i).pc.engaged = true

structure Inv (s : State W ι ρ) : Prop where
  born : ∀ i, (s.recvs i).pc ≠ .closed → s.os.born (s.recvs i).proc = true
  rborn : ∀ r, (s.reapers r).pc ≠ .idle → s.os.born (s.reapers r).proc = true
  bit : ∀ i, (s.recvs i).pc.uses = true → ∃ l < 32, (s.recvs i).connId = BitVec.twoPow 32 l
  rbit : ∀ r b, (s.reapers r).pc.bit = some b → ∃ l < 32, b = BitVec.twoPow 32 l
  room : ∀ i since curr, (s.recvs i).pc = .casConns since curr → curr ||| (curr + 1) ≠ curr
  unique : ∀ i j, s.active i → s.active j → (s.recvs i).connId = (s.recvs j).connId → i = j
  fits : ∀ i, s.os.alive (s.recvs i).proc = true → Fits W (s.record i) (s.recvs i).proc (s.recvs i).pc
  seen : ∀ r, (s.reapers r).pc.seen ≠ some 0
  judged : ∀ r m b p t, s.os.alive (s.reapers r).proc = true → (s.reapers r).pc = .cas m b p t →
    isProcessAlive s.os.token p t = false
  clears : ∀ r b i, s.os.alive (s.reapers r).proc = true → (s.reapers r).pc.clears = some b → s.active i →
    (s.recvs i).connId ≠ b
  held : ∀ l i, s.holder l = some i → (s.recvs i).pc.holds = true ∧ (s.recvs i).connId = BitVec.twoPow 32 l

namespace Inv

theorem not_held (h : Inv s) (hh : (s.recvs i).pc.holds = false) (l : Nat) : s.holder l ≠ some i := by
  intro he
  rw [(h.held l i he).1] at hh
  cases hh

/-- Nobody alive has to do with the record a reaper takes: the pair it has tested is still there. -/
theorem reap_free (h : Inv s) {m b : BitVec 32} {p : Int} {t : Nat} (ha : s.os.alive (s.reapers r).proc = true)
    (hpc : (s.reapers r).pc = .cas m b p t) (hp : (s.owners (slotIndex b)).pid = p)
    (ht : (s.owners (slotIndex b)).startTok = t) {j : ι} (hj : s.active j) : (s.recvs j).connId ≠ b := by
  intro he
  have hfit := h.fits j hj.1
  have hne : p ≠ 0 := fun hz => h.seen r (by rw [hpc, hz]; rfl)
  rw [State.record, he] at hfit
  by_cases hpend : (s.recvs j).pc.pending = true
  · rw [hfit.pend hpend] at hp
    exact hne hp.symm
  · have hrec : (s.recvs j).pc.recorded = true := by
      have := hj.2
      simpa [Pc.engaged, hpend] using this
    obtain ⟨hpid, htok⟩ := hfit.recd hrec
    have hdead := h.judged r m b p t ha hpc
    rw [← hp, ← ht, hpid, Os.alive_test hj.1 htok] at hdead
    cases hdead

theorem unhold (h : Inv s) {c : BitVec 32} {g : Nat → Option ι} (hheld : ∀ l k, g l = some k → s.holder l = some k) :
    Inv { s with connections := c, holder := g } :=
  ⟨h.born, h.rborn, h.bit, h.rbit, h.room, h.unique, h.fits, h.seen, h.judged, h.clears,
    fun l k hk => h.held l k (hheld l k hk)⟩

theorem spawn (h : Inv s) {o : Os W} {q : π} (ho : s.os.spawn q = some o) (hok : noReuse s (.spawn q)) :
    Inv { s with os := o } := by
  obtain ⟨-, hborn, -⟩ := Os.spawn_run ho
  -- the process that starts has no endpoint and no reaper yet
  have hrecv : ∀ i, o.alive (s.recvs i).proc = true → (s.recvs i).pc ≠ .closed → s.os.alive (s.recvs i).proc = true := by
    intro i hi hne
    rcases Os.alive_of_spawn ho hi with hi | hq
    · exact hi
    · rw [← hq, h.born i hne] at hborn
      cases hborn
  have hreap : ∀ r, o.alive (s.reapers r).proc = true → (s.reapers r).pc ≠ .idle →
    s.os.alive (s.reapers r).proc = true := by
    intro r hr hne
    rcases Os.alive_of_spawn ho hr with hr | hq
    · exact hr
    · rw [← hq, h.rborn r hne] at hborn
      cases hborn
  have hact : ∀ i, State.active { s with os := o } i → s.active i := by
    rintro i ⟨hi, he⟩
    exact ⟨hrecv i hi (fun hc => by simp only at he; rw [hc] at he; cases he), he⟩
  have hgrow : ∀ p, s.os.born p = true → o.born p = true := by
    intro p hp
    by_contra hc
    by_cases hpq : p = q
    · rw [hpq, hborn] at hp; cases hp
    · rw [Os.unborn_of_spawn ho hpq (by simpa using hc)] at hp; cases hp
  refine ⟨fun i hi => hgrow _ (h.born i hi), fun r hr => hgrow _ (h.rborn r hr), h.bit, h.rbit, h.room,
    fun i j hi hj => h.unique i j (hact i hi) (hact j hj), fun i hi => ?_, h.seen, fun r m b p t hr hc => ?_,
    fun r b i hr hc hi => h.clears r b i (hreap r hr fun he => by simp only at hc; rw [he] at hc; cases hc) hc
    (hact i hi), h.held⟩
  · by_cases he : (s.recvs i).pc.engaged = true
    · exact h.fits i (hact i ⟨hi, he⟩).1
    · exact Fits.of_not_engaged (by simpa using he)
  · have hrl := hreap r hr (fun he => by simp only at hc; rw [he] at hc; cases hc)
    refine Os.dead_of_spawn ho (fun he => ?_) (h.judged r m b p t hrl hc)
    exact hok r hrl (by simp only at hc; rw [hc, he]; rfl)

theorem kill (h : Inv s) {o : Os W} {q : π} (ho : s.os.kill q = some o) : Inv { s with os := o } := by
  have hal : ∀ p, o.alive p = true → s.os.alive p = true := fun p => Os.alive_of_kill ho
  have hact : ∀ i, State.active { s with os := o } i → s.active i := fun i hi => ⟨hal _ hi.1, hi.2⟩
  exact ⟨fun i hi => by rw [Os.born_of_kill ho]; exact h.born i hi,
    fun r hr => by rw [Os.born_of_kill ho]; exact h.rborn r hr, h.bit, h.rbit, h.room,
    fun i j hi hj => h.unique i j (hact i hi) (hact j hj), fun i hi => h.fits i (hal _ hi), h.seen,
    fun r m b p t hr hc => Os.dead_of_kill ho (h.judged r m b p t (hal _ hr) hc),
    fun r b i hr hc hi => h.clears r b i (hal _ hr) hc (hact i hi), h.held⟩

section Receivers
variable [DecidableEq ι]

/-- A step of receiver `i`, which goes on as `x`: the record fits it, and what it writes is mild for every other live
receiver that has to do with a record. -/
theorem recv_move (h : Inv s) {x : Receiver π} {c : BitVec 32} {o : Nat → SlotOwner} {g : Nat → Option ι}
    (ha : s.os.alive x.proc = true) (hbit : x.pc.uses = true → ∃ l < 32, x.connId = BitVec.twoPow 32 l)
    (hroom : ∀ since curr, x.pc = .casConns since curr → curr ||| (curr + 1) ≠ curr)
    (hfit : Fits W (o (slotIndex x.connId)) x.proc x.pc)
    (hoth : ∀ j, j ≠ i → s.active j → Mild (s.record j) (o (slotIndex (s.recvs j).connId)))
    (huniq : x.pc.engaged = true → ∀ j, j ≠ i → s.active j → (s.recvs j).connId ≠ x.connId)
    (hclr : x.pc.engaged = true → ∀ r, s.os.alive (s.reapers r).proc = true → (s.reapers r).pc.clears ≠ some x.connId)
    (hheld : ∀ l k, g l = some k → k = i ∧ x.pc.holds = true ∧ x.connId = BitVec.twoPow 32 l ∨
      k ≠ i ∧ s.holder l = some k) :
    Inv { s with connections := c, owners := o, recvs := update s.recvs i x, holder := g } := by
  have hr : ∀ j, update s.recvs i x j = if j = i then x else s.recvs j := fun j => update_apply ..
  have hact : ∀ j, State.active { s with
      connections := c, owners := o, recvs := update s.recvs i x, holder := g } j →
      (j = i ∧ x.pc.engaged = true) ∨ (j ≠ i ∧ s.active j) := by
    intro j
    simp only [State.active, hr]
    split
    · rename_i he; exact fun hj => Or.inl ⟨he, hj.2⟩
    · rename_i hne; exact fun hj => Or.inr ⟨hne, hj⟩
  refine ⟨fun j => ?_, h.rborn, fun j => ?_, h.rbit, fun j since curr => ?_, fun j k hj hk => ?_, fun j hj => ?_, h.seen,
    h.judged, fun r b j hrl hrc hj => ?_, fun l k hk => ?_⟩
  · simp only [hr]
    split
    · exact fun _ => s.os.run_born _ _ (Os.alive_iff.mp ha)
    · exact h.born j
  · simp only [hr]
    split
    · exact hbit
    · exact h.bit j
  · simp only [hr]
    split
    · exact hroom since curr
    · exact h.room j since curr
  · simp only [hr]
    rcases hact j hj with ⟨rfl, hje⟩ | ⟨hji, hja⟩ <;> rcases hact k hk with ⟨rfl, hke⟩ | ⟨hki, hka⟩
    · exact fun _ => rfl
    · rw [if_pos rfl, if_neg hki]
      exact fun he => absurd he.symm (huniq hje k hki hka)
    · rw [if_pos rfl, if_neg hji]
      exact fun he => absurd he (huniq hke j hji hja)
    · rw [if_neg hji, if_neg hki]
      exact h.unique j k hja hka
  · simp only [State.record, hr] at hj ⊢
    split at hj
    · rename_i he
      rw [if_pos he]
      exact hfit
    · rename_i hne
      rw [if_neg hne]
      by_cases he : (s.recvs j).pc.engaged = true
      · exact (h.fits j hj).mild (hoth j hne ⟨hj, he⟩)
      · exact Fits.of_not_engaged (by simpa using he)
  · simp only [hr]
    rcases hact j hj with ⟨rfl, hje⟩ | ⟨hji, hja⟩
    · rw [if_pos rfl]
      intro he
      exact hclr hje r hrl (by rw [he]; exact hrc)
    · rw [if_neg hji]
      exact h.clears r b j hrl hrc hja
  · simp only [hr]
    rcases hheld l k hk with ⟨rfl, hho, hid⟩ | ⟨hne, hho⟩
    · rw [if_pos rfl]
      exact ⟨hho, hid⟩
    · rw [if_neg hne]
      exact h.held l k hho

theorem recv_idle (h : Inv s) {c : Pc} (ha : s.os.alive (s.recvs i).proc = true) (hh : (s.recvs i).pc.holds = false)
    (hu : c.uses = false) (hroom : ∀ since curr, c = .casConns since curr → curr ||| (curr + 1) ≠ curr) :
    Inv (s.at i c) := by
  have hne : c.engaged = false := by
    by_contra hc
    rw [Pc.uses_of_engaged (by simpa using hc)] at hu
    cases hu
  refine h.recv_move (x := { s.recvs i with pc := c }) (c := s.connections) ha (fun hc => by rw [hu] at hc; cases hc)
    hroom (Fits.of_not_engaged hne) (fun j _ _ => Mild.refl _) (fun hc => by rw [hne] at hc; cases hc)
    (fun hc => by rw [hne] at hc; cases hc) (fun l k hk => Or.inr ⟨?_, hk⟩)
  rintro rfl
  exact h.not_held hh l hk

/-- A receiver moves on with its bit, and writes only the record of that bit. -/
theorem recv_own (h : Inv s) {c : Pc} {d : BitVec 32} {f : SlotOwner → SlotOwner} {g : Nat → Option ι}
    (hact : s.active i) (hc : c.uses = true) (hfit : Fits W (f (s.record i)) (s.recvs i).proc c)
    (hheld : ∀ l k, g l = some k → s.holder l = some k) (hho : ∀ l, g l = some i → c.holds = true) :
    Inv { s with
      connections := d
      owners := s.setOwner (s.recvs i).connId f
      recvs := update s.recvs i { s.recvs i with pc := c }
      holder := g } := by
  have hbit := h.bit i (Pc.uses_of_engaged hact.2)
  have hne : ∀ j, j ≠ i → s.active j → (s.recvs j).connId ≠ (s.recvs i).connId :=
    fun j hj hja he => hj (h.unique j i hja hact he)
  refine h.recv_move (x := { s.recvs i with pc := c }) hact.1 (fun _ => hbit)
    (fun since curr he => by simp only at he; rw [he] at hc; cases hc) ?_ (fun j hj hja => ?_) (fun _ => hne)
    (fun _ r hr he => h.clears r _ i hr he hact rfl) (fun l k hk => ?_)
  · rw [setOwner_self]
    exact hfit
  · rw [setOwner_of_ne hbit (h.bit j (Pc.uses_of_engaged hja.2)) (hne j hj hja)]
    exact Mild.refl _
  · by_cases hki : k = i
    · subst hki
      exact Or.inl ⟨rfl, hho l hk, (h.held l k (hheld l k hk)).2⟩
    · exact Or.inr ⟨hki, hheld l k hk⟩

theorem claim (h : Inv s) {since curr : BitVec 32} (ha : s.os.alive (s.recvs i).proc = true)
    (hpc : (s.recvs i).pc = .casConns since curr) (hv : vacant s (claimBit curr)) :
    Inv { s with
      connections := curr ||| (curr + 1)
      recvs := update s.recvs i { s.recvs i with connId := claimBit curr, pc := .setSince since }
      holder := update s.holder (slotIndex (claimBit curr)) (some i) } := by
  obtain ⟨hfree, hpend, hreap⟩ := hv
  obtain ⟨l, hl, hbit, -, -⟩ := claimBit_spec (h.room i since curr hpc)
  refine h.recv_move (x := { s.recvs i with connId := claimBit curr, pc := .setSince since }) (o := s.owners) ha
    (fun _ => ⟨l, hl, hbit⟩) (fun _ _ he => by cases he)
    ⟨fun _ => hfree, (fun he => by cases he), fun he => by cases he⟩ (fun j _ _ => Mild.refl _)
    (fun _ j _ hja he => ?_) (fun _ r hr he => hreap r hr he) (fun k j hk => ?_)
  · -- who is active on the bit is pending there, or has its pid in the record
    by_cases hp : (s.recvs j).pc.pending = true
    · exact hpend j hja.1 hp he
    · have hrec : (s.recvs j).pc.recorded = true := by
        have := hja.2
        simpa [Pc.engaged, hp] using this
      have hpid := ((h.fits j hja.1).recd hrec).1
      have hpos := W.pid_pos (s.recvs j).proc
      rw [State.record, he, hfree] at hpid
      omega
  · by_cases hkl : k = l
    · rw [hbit, slotIndex_twoPow hl, hkl, update_self] at hk
      exact Or.inl ⟨(Option.some.inj hk).symm, rfl, by rw [hkl]; exact hbit⟩
    · rw [hbit, slotIndex_twoPow hl, update_of_ne hkl] at hk
      refine Or.inr ⟨?_, hk⟩
      rintro rfl
      exact h.not_held (by rw [hpc]; rfl) k hk

theorem recvStep (h : Inv s) (ha : s.os.alive (s.recvs i).proc = true) (hok : settled s (.go i))
    (hst : s.recvStep i = some t) : Inv t := by
  have hfit := h.fits i ha
  unfold State.recvStep at hst
  simp only [settled] at hok
  cases hpc : (s.recvs i).pc with
  | closed => simp only [hpc] at hst; cases hst
  | loadConns since =>
    simp only [hpc] at hst
    have hho : (s.recvs i).pc.holds = false := by rw [hpc]; rfl
    split at hst <;> cases hst
    · exact h.recv_idle ha hho rfl (fun _ _ he => by cases he)
    · rename_i hne
      exact h.recv_idle ha hho rfl (fun _ _ he => by cases he; exact hne)
  | casConns since curr =>
    simp only [hpc] at hst hok
    split at hst <;> cases hst
    · rename_i hcc
      exact h.claim ha hpc (hok hcc)
    · exact h.recv_idle ha (by rw [hpc]; rfl) rfl (fun _ _ he => by cases he)
  | setSince since =>
    simp only [hpc] at hst
    cases hst
    have hact : s.active i := ⟨ha, by rw [hpc]; rfl⟩
    rw [hpc] at hfit
    exact h.recv_own (c := .adopt) hact rfl
      ⟨fun _ => hfit.pend rfl, (fun he => by cases he), fun he => by cases he⟩ (fun _ _ hk => hk) (fun _ _ => rfl)
  | adopt =>
    simp only [hpc] at hst
    cases hst
    have hact : s.active i := ⟨ha, by rw [hpc]; rfl⟩
    rw [hpc] at hfit
    have hm := h.recv_own (c := .ownerTok) (d := s.connections) (f := fun o => o) (g := s.holder) hact rfl
      ⟨fun _ => hfit.pend rfl, (fun he => by cases he), fun he => by cases he⟩ (fun _ _ hk => hk) (fun _ _ => rfl)
    rwa [setOwner_id] at hm
  | ownerTok =>
    simp only [hpc] at hst
    cases hst
    have hact : s.active i := ⟨ha, by rw [hpc]; rfl⟩
    rw [hpc] at hfit
    exact h.recv_own (c := .ownerPid) hact rfl
      ⟨fun _ => hfit.pend rfl, fun _ => Or.inl rfl, fun he => by cases he⟩ (fun _ _ hk => hk) (fun _ _ => rfl)
  | ownerPid =>
    simp only [hpc] at hst
    cases hst
    have hact : s.active i := ⟨ha, by rw [hpc]; rfl⟩
    rw [hpc] at hfit
    exact h.recv_own (c := .ready) hact rfl
      ⟨(fun he => by cases he), (fun he => by cases he), fun _ => ⟨rfl, hfit.tok rfl⟩⟩ (fun _ _ hk => hk)
      (fun _ _ => rfl)
  | ready => simp only [hpc] at hst; cases hst
  | clearPid =>
    simp only [hpc] at hst
    cases hst
    have hact : s.active i := ⟨ha, by rw [hpc]; rfl⟩
    exact h.recv_own (c := .clearTok) hact rfl (Fits.of_not_engaged rfl) (fun _ _ hk => hk)
      (fun l hk => absurd hk (h.not_held (by rw [hpc]; rfl) l))
  | clearTok =>
    simp only [hpc] at hst
    cases hst
    refine h.recv_move (x := { s.recvs i with pc := .closed }) ha (fun hc => by cases hc) (fun _ _ hc => by cases hc)
      (Fits.of_not_engaged rfl) (fun j _ _ => setOwner_mild fun o => ⟨rfl, Or.inr rfl⟩) (fun hc => by cases hc)
      (fun hc => by cases hc) (fun l k hk => Or.inr ⟨?_, hk⟩)
    rintro rfl
    exact h.not_held (by rw [hpc]; rfl) l hk

end Receivers

section Reapers
variable [DecidableEq ρ]

theorem reap_move (h : Inv s) {x : ReapPc} {c : BitVec 32} {o : Nat → SlotOwner} {g : Nat → Option ι} {q : π}
    (ha : s.os.alive q = true) (hbit : ∀ b, x.bit = some b → ∃ l < 32, b = BitVec.twoPow 32 l)
    (hseen : x.seen ≠ some 0)
    (hjudge : ∀ m b p t, x = .cas m b p t → isProcessAlive s.os.token p t = false)
    (hclr : ∀ b j, x.clears = some b → s.active j → (s.recvs j).connId ≠ b)
    (hoth : ∀ j, s.active j → Mild (s.record j) (o (slotIndex (s.recvs j).connId)))
    (hheld : ∀ l k, g l = some k → s.holder l = some k) :
    Inv { s with connections := c, owners := o, reapers := update s.reapers r ⟨q, x⟩, holder := g } := by
  have hr : ∀ j, update s.reapers r ⟨q, x⟩ j = if j = r then ⟨q, x⟩ else s.reapers j :=
    fun j => update_apply ..
  refine ⟨h.born, fun j => ?_, h.bit, fun j b => ?_, h.room, h.unique, fun j hj => ?_, fun j => ?_, fun j m b p t => ?_,
    fun j b k => ?_, fun l k hk => h.held l k (hheld l k hk)⟩
  · simp only [hr]
    split
    · exact fun _ => s.os.run_born _ _ (Os.alive_iff.mp ha)
    · exact h.rborn j
  · simp only [hr]
    split
    · exact hbit b
    · exact h.rbit j b
  · by_cases he : (s.recvs j).pc.engaged = true
    · exact (h.fits j hj).mild (hoth j ⟨hj, he⟩)
    · exact Fits.of_not_engaged (by simpa using he)
  · simp only [hr]
    split
    · exact hseen
    · exact h.seen j
  · simp only [hr]
    split
    · exact fun _ => hjudge m b p t
    · exact h.judged j m b p t
  · simp only [hr]
    split
    · exact fun _ hc hk => hclr b k hc hk
    · exact h.clears j b k

theorem reap_stay (h : Inv s) {x : ReapPc} {q : π} (ha : s.os.alive q = true)
    (hbit : ∀ b, x.bit = some b → ∃ l < 32, b = BitVec.twoPow 32 l) (hseen : x.seen ≠ some 0)
    (hjudge : ∀ m b p t, x = .cas m b p t → isProcessAlive s.os.token p t = false) (hclr : x.clears = none) :
    Inv { s with reapers := update s.reapers r ⟨q, x⟩ } :=
  h.reap_move (c := s.connections) (o := s.owners) (g := s.holder) ha hbit hseen hjudge
    (fun b j hb => by rw [hclr] at hb; cases hb) (fun _ _ => Mild.refl _) (fun _ _ hk => hk)

theorem reap_next (h : Inv s) (m : BitVec 32) {q : π} (ha : s.os.alive q = true) :
    Inv { s with reapers := update s.reapers r ⟨q, .next m⟩ } :=
  h.reap_stay ha (fun b hb => by cases hb) (by simp [ReapPc.seen]) (fun _ _ _ _ he => by cases he) rfl

theorem reapStep (h : Inv s) (ha : s.os.alive (s.reapers r).proc = true) (hok : settled s (.reapGo r))
    (hst : s.reapStep r = some t) : Inv t := by
  unfold State.reapStep at hst
  simp only [settled] at hok
  have hbit := h.rbit r
  have hseen := h.seen r
  cases hpc : (s.reapers r).pc with
  | idle => simp only [hpc] at hst; cases hst
  | next m =>
    simp only [hpc] at hst
    split at hst
    · cases hst
      exact h.reap_stay ha (fun b hb => by cases hb) (by simp [ReapPc.seen]) (fun _ _ _ _ he => by cases he) rfl
    · rename_i hm
      cases hst
      obtain ⟨l, hl, -, -, hlow, -⟩ := Bits.exists_lowest m hm
      by_cases hp : (s.owners (slotIndex (m &&& -m))).pid = 0
      · simp only [if_pos hp]
        exact h.reap_next _ ha
      · simp only [if_neg hp]
        exact h.reap_stay ha (fun b hb => ⟨l, hl, by rw [← hlow]; exact (Option.some.inj hb).symm⟩)
          (fun he => hp (Option.some.inj he)) (fun _ _ _ _ he => by cases he) rfl
  | loadTok m b p =>
    simp only [hpc] at hst
    rw [hpc] at hbit hseen
    cases hst
    exact h.reap_stay ha hbit hseen (fun _ _ _ _ he => by cases he) rfl
  | check m b p t =>
    simp only [hpc] at hst
    rw [hpc] at hbit hseen
    cases hst
    by_cases hal : isProcessAlive s.os.token p t = true
    · simp only [if_pos hal]
      exact h.reap_next _ ha
    · simp only [if_neg hal]
      exact h.reap_stay ha hbit hseen (fun _ _ _ _ he => by cases he; simpa using hal) rfl
  | cas m b p t =>
    simp only [hpc] at hst hok
    rw [hpc] at hbit
    split at hst <;> cases hst
    · rename_i hp
      have hfree : ∀ j, s.active j → (s.recvs j).connId ≠ b := fun j hj => h.reap_free ha hpc hp (hok hp) hj
      refine h.reap_move (x := .clearTok m b) (c := s.connections) (g := s.holder) ha (fun c hc => hbit c hc)
        (by simp [ReapPc.seen])
        (fun _ _ _ _ he => by cases he) (fun c j hc hj => ?_) (fun j hj => ?_) (fun _ _ hk => hk)
      · rw [← Option.some.inj hc]
        exact hfree j hj
      · rw [setOwner_of_ne (hbit b rfl) (h.bit j (Pc.uses_of_engaged hj.2)) (hfree j hj)]
        exact Mild.refl _
    · exact h.reap_next _ ha
  | clearTok m b =>
    simp only [hpc] at hst
    rw [hpc] at hbit
    cases hst
    refine h.reap_move (x := .clearBit m b) (c := s.connections) (g := s.holder) ha (fun c hc => hbit c hc)
      (by simp [ReapPc.seen])
      (fun _ _ _ _ he => by cases he) (fun c j hc hj => ?_) (fun j hj => setOwner_mild fun o => ⟨rfl, Or.inr rfl⟩)
      (fun _ _ hk => hk)
    exact h.clears r c j ha (by rw [hpc]; exact hc) hj
  | clearBit m b =>
    simp only [hpc] at hst
    cases hst
    refine h.reap_move (x := .next m) (o := s.owners) ha (fun c hc => by cases hc) (by simp [ReapPc.seen])
      (fun _ _ _ _ he => by cases he) (fun c j hc => by cases hc) (fun j _ => Mild.refl _) (fun l k hk => ?_)
    by_cases hl : l = slotIndex b
    · rw [hl, update_self] at hk
      cases hk
    · rwa [update_of_ne hl] at hk

end Reapers

variable [DecidableEq ι] [DecidableEq ρ]

theorem step {act : Act π ι ρ} (h : Inv s) (hru : noReuse s act) (hok : settled s act) (hst : s.step act = some t) :
    Inv t := by
  cases act with
  | spawn q =>
    obtain ⟨o, ho, rfl⟩ := Option.map_eq_some_iff.mp hst
    exact h.spawn ho hru
  | kill q =>
    obtain ⟨o, ho, rfl⟩ := Option.map_eq_some_iff.mp hst
    exact h.kill ho
  | opens i q since =>
    simp only [State.step] at hst
    split at hst <;> cases hst
    rename_i hq
    refine h.recv_move (x := { s.recvs i with proc := q, pc := .loadConns since }) (o := s.owners) hq.1
      (fun hc => by cases hc) (fun _ _ hc => by cases hc) (Fits.of_not_engaged rfl) (fun j _ _ => Mild.refl _)
      (fun hc => by cases hc) (fun hc => by cases hc) (fun l k hk => Or.inr ⟨?_, hk⟩)
    rintro rfl
    exact h.not_held (by rw [hq.2]; rfl) l hk
  | go i =>
    simp only [State.step] at hst
    split at hst
    · rename_i ha
      exact h.recvStep ha hok hst
    · cases hst
  | fail i =>
    simp only [State.step] at hst
    split at hst
    · rename_i since curr hpc
      split at hst <;> cases hst
      rename_i ha
      exact h.recv_idle ha (by rw [hpc]; rfl) rfl (fun _ _ hc => by cases hc)
    · cases hst
  | disconnect i =>
    simp only [State.step] at hst
    split at hst <;> cases hst
    rename_i hi
    have hfit := h.fits i hi.1
    rw [hi.2] at hfit
    have hm := h.recv_own (c := .clearPid) (d := s.connections &&& ~~~(s.recvs i).connId) (f := fun o => o)
      (g := update s.holder (slotIndex (s.recvs i).connId) none) ⟨hi.1, by rw [hi.2]; rfl⟩ rfl
      ⟨(fun he => by cases he), (fun he => by cases he), fun _ => hfit.recd rfl⟩ (fun l k hk => ?_) (fun l hk => ?_)
    · rwa [setOwner_id] at hm
    · by_cases hl : l = slotIndex (s.recvs i).connId
      · rw [hl, update_self] at hk; cases hk
      · rwa [update_of_ne hl] at hk
    · by_cases hl : l = slotIndex (s.recvs i).connId
      · rw [hl, update_self] at hk; cases hk
      · -- it holds no other bit
        rw [update_of_ne hl] at hk
        obtain ⟨k, hk32, hid⟩ := h.bit i (by rw [hi.2]; rfl)
        have hidl := (h.held l i hk).2
        have hkl : k = l := by
          have hb := congrArg (fun x => BitVec.getLsbD x k) (hid.symm.trans hidl)
          simpa [hk32] using hb
        rw [hid, slotIndex_twoPow hk32, hkl] at hl
        exact absurd rfl hl
  | evict mask =>
    simp only [State.step, Option.some.injEq] at hst
    subst hst
    refine h.unhold fun l k hk => ?_
    split at hk
    · cases hk
    · exact hk
  | reap r q =>
    simp only [State.step] at hst
    split at hst <;> cases hst
    rename_i hq
    exact h.reap_next _ hq.1
  | reapGo r =>
    simp only [State.step] at hst
    split at hst
    · rename_i ha
      exact h.reapStep ha hok hst
    · cases hst

end Inv

structure Empty (s : State W ι ρ) : Prop where
  closed : ∀ i, (s.recvs i).pc = .closed
  idle : ∀ r, (s.reapers r).pc = .idle
  holder : ∀ l, s.holder l = none

theorem Empty.inv (h : Empty s) : Inv s := by
  have hact : ∀ i, ¬ s.active i := fun i hi => by
    have := hi.2
    rw [h.closed] at this
    cases this
  refine ⟨fun i hi => absurd (h.closed i) hi, fun r hr => absurd (h.idle r) hr, fun i hi => ?_, fun r b hb => ?_,
    fun i _ _ hi => ?_, fun i _ hi => absurd hi (hact i), fun i _ => Fits.of_not_engaged ?_, fun r => ?_,
    fun r _ _ _ _ _ hc => ?_, fun r b i _ _ hi => absurd hi (hact i), fun l i hl => ?_⟩
  · rw [h.closed] at hi; cases hi
  · rw [h.idle] at hb; cases hb
  · rw [h.closed] at hi; cases hi
  · rw [h.closed]; rfl
  · rw [h.idle]; simp [ReapPc.seen]
  · rw [h.idle] at hc; cases hc
  · rw [h.holder] at hl; cases hl

variable [DecidableEq ι] [DecidableEq ρ]

/-- **No reap clears a bit a live process holds**, in every run in which only vacant bits are issued and a reaper takes
a record only while the token is the one it has tested. -/
theorem live_never_reaped {s₀ : State W ι ρ} {acts : List (Act π ι ρ)} (h0 : Empty s₀)
    (hrun : Run State.step (fun s act => noReuse s act ∧ settled s act) s₀ acts s)
    (hst : s.step (.reapGo r) = some t) {l : Nat} (hl : s.holder l = some i)
    (ha : s.os.alive (s.recvs i).proc = true) :
    t.holder l = some i ∧ t.connections.getLsbD l = s.connections.getLsbD l := by
  have h := hrun.inv Inv h0.inv fun _ _ _ h hok hst => h.step hok.1 hok.2 hst
  simp only [State.step] at hst
  split at hst
  · rename_i hr
    obtain ⟨hho, hid⟩ := h.held l i hl
    rw [← hl]
    refine reapStep_holder hst l (fun m hc => ?_) (h.rbit r)
    exact h.clears r _ i hr (by rw [hc]; rfl) ⟨ha, Pc.engaged_of_holds hho⟩ hid
  · cases hst

end Steps

/-! ## Conditions, decided -/

section Decide
variable [Fintype ι] [Fintype ρ] [DecidableEq ι] [DecidableEq ρ] [DecidableEq π]

instance (s : State W ι ρ) (act : Act π ι ρ) : Decidable (noReuse s act) := by
  unfold noReuse
  split <;> infer_instance

instance (s : State W ι ρ) (b : BitVec 32) : Decidable (vacant s b) := by
  unfold vacant
  infer_instance

instance (s : State W ι ρ) (act : Act π ι ρ) : Decidable (settled s act) := by
  unfold settled
  repeat' split
  all_goals infer_instance

end Decide

/-! ## A live newcomer is reaped -/

/-- Three live processes, with pids 1, 2 and 3. -/
def trio : World (Fin 3) where
  pid := ![1, 2, 3]
  tok := ![11, 12, 13]
  pid_pos := by decide
  tok_ne := by decide
  pair := by decide

/-- Nobody is connected; the receivers belong to processes 0 and 1, the reaper to process 2. -/
def nobody : State trio (Fin 2) (Fin 1) where
  os := {
    run := fun n => if n = 1 then some 0 else if n = 2 then some 1 else if n = 3 then some 2 else none
    born := fun _ => true
    run_pid := by
      intro n q hq
      split_ifs at hq with h1 h2 h3 <;> cases hq <;> simp [trio, *]
    run_born := fun _ _ _ => rfl }
  connections := 0
  owners := fun _ => ⟨0, 0, 0⟩
  recvs := fun _ => ⟨0, 0, .closed⟩
  reapers := fun _ => ⟨2, .idle⟩
  holder := fun _ => none

theorem empty_nobody : Empty nobody := ⟨fun _ => rfl, fun _ => rfl, fun _ => rfl⟩

/-- Process `q` opens receiver `i`, and `n` accesses of it. -/
def opening (i : Fin 2) (q : Fin 3) (n : Nat) : List (Act (Fin 3) (Fin 2) (Fin 1)) :=
  .opens i q 0 :: List.replicate n (.go i)

/-- A reap of the two bits of receivers 0 and 1, whose processes run, clears neither. -/
theorem live_never_reaped_pair : ∃ s t, Run State.step (fun s act => noReuse s act ∧ settled s act) nobody
      (opening 0 0 6 ++ opening 1 1 6 ++ [.reap 0 2, .reapGo 0, .reapGo 0]) s ∧
    s.step (.reapGo 0) = some t ∧ t.holder 0 = some 0 ∧ t.connections.getLsbD 0 = s.connections.getLsbD 0 := by
  obtain ⟨s, hrun, hs⟩ := exists_run State.step (fun s act => noReuse s act ∧ settled s act) nobody
    (opening 0 0 6 ++ opening 1 1 6 ++ [Act.reap 0 2, .reapGo 0, .reapGo 0])
    (fun s => (s.holder 0, s.os.alive (s.recvs 0).proc, (s.step (.reapGo 0)).isSome)) (x := (some 0, true, true))
    (by decide +kernel)
  simp only [Prod.mk.injEq] at hs
  obtain ⟨hh, ha, ht⟩ := hs
  obtain ⟨t, ht⟩ := Option.isSome_iff_exists.mp ht
  exact ⟨s, t, hrun, ht, live_never_reaped empty_nobody hrun ht hh ha⟩

/-- **A live newcomer is reaped.** A reaper has loaded the pid of receiver 0, which disconnects. Receiver 1 claims the
bit and stores its token, which the reaper loads: no process has both. -/
theorem newcomer_reaped : ∃ s t, Run State.step noReuse nobody
      (opening 0 0 6 ++ [.reap 0 2, .reapGo 0, .disconnect 0] ++ opening 1 1 5 ++
        [.reapGo 0, .reapGo 0, .reapGo 0, .reapGo 0]) s ∧
    s.holder 0 = some 1 ∧ s.os.alive (s.recvs 1).proc = true ∧ s.connections.getLsbD 0 = true ∧
    s.step (.reapGo 0) = some t ∧ t.connections.getLsbD 0 = false := by
  obtain ⟨s, hrun, hs⟩ := exists_run State.step noReuse nobody
    (opening 0 0 6 ++ [Act.reap 0 2, .reapGo 0, .disconnect 0] ++ opening 1 1 5 ++
      [Act.reapGo 0, .reapGo 0, .reapGo 0, .reapGo 0])
    (fun s => (s.holder 0, s.os.alive (s.recvs 1).proc, s.connections.getLsbD 0,
      (s.step (.reapGo 0)).map fun t => t.connections.getLsbD 0)) (x := (some 1, true, true, some false))
    (by decide +kernel)
  simp only [Prod.mk.injEq] at hs
  obtain ⟨hh, ha, hc, ht⟩ := hs
  obtain ⟨t, ht, hc'⟩ := Option.map_eq_some_iff.mp ht
  exact ⟨s, t, hrun, hh, ha, hc, ht, hc'⟩

end ThothIpc.Table
