import ThothIpc.Channel.JoinWork

/-!
# The receivers' steps while nobody leaves

* `Joint.reader` : what a step of a receiver has to keep, `Joint.stay` : the steps that touch nothing;
* `Joint.release`, `Joint.free` : the two steps of a release, its exchange and, for the last reader, the flag before it;
* `Joint.bit`, `Joint.record` : a receiver claims its bit and records its `since`;
* `inTime`, `inPlace` : what `adopt_cursor` relies on when it loads the commit index and when it steps back;
* `Joint.step` : every step of the channel.
-/

namespace ThothIpc.Channel
open Function

variable {ω ι : Type} {s t : State ω ι}

section Steps
variable [DecidableEq ι] {i : ι}

/-- A step of a receiver that keeps its bit: marks come off, and at most its own slot is released. -/
theorem Joint.reader (h : Joint s) {r : Receiver} {g : Ring}
    (hcore : Core { s with ring := g, recvs := update s.recvs i r })
    (hcl : r.pc.claimed = (s.recvs i).pc.claimed) (hid : r.connId = (s.recvs i).connId)
    (hconn : g.connections = s.ring.connections) (hcur : g.writeCursor = s.ring.writeCursor)
    (hepoch : g.epoch = s.ring.epoch)
    (htable : ∀ b < 32, s.ring.connections.getLsbD b = false → (g.owners b).since = 0)
    (hlate : ∀ ct b, Late s.ring ct b → Late g ct b)
    (hrec : ∀ j, j ≠ i → (s.recvs j).pc.claimed = true → (s.recvs j).recorded g = (s.recvs j).recorded s.ring)
    (hsince : (s.recvs i).pc.claimed = true → r.since g = (s.recvs i).since s.ring)
    (hrc : ∀ x, (g.slots x).rc &&& ~~~epMask = 0)
    (hmarks : ∀ x, Sub (Channel.marks (g.slots x).rc) (Channel.marks (s.ring.slots x).rc))
    (hdata : ∀ x, (g.slots x).data = (s.ring.slots x).data)
    (hflag : ∀ x, (g.slots x).fCt = (s.ring.slots x).fCt ∨ x = (s.recvs i).readCursor.setWidth 8 ∧
      (∃ q, Freed q (g.slots x).fCt) ∧ Sub (Channel.marks (g.slots x).rc) r.connId ∧
      Committed s (s.recvs i).readCursor.toNat ∧
      (s.recvs i).low = some (s.recvs i).readCursor.toNat ∧ r.pc.releasing = true ∧
      r.readCursor = (s.recvs i).readCursor)
    (hguard : ∀ j b m, j ≠ i → (s.recvs j).connId = BitVec.twoPow 32 b → (s.recvs j).pc.claimed = true →
      Guard s.view b m → Guard (State.view { s with ring := g, recvs := update s.recvs i r }) b m)
    (hlow : ∀ b m, r.connId = BitVec.twoPow 32 b → r.low = some m →
      Guard (State.view { s with ring := g, recvs := update s.recvs i r }) b m)
    (hplace : r.Place { s with ring := g, recvs := update s.recvs i r })
    (hrel : (s.recvs i).pc.releasing = true → (∀ b, r.connId = BitVec.twoPow 32 b →
      (Channel.marks (g.slots ((s.recvs i).readCursor.setWidth 8)).rc).getLsbD b = true →
        r.pc.releasing = true ∧ r.readCursor = (s.recvs i).readCursor)) :
    Joint { s with ring := g, recvs := update s.recvs i r } := by
  obtain ⟨u, hu⟩ : ∃ u : State ω ι, u = { s with ring := g, recvs := update s.recvs i r } := ⟨_, rfl⟩
  rw [← hu] at hcore hguard hlow hplace ⊢
  have hself : u.recvs i = r := by rw [hu]; simp
  have hother : ∀ j, j ≠ i → u.recvs j = s.recvs j := fun j hj => by rw [hu]; simp [hj]
  have hring : u.ring = g := by rw [hu]
  have hcom : ∀ p, Committed u p ↔ Committed s p := fun p => by rw [hu]; rfl
  have hbit : ∀ j, (u.recvs j).pc.claimed = (s.recvs j).pc.claimed ∧ (u.recvs j).connId = (s.recvs j).connId :=
    fun j => by
    by_cases hj : j = i
    · subst hj
      rw [hself]
      exact ⟨hcl, hid⟩
    · rw [hother j hj]
      exact ⟨rfl, rfl⟩
  have hindex : u.view.index = s.view.index := by simp only [State.view, hring, hcur]
  have htop : u.view.top = s.view.top := by
    rw [hu]
    simp only [State.view, hcur]
  have hmk : ∀ p b, u.view.Marked p b → s.view.Marked p b := fun p b hm => by
    simp only [View.Marked, State.view, hring] at hm ⊢
    exact hmarks _ b hm
  refine ⟨hcore, by rw [hu]; exact h.len, by rw [hring, hepoch]; exact h.epoch, by rw [hring]; exact hrc,
    fun x b hb => ?_, fun x c hx => ?_, fun w => ?_, fun j hj => ?_, fun j k hj hk he => ?_, fun b hb => ?_,
    fun b hb hc => ?_, fun j b hj hb => ?_, fun j b m hb hm => ?_, fun j => ?_, fun p h1 h2 h3 h4 j b hj hb hm => ?_⟩
  · rw [hring] at hb ⊢
    rw [hconn]
    exact h.marks x b (hmarks x b hb)
  · rw [hring] at hx
    rw [hcom]
    rcases hflag x with hf | ⟨-, ⟨q, hq⟩, -⟩
    · rw [hf] at hx
      exact h.flags x c hx
    · rw [hx] at hq
      exact (not_freed_atPos hq).elim
  · have hw : u.writers w = s.writers w := by rw [hu]
    rw [hw, hring]
    exact (h.plain w).mono (by rw [hconn]; exact fun _ hb => hb) hlate
  · rw [(hbit j).1] at hj
    rw [(hbit j).2, hring, hconn]
    exact h.own j hj
  · rw [(hbit j).1] at hj
    rw [(hbit k).1] at hk
    rw [(hbit j).2, (hbit k).2] at he
    exact h.one j k hj hk he
  · rw [hring, hconn] at hb
    obtain ⟨j, hj, hjb⟩ := h.owner b hb
    exact ⟨j, by rw [(hbit j).1]; exact hj, by rw [(hbit j).2]; exact hjb⟩
  · rw [hring, hconn] at hc
    rw [hring]
    exact htable b hb hc
  · rw [(hbit j).1] at hj
    rw [(hbit j).2] at hb
    have hf := h.floor j b hj hb
    have hs : (u.recvs j).since u.ring = (s.recvs j).since s.ring := by
      by_cases hji : j = i
      · subst hji
        rw [hself, hring]
        exact hsince hj
      · rw [hother j hji, hring, Receiver.since, Receiver.since, hrec j hji hj]
    rw [hs]
    refine ⟨by rw [hindex]; exact hf.le, fun p hp hle hm => hf.marks p (htop ▸ hp) (htop ▸ hle) (hmk p b hm), ?_⟩
    intro w cc ct hw
    refine hf.loop w cc ct ?_
    rw [hu] at hw
    exact hw
  · by_cases hji : j = i
    · subst hji
      rw [hself] at hb hm
      exact hlow b m hb hm
    · rw [hother j hji] at hb hm
      exact hguard j b m hji hb (Receiver.claimed_of_low hm) (h.guard j b m hb hm)
  · by_cases hji : j = i
    · subst hji
      rw [hself]
      exact hplace
    · rw [hother j hji]
      refine (h.place j).mono (by rw [hring, hcur]) (fun hj => by rw [hring]; exact hrec j hji hj)
        (fun p hp => (hcom p).mpr hp) (fun _ _ => ?_) fun _ _ hk => by rw [hu]; exact hk
      rw [hring]
      exact ⟨hdata _, hmarks _⟩
  · rw [(hbit j).1] at hj
    rw [(hbit j).2] at hb
    rw [htop] at h1 h2
    rw [hcom] at h3
    rw [hring, slotAt] at h4
    rcases hflag (BitVec.ofNat 8 p) with hf | ⟨hx, -, hsub, hread, hl, hrl, hrcur⟩
    · rw [hf] at h4
      obtain ⟨g1, g2⟩ := h.freed p h1 h2 h3 h4 j b hj hb (hmk p b hm)
      by_cases hji : j = i
      · subst hji
        rw [hself]
        obtain ⟨g3, g4⟩ := hrel g1 b (by rw [hid]; exact hb) (by
          rw [g2, setWidth_ofNat]
          simp only [View.Marked, State.view, hring] at hm
          exact hm)
        exact ⟨g3, g4.trans g2⟩
      · rw [hother j hji]
        exact ⟨g1, g2⟩
    · -- the slot just released: its only mark is the receiver's own
      obtain ⟨b', hb', hid', -⟩ := h.own i (Receiver.claimed_of_low hl)
      have hbb : b = b' := by
        simp only [View.Marked, State.view, hring] at hm
        have := hsub b hm
        rw [hid, hid', BitVec.getLsbD_twoPow] at this
        simp at this
        exact this.2.symm
      have hji : j = i := h.one j i hj (Receiver.claimed_of_low hl) (by rw [hb, hid', hbb])
      subst hji
      have hlap := (h.guard j b _ hb hl).lap
      have hpc : p = (s.recvs j).readCursor.toNat := by
        rw [slot_toNat, slot_inj (by have := h3.1; have := hread.1; have := (h.core.le_top h.len).1; omega)
          (by have := hread.1; have := (h.core.le_top h.len).1; omega)] at hx
        exact hx
      rw [hself, hrcur, hpc, BitVec.ofNat_toNat, BitVec.setWidth_eq]
      exact ⟨hrl, rfl⟩

theorem Joint.stay (h : Joint s) {r : Receiver} (hcl : r.pc.claimed = (s.recvs i).pc.claimed)
    (hid : r.connId = (s.recvs i).connId)
    (hsince : (s.recvs i).pc.claimed = true → r.since s.ring = (s.recvs i).since s.ring)
    (hlow : ∀ b m, r.connId = BitVec.twoPow 32 b → r.low = some m → Guard s.view b m) (hplace : r.Place s)
    (hrel : (s.recvs i).pc.releasing = true → r.pc.releasing = true ∧ r.readCursor = (s.recvs i).readCursor) :
    Joint { s with recvs := update s.recvs i r } :=
  h.reader (h.core.touch (Touch.refl h.core) rfl rfl) hcl hid rfl rfl rfl h.table (fun _ _ hl => hl) (fun _ _ _ => rfl)
    hsince h.rc (fun _ _ hb => hb) (fun _ => rfl) (fun _ => Or.inl rfl) (fun _ _ _ _ _ _ hg => hg) hlow
    (hplace.mono (Nat.le_refl _) (fun _ => rfl) (fun _ hp => hp) (fun _ _ => ⟨rfl, fun _ hb => hb⟩) fun _ _ hk => hk)
    fun hr _ _ _ => hrel hr

omit [DecidableEq ι] in
theorem Joint.reading (h : Joint s) (hread : Committed s (s.recvs i).readCursor.toNat)
    (hlow : (s.recvs i).low = some (s.recvs i).readCursor.toNat) :
    s.claims.length ≤ (s.recvs i).readCursor.toNat + 256 ∧ Unworked s ((s.recvs i).readCursor.setWidth 8) ∧
      (s.recvs i).readCursor = BitVec.ofNat 32 (s.recvs i).readCursor.toNat := by
  obtain ⟨b, -, hid, -⟩ := h.own i (Receiver.claimed_of_low hlow)
  have hlap := (h.guard i b _ hid hlow).lap
  have htop := (h.core.le_top h.len).1
  exact ⟨by omega, h.unworked hread hlow, by rw [BitVec.ofNat_toNat, BitVec.setWidth_eq]⟩

theorem Joint.free (h : Joint s) {m : MsgT} {rc : BitVec 64} (hpc : (s.recvs i).pc = .preStore m rc) :
    Joint { s with
      ring := s.ring.setFl ((s.recvs i).readCursor.setWidth 8) (freeFlag (s.recvs i).readCursor)
      recvs := update s.recvs i { s.recvs i with pc := .relCas m rc } } := by
  have hplace := h.place i
  simp only [Receiver.Place, hpc] at hplace
  obtain ⟨hread, hdata, hsub, honly⟩ := hplace
  have hlow : (s.recvs i).low = some (s.recvs i).readCursor.toNat := by simp only [Receiver.low, hpc]
  obtain ⟨hle, hw, hcur⟩ := h.reading hread hlow
  have hfreed : Freed (s.recvs i).readCursor.toNat (freeFlag (s.recvs i).readCursor) := by
    have := freed_freeFlag (s.recvs i).readCursor.toNat
    rwa [← hcur] at this
  obtain ⟨g, hg⟩ : ∃ g, g = s.ring.setFl ((s.recvs i).readCursor.setWidth 8)
    (freeFlag (s.recvs i).readCursor) := ⟨_, rfl⟩
  have hrest := fun x => hg ▸ setFl_frame s.ring ((s.recvs i).readCursor.setWidth 8) x (freeFlag (s.recvs i).readCursor)
  have ht : Touch s g := by
    rw [hg]
    exact Touch.free h.core hw hread.1 hle (slot_toNat _).symm hfreed
  have hview : State.view { s with ring := g, recvs := update s.recvs i { s.recvs i with pc := .relCas m rc } } =
      s.view := by
    simp only [State.view, (hrest _).1]
    rw [hg]
    rfl
  rw [← hg]
  refine h.reader (h.core.touch ht rfl rfl) (by rw [hpc]; rfl) rfl (by rw [hg]; rfl) (by rw [hg]; rfl) (by rw [hg]; rfl)
    (by rw [hg]; exact h.table) (by rw [hg]; exact fun _ _ hl => hl) (fun _ _ _ => by rw [hg]; rfl)
    (fun _ => by simp only [Receiver.since, hpc]; rw [hg]; rfl) (fun x => by rw [(hrest x).1]; exact h.rc x)
    (fun x b hb => by rw [(hrest x).1] at hb; exact hb) (fun x => (hrest x).2.1) (fun x => ?_)
    (fun _ _ _ _ _ _ hgd => by rw [hview]; exact hgd) (fun b k hb hk => ?_) ?_ fun _ _ _ _ => ⟨rfl, rfl⟩
  · by_cases hx : x = (s.recvs i).readCursor.setWidth 8
    · refine Or.inr ⟨hx, ⟨(s.recvs i).readCursor.toNat, ?_⟩, fun b hb => ?_, hread, hlow, rfl, rfl⟩
      · rw [hg, hx, slots_setFl_self]
        exact hfreed
      · rw [(hrest x).1, hx] at hb
        exact honly b (hsub b hb)
    · exact Or.inl (by rw [hg, slots_setFl_of_ne hx])
  · rw [hview]
    refine h.guard i b k hb ?_
    rw [hlow]
    exact hk
  · refine ⟨hread, ?_⟩
    simp only [Ring.slot, (hrest _).2.1]
    exact hdata

theorem Joint.release (h : Joint s) {m : MsgT} {rc : BitVec 64} (hpc : (s.recvs i).pc = .relCas m rc)
    (hrc : (s.ring.slot (s.recvs i).readCursor).rc = rc) :
    Joint { s with
      ring := s.ring.setRc ((s.recvs i).readCursor.setWidth 8) (unmark rc (s.recvs i).connId)
      recvs := update s.recvs i { s.recvs i with pc := .bump m } } := by
  have hplace := h.place i
  simp only [Receiver.Place, hpc] at hplace
  obtain ⟨hread, hdata⟩ := hplace
  have hlow : (s.recvs i).low = some (s.recvs i).readCursor.toNat := by simp only [Receiver.low, hpc]
  obtain ⟨hle, hw, hcur⟩ := h.reading hread hlow
  obtain ⟨b₀, hb₀, hid, -⟩ := h.own i (Receiver.claimed_of_low hlow)
  have htop := (h.core.le_top h.len).1
  obtain ⟨g, hg⟩ : ∃ g, g = s.ring.setRc ((s.recvs i).readCursor.setWidth 8) (unmark rc (s.recvs i).connId) := ⟨_, rfl⟩
  have ht : Touch s g := by
    rw [hg, ← hrc]
    exact Touch.unmark h.core hw
  have hself : (g.slots ((s.recvs i).readCursor.setWidth 8)).rc = unmark rc (s.recvs i).connId := by
    rw [hg, slots_setRc_self]
  have hview : State.view { s with ring := g, recvs := update s.recvs i { s.recvs i with pc := .bump m } } =
      s.view.unmark (BitVec.ofNat 8 (s.recvs i).readCursor.toNat) (s.recvs i).connId := by
    simp only [State.view, View.unmark, View.mk.injEq]
    refine ⟨funext fun x => ?_, by rw [hg]; rfl, by rw [hg]; rfl, trivial⟩
    rw [← slot_toNat]
    by_cases hx : x = (s.recvs i).readCursor.setWidth 8
    · rw [hx, hself, update_self, marks_unmark, ← hrc]
      rfl
    · rw [update_of_ne hx, hg, slots_setRc_of_ne hx]
  rw [← hg]
  refine h.reader (h.core.touch ht rfl rfl) (by rw [hpc]; rfl) rfl (by rw [hg]; rfl) (by rw [hg]; rfl) (by rw [hg]; rfl)
    (by rw [hg]; exact h.table) (by rw [hg]; exact fun _ _ hl => hl) (fun _ _ _ => by rw [hg]; rfl)
    (fun _ => by simp only [Receiver.since, hpc]; rw [hg]; rfl) (fun x => by rw [ht.high]; exact h.rc x) ht.marks ht.data
    (fun x => Or.inl (by rw [hg, (setRc_frame ..).1])) (fun j b k hj hb hjc hgd => ?_) (fun b k hb hk => ?_) ?_
    fun _ b hb hm => ?_
  · rw [hview]
    refine hgd.unmark ?_
    rw [hid, BitVec.getLsbD_twoPow]
    by_contra hno
    simp at hno
    exact hj (h.one j i hjc (Receiver.claimed_of_low hlow) (by rw [hb, hid, hno.2]))
  · rw [hview]
    cases hk
    exact (h.guard i b _ hb hlow).release (by have := hread.1; omega)
  · obtain ⟨c, hc⟩ := h.core.data _ hread.1 hle hread.2
    refine ⟨c, ?_⟩
    rw [hdata, Ring.slot, slot_toNat]
    exact hc
  · rw [hself, marks_unmark, BitVec.getLsbD_and, BitVec.getLsbD_not, Bool.and_eq_true] at hm
    rw [show (s.recvs i).connId = BitVec.twoPow 32 b from hb] at hm
    simp at hm

theorem Joint.owners (h : Joint s) {r : Receiver} {f : SlotOwner → SlotOwner} (hf : ∀ o, (f o).since = o.since)
    (hcl : r.pc.claimed = (s.recvs i).pc.claimed) (hid : r.connId = (s.recvs i).connId)
    (hsince : r.since s.ring = (s.recvs i).since s.ring)
    (hlow : r.low = (s.recvs i).low) (hplace : r.Place s) (hrel : (s.recvs i).pc.releasing = false) :
    Joint { s with
      ring := s.ring.setOwner (s.recvs i).connId f, recvs := update s.recvs i r } := by
  have hsame : ∀ b, ((s.ring.setOwner (s.recvs i).connId f).owners b).since = (s.ring.owners b).since := fun b => by
    simp only [Ring.setOwner, update_apply]
    split
    · rename_i hb
      rw [hf, hb]
    · rfl
  have hrec : ∀ r : Receiver, r.recorded (s.ring.setOwner (s.recvs i).connId f) = r.recorded s.ring := fun _ => hsame _
  refine h.reader (h.core.touch (Touch.frame h.core rfl rfl h.core.epoch) rfl rfl) hcl hid rfl rfl rfl
    (fun b hb hc => by rw [hsame]; exact h.table b hb hc) (fun ct b hl => by rw [Late, hsame]; exact hl)
    (fun _ _ _ => hrec _) (fun _ => ?_) h.rc (fun _ _ hb => hb) (fun _ => rfl) (fun _ => Or.inl rfl)
    (fun _ _ _ _ _ _ hg => hg) (fun b m hb hm => h.guard i b m (hid ▸ hb) (hlow ▸ hm)) ?_ (fun hr => ?_)
  · rw [← hsince]
    unfold Receiver.since
    split
    · rfl
    · exact hrec r
  · exact hplace.mono (Nat.le_refl _) (fun _ => hrec _) (fun _ hp => hp)
      (fun _ _ => ⟨rfl, fun _ hb => hb⟩) fun _ _ hk => hk
  · rw [hrel] at hr
    cases hr

/-! ## Connecting -/

theorem Joint.record (h : Joint s) {since : BitVec 32} (hpc : (s.recvs i).pc = .setSince since) :
    Joint { s with
      ring := s.ring.setOwner (s.recvs i).connId fun o => { o with since := since }
      recvs := update s.recvs i { s.recvs i with pc := .staleFrom since 0 } } := by
  have hclaimed : (s.recvs i).pc.claimed = true := by rw [hpc]; rfl
  obtain ⟨b₀, hb₀, hid, hconn⟩ := h.own i hclaimed
  have h0 : (s.ring.owners b₀).since = 0 := by
    have := h.place i
    simp only [Receiver.Place, hpc, Receiver.recorded, hid, slotIndex_twoPow hb₀] at this
    exact this
  obtain ⟨g, hg⟩ : ∃ g, g = s.ring.setOwner (s.recvs i).connId fun o => { o with since := since } := ⟨_, rfl⟩
  have hown : (g.owners b₀).since = since := by
    rw [hg]
    simp only [Ring.setOwner, hid, slotIndex_twoPow hb₀, update_self]
  have hother : ∀ b, b ≠ b₀ → g.owners b = s.ring.owners b := fun b hb => by
    rw [hg]
    simp only [Ring.setOwner, hid, slotIndex_twoPow hb₀, update_of_ne hb]
  have hrec : Receiver.recorded g { s.recvs i with pc := .staleFrom since 0 } = since := by
    rw [Receiver.recorded]
    simp only [hid, slotIndex_twoPow hb₀]
    exact hown
  rw [← hg]
  refine h.reader (h.core.touch (Touch.frame h.core (by rw [hg]; rfl) (by rw [hg]; rfl) (by rw [hg]; exact h.core.epoch))
      rfl rfl) (by rw [hpc]; rfl) rfl (by rw [hg]; rfl) (by rw [hg]; rfl) (by rw [hg]; rfl) (fun b hb hc => ?_)
    (fun ct b hl => ?_) (fun j hj hjc => ?_) (fun _ => ?_) (by rw [hg]; exact h.rc) (by rw [hg]; exact fun _ _ hb => hb)
    (by rw [hg]; exact fun _ => rfl) (by rw [hg]; exact fun _ => Or.inl rfl)
    (by rw [hg]; exact fun _ _ _ _ _ _ hgd => hgd) (by intros; contradiction) hrec fun hr => ?_
  · rw [hother b fun he => by rw [he, hconn] at hc; cases hc]
    exact h.table b hb hc
  · by_cases hb : b = b₀
    · rw [hb, Late, h0] at hl
      simp at hl
    · rw [Late, hother b hb]
      exact hl
  · obtain ⟨b, hb, hjd, -⟩ := h.own j hjc
    rw [Receiver.recorded, Receiver.recorded, hjd, slotIndex_twoPow hb, hother b]
    rintro rfl
    exact hj (h.one j i hjc hclaimed (by rw [hjd, hid]))
  · simp only [Receiver.since, hpc]
    exact hrec
  · rw [hpc] at hr
    cases hr

theorem Joint.bit (h : Joint s) {since curr : BitVec 32} (hpc : (s.recvs i).pc = .casConns since curr)
    (hc : s.ring.connections = curr) :
    Joint { s with
      ring := { s.ring with connections := curr ||| (curr + 1) }
      recvs := update s.recvs i
        { s.recvs i with connId := (curr ||| (curr + 1)) ^^^ curr, pc := .setSince since } } := by
  have hplace := h.place i
  simp only [Receiver.Place, hpc] at hplace
  obtain ⟨l, hl, hclear, -, hx, hor⟩ := Bits.exists_lowest_clear curr hplace.2
  have hgrow : Sub s.ring.connections (curr ||| (curr + 1)) := fun b hb => by
    rw [hc] at hb
    rw [hor, hb]
    rfl
  -- nobody has the new bit
  have hnone : ∀ j, (s.recvs j).pc.claimed = true → (s.recvs j).connId ≠ BitVec.twoPow 32 l := fun j hj he => by
    have := h.connected hj he
    rw [hc, hclear] at this
    cases this
  have hcases : ∀ j, j ≠ i ∨ j = i := fun j => (em (j = i)).symm
  rw [hx]
  refine ⟨h.core.touch (Touch.frame h.core rfl rfl h.core.epoch) rfl rfl, h.len, h.epoch, h.rc,
    fun x b hb => hgrow b (h.marks x b hb), h.flags, fun w => (h.plain w).mono hgrow fun _ _ hl => hl, fun j hj => ?_,
    fun j k hj hk he => ?_, fun b hb => ?_, fun b hb hcl => ?_, fun j b hj hb => ?_, fun j b m hb hm => ?_, fun j => ?_,
    fun p h1 h2 h3 h4 j b hj hb hm => ?_⟩
  · rcases hcases j with hji | rfl
    · simp only [update_of_ne hji] at hj ⊢
      obtain ⟨b, hb, hjd, hcb⟩ := h.own j hj
      exact ⟨b, hb, hjd, hgrow b hcb⟩
    · simp only [update_self]
      exact ⟨l, hl, rfl, by rw [hor]; simp⟩
  · rcases hcases j with hji | rfl <;> rcases hcases k with hki | rfl
    · simp only [update_of_ne hji, update_of_ne hki] at hj hk he
      exact h.one j k hj hk he
    · simp only [update_of_ne hji, update_self] at hj he
      exact absurd he (hnone j hj)
    · simp only [update_of_ne hki, update_self] at hk he
      exact absurd he.symm (hnone k hk)
    · rfl
  · rw [hor, Bool.or_eq_true, decide_eq_true_eq] at hb
    rcases hb with hb | rfl
    · rw [← hc] at hb
      obtain ⟨j, hj, hjd⟩ := h.owner b hb
      have hji : j ≠ i := fun he => by rw [he, hpc] at hj; cases hj
      exact ⟨j, by simp only [update_of_ne hji]; exact hj, by simp only [update_of_ne hji]; exact hjd⟩
    · exact ⟨i, by simp only [update_self]; rfl, by simp only [update_self]⟩
  · rw [hor, Bool.or_eq_false_iff] at hcl
    exact h.table b hb (by rw [hc]; exact hcl.1)
  · rcases hcases j with hji | rfl
    · simp only [update_of_ne hji] at hj hb ⊢
      exact h.floor j b hj hb
    · simp only [update_self] at hb ⊢
      obtain rfl := Bits.twoPow_inj hl hb
      refine ⟨hplace.1, fun p _ _ hm => ?_, fun w cc ct hw hcc => ?_⟩
      · have := h.marks _ l hm
        rw [hc, hclear] at this
        cases this
      · have hsub : Sub cc s.ring.connections := by
          have hp := h.plain w
          simp only [State.view] at hw
          cases hwpc : s.writers w <;> rw [hwpc] at hw hp <;> cases hw
          · exact hp.2.2
          · exact hp.elim
          · exact hp.2.2
          · exact hp.2.2.1
        have := hsub l hcc
        rw [hc, hclear] at this
        cases this
  · rcases hcases j with hji | rfl
    · simp only [update_of_ne hji] at hb hm
      exact h.guard j b m hb hm
    · simp only [update_self] at hm
      cases hm
  · rcases hcases j with hji | rfl
    · simp only [update_of_ne hji]
      exact (h.place j).mono (Nat.le_refl _) (fun _ => rfl) (fun _ hp => hp) (fun _ _ => ⟨rfl, fun _ hb => hb⟩)
        fun _ _ hk => hk
    · simp only [update_self]
      show Receiver.recorded _ _ = 0
      simp only [Receiver.recorded, slotIndex_twoPow hl]
      exact h.table l hl (by rw [hc]; exact hclear)
  · rcases hcases j with hji | rfl
    · simp only [update_of_ne hji] at hj hb ⊢
      exact h.freed p h1 h2 h3 h4 j b hj hb hm
    · simp only [update_self] at hb
      obtain rfl := Bits.twoPow_inj hl hb
      have := h.marks _ l hm
      rw [hc, hclear] at this
      cases this

/-! ## The steps of a receiver -/

/-- A position that has been stamped and not yet been passed by the commit index is stamped with the bit. -/
def inTime (s : State ω ι) (bit : BitVec 32) : Prop := ∀ w, (s.writers w).pending = true →
  ((s.writers w).at.all fun c => marks (s.ring.slot c).rc &&& bit != 0) = true

/-- The slot before `cur` is still at the position before `cur`. -/
def inPlace (s : State ω ι) (cur : BitVec 32) : Prop :=
  (s.ring.writeCursor - (cur - 1)).toNat < 256 ∨
    (s.ring.writeCursor - (cur - 1)).toNat = 256 ∧ Unworked s ((cur - 1).setWidth 8)

/-- What a step of the channel relies on while receivers come and stay. -/
def joining (s : State ω ι) : Act ω ι → Prop
  | .writer _ (.call k _) => k = .rust
  | .writer w .go => sound s (.writer w .go) ∧ addressed s w
  | .recv _ .disconnect => False
  | .recv i .go =>
    match (s.recvs i).pc with
    | .rel _ idx pos m => m.sound s (BitVec.ofNat 8 idx) pos
    | .adoptCt _ _ => inTime s (s.recvs i).connId
    | .adoptWalk since ep cur n =>
      n ≠ 0 → cur ≠ since → (s.ring.slot (cur - 1)).rc &&& (s.recvs i).connId.setWidth 64 ≠ 0 →
        (s.ring.slot (cur - 1)).rc &&& ~~~epMask = ep → inPlace s cur
    | _ => True
  | _ => True

theorem committed_flag {fl : BitVec 64} (h : committed fl = true) : fl = atPos ((~~~fl).setWidth 32) := by
  have hhigh : ∀ j, 32 ≤ j → j < 64 → fl.getLsbD j = true := by
    intro j h1 h2
    simp only [committed, beq_iff_eq] at h
    have hj := congrArg (fun y => y.getLsbD (j - 32)) h
    simp only [BitVec.getLsbD_ushiftRight, Nat.add_sub_cancel' h1] at hj
    rw [hj]
    have : ∀ k : Fin 32, (0xffffffff#64).getLsbD k = true := by decide
    exact this ⟨j - 32, by omega⟩
  refine BitVec.eq_of_getLsbD_eq fun j hj => ?_
  rw [atPos, BitVec.getLsbD_not, Bits.getLsbD_zeroExtend, BitVec.getLsbD_setWidth, BitVec.getLsbD_not]
  by_cases hlow : j < 32
  · simp [hj, hlow]
  · simp [hj, hlow, hhigh j (by omega) hj]

theorem mark_ne_zero {rc : BitVec 64} {b : Nat} (hb : b < 32) :
    rc &&& (BitVec.twoPow 32 b).setWidth 64 ≠ 0 ↔ (marks rc).getLsbD b = true := by
  have hbit : (BitVec.twoPow 32 b).setWidth 64 = BitVec.twoPow 64 b := by
    refine BitVec.eq_of_getLsbD_eq fun j hj => ?_
    rw [Bits.getLsbD_zeroExtend, BitVec.getLsbD_twoPow, BitVec.getLsbD_twoPow]
    simp [hb, show b < 64 by omega]
  rw [hbit, ne_eq, Bits.and_twoPow_eq_zero (by omega), Bool.not_eq_false, getLsbD_marks]
  simp [hb]

theorem Joint.pass (h : Joint s) {pc pc' : RPc} (hpc : (s.recvs i).pc = pc) (hcl : pc'.claimed = pc.claimed)
    (h1 : ∀ σ, pc ≠ .setSince σ) (h2 : ∀ σ, pc' ≠ .setSince σ)
    (hlow : ∀ b m, (s.recvs i).connId = BitVec.twoPow 32 b → Receiver.low { s.recvs i with pc := pc' } = some m →
      Guard s.view b m)
    (hplace : Receiver.Place s { s.recvs i with pc := pc' }) (hrel : pc.releasing = true → pc'.releasing = true) :
    Joint { s with recvs := update s.recvs i { s.recvs i with pc := pc' } } := by
  refine h.stay (by rw [hpc]; exact hcl) rfl (fun _ => ?_) hlow hplace fun hr => ⟨hrel (by rw [← hpc]; exact hr), rfl⟩
  unfold Receiver.since
  rw [hpc]
  split
  · rename_i σ he
    exact absurd he (h2 σ)
  · rfl

theorem Joint.passLow (h : Joint s) {pc pc' : RPc} (hpc : (s.recvs i).pc = pc) (hcl : pc'.claimed = pc.claimed)
    (h1 : ∀ σ, pc ≠ .setSince σ) (h2 : ∀ σ, pc' ≠ .setSince σ)
    (hlow : Receiver.low { s.recvs i with pc := pc' } = Receiver.low { s.recvs i with pc := pc })
    (hplace : Receiver.Place s { s.recvs i with pc := pc' }) (hrel : pc.releasing = true → pc'.releasing = true) :
    Joint { s with recvs := update s.recvs i { s.recvs i with pc := pc' } } := by
  refine h.pass hpc hcl h1 h2 (fun b m hb hm => h.guard i b m hb ?_) hplace hrel
  rw [hlow, ← hpc] at hm
  exact hm

/-- `adopt_cursor` loads the commit index: from there on the receiver has every mark. -/
theorem Joint.adopt (h : Joint s) {since : BitVec 32} {ep : BitVec 64} (hpc : (s.recvs i).pc = .adoptCt since ep)
    (hin : inTime s (s.recvs i).connId) :
    Joint { s with
      recvs := update s.recvs i { s.recvs i with pc := .adoptWalk since ep s.ring.writeCursor 256 } } := by
  have hclaimed : (s.recvs i).pc.claimed = true := by rw [hpc]; rfl
  have hplace := h.place i
  simp only [Receiver.Place, hpc] at hplace
  obtain ⟨b₀, hb₀, hid, -⟩ := h.own i hclaimed
  have hfloor := h.floor i b₀ hclaimed hid
  refine h.pass hpc rfl (by simp) (by simp) (fun b m hb hm => ?_) ⟨hplace.1, hplace.2, ?_⟩ (fun h => by cases h)
  · obtain rfl := Bits.twoPow_inj hb₀ (hid.symm.trans hb)
    have hm' : m = s.view.index := (Option.some.inj hm).symm
    rw [hm']
    have htest : ∀ x : BitVec 32, (x &&& (s.recvs i).connId != 0) = true → x.getLsbD b₀ = true := fun x hx => by
      rw [hid, bne_iff_ne, ne_eq, Bits.and_twoPow_eq_zero hb₀, Bool.not_eq_false] at hx
      exact hx
    have hle := h.core.le_top h.len
    refine Guard.begin ?_ ?_ fun htop => ?_
    · omega
    · rcases h.core.top_cases h.len with ⟨-, g1, g2⟩ | ⟨-, -, -, -, -, g1, g2⟩ | ⟨-, -, -, -, g1, g2⟩ <;> omega
    · -- the position on the way is stamped with the bit
      have hstamp : ∀ w c, (s.writers w).pending = true → (s.writers w).at = some c → c = BitVec.ofNat 32 s.view.index →
          s.view.Marked s.view.index b₀ := fun w c hp hat hc => by
        have := hin w hp
        rw [hat] at this
        have hbit := htest _ this
        rw [View.Marked]
        rwa [hc, slot_ofNat] at hbit
      rcases h.core.top_cases h.len with ⟨-, g1, g2⟩ | ⟨w, k, f, ep', hw, g1, g2⟩ | ⟨w, f, hw, g0, g1, g2⟩
      · omega
      · exact hstamp w _ (by rw [hw]; rfl) (by rw [hw]; rfl) (by rw [g1])
      · exact hstamp w _ (by rw [hw]; rfl) (by rw [hw]; rfl) (by rw [g1])
  · rw [← hplace.1]
    have := hfloor.le
    simp only [Receiver.since, hpc] at this
    exact this

theorem Joint.back (h : Joint s) {since cur : BitVec 32} {ep : BitVec 64} {n : Nat}
    (hpc : (s.recvs i).pc = .adoptWalk since ep cur n) (hne : cur ≠ since)
    (hm : (s.ring.slot (cur - 1)).rc &&& (s.recvs i).connId.setWidth 64 ≠ 0) (hin : inPlace s cur) :
    Joint { s with recvs := update s.recvs i { s.recvs i with pc := .adoptWalk since ep (cur - 1) (n - 1) } } := by
  have hplace := h.place i
  simp only [Receiver.Place, hpc] at hplace
  obtain ⟨hrec, hep, hle⟩ := hplace
  obtain ⟨b₀, hb₀, hid, -⟩ := h.own i (by rw [hpc]; rfl)
  have hgd := h.guard i b₀ cur.toNat hid (by simp only [Receiver.low, hpc])
  have hlt : since.toNat < cur.toNat := by
    refine Nat.lt_of_le_of_ne hle fun he => hne (BitVec.eq_of_toNat_eq he.symm)
  have hcur : cur.toNat = (cur - 1).toNat + 1 := by
    have := cur.isLt
    rw [BitVec.toNat_sub]
    simp
    omega
  refine h.pass hpc rfl (by simp) (by simp) (fun b m hb hm' => ?_) ⟨hrec, hep, by omega⟩ (fun h => by cases h)
  obtain rfl := Bits.twoPow_inj hb₀ (hid.symm.trans hb)
  obtain rfl : m = (cur - 1).toNat := (Option.some.inj hm').symm
  rw [hcur] at hgd
  refine hgd.back ?_ ?_
  · rw [hid, mark_ne_zero hb₀, Ring.slot, slot_toNat] at hm
    exact hm
  · -- the slot has not been stamped again
    have hidx : s.ring.writeCursor.toNat = s.view.index := rfl
    have hn := h.len
    have hgl := hgd.le
    have hd : (s.ring.writeCursor - (cur - 1)).toNat = s.view.index - (cur - 1).toNat ∨
      s.view.index < (cur - 1).toNat := by
      have h1 := (cur - 1).isLt
      have h2 := s.ring.writeCursor.isLt
      rw [BitVec.toNat_sub, hidx]
      omega
    rcases h.core.top_cases hn with ⟨-, g1, g2⟩ | ⟨w, k, f, ep', hw, g1, g2⟩ | ⟨w, f, hw, g0, g1, g2⟩
    · rcases hin with hin | ⟨hin, -⟩ <;> omega
    · rcases hin with hin | ⟨hin, hun⟩
      · omega
      · refine absurd ?_ (hun w _ (by rw [hw]; rfl))
        rw [setWidth_ofNat, slot_toNat, show s.claims.length = (cur - 1).toNat + 256 by omega]
        exact BitVec.eq_of_toNat_eq (by simp)
    · rcases hin with hin | ⟨hin, hun⟩
      · omega
      · refine absurd ?_ (hun w _ (by rw [hw]; rfl))
        rw [setWidth_ofNat, slot_toNat, show s.claims.length - 1 = (cur - 1).toNat + 256 by omega]
        exact BitVec.eq_of_toNat_eq (by simp)

/-- `release_stale` finds no mark of the receiver's bit before its `since`. -/
theorem Joint.stale (h : Joint s) {since pos : BitVec 32} {idx : Nat} {m : MPc}
    (hpc : (s.recvs i).pc = .rel since idx pos m) (hok : m.sound s (BitVec.ofNat 8 idx) pos) :
    (m.step s.ring (BitVec.ofNat 8 idx) pos (s.recvs i).connId).1 = s.ring ∧
      Joint { s with recvs := update s.recvs i { s.recvs i with
        pc := .relNext since idx pos (m.step s.ring (BitVec.ofNat 8 idx) pos (s.recvs i).connId).2 } } := by
  have hclaimed : (s.recvs i).pc.claimed = true := by rw [hpc]; rfl
  have hplace := h.place i
  simp only [Receiver.Place, hpc] at hplace
  obtain ⟨hrec, hlt, hfit⟩ := hplace
  obtain ⟨b₀, hb₀, hid, -⟩ := h.own i hclaimed
  obtain ⟨hring, hnext⟩ := hfit.step (g := s.ring) (x := BitVec.ofNat 8 idx) (c := pos) fun rc ver hm hrc => by
    rw [hid] at hfit
    have := h.mark_of_sound hb₀ hfit hok hm hrc hclaimed hid
    simp only [Receiver.since, hpc] at this
    rw [hrec] at this
    omega
  refine ⟨hring, ?_⟩
  cases hm : (m.step s.ring (BitVec.ofNat 8 idx) pos (s.recvs i).connId).2 with
  | some m' =>
    exact h.pass hpc rfl (by simp) (fun _ h => by cases h) (by intros; contradiction) ⟨hrec, hlt, hnext m' hm⟩
      (fun h => by cases h)
  | none =>
    simp only [RPc.relNext, RPc.staleFrom]
    split <;> exact h.pass hpc rfl (by simp) (by simp) (by intros; contradiction) hrec (by intros; contradiction)

/-- **Every access of a receiver.** -/
theorem Joint.recvStep {g : Ring} {r : Receiver} (h : Joint s) (hok : joining s (.recv i .go))
    (hst : (s.recvs i).step s.ring = some (g, r)) :
    Joint { s with ring := g, recvs := update s.recvs i r } := by
  have hplace := h.place i
  unfold Receiver.step at hst
  cases hpc : (s.recvs i).pc <;> simp only [hpc] at hst <;> simp only [Receiver.Place, hpc] at hplace <;>
    simp only [joining, hpc] at hok
  case closed => cases hst
  case readSince =>
    cases hst
    exact h.pass hpc rfl (by simp) (by simp) (by intros; contradiction) (Nat.le_refl _) (fun h => by cases h)
  case loadConns since =>
    split at hst <;> cases hst
    · exact h.pass hpc rfl (by simp) (by simp) (by intros; contradiction) trivial (fun h => by cases h)
    · rename_i hfull
      exact h.pass hpc rfl (by simp) (by simp) (by intros; contradiction) ⟨hplace, hfull⟩ (fun h => by cases h)
  case casConns since curr =>
    split at hst <;> cases hst
    · rename_i hc
      exact h.bit hpc hc
    · exact h.pass hpc rfl (by simp) (by simp) (by intros; contradiction) hplace.1 (fun h => by cases h)
  case setSince since =>
    cases hst
    exact h.record hpc
  case stale since idx =>
    cases hst
    split
    · rename_i hfl
      have hc := committed_flag hfl.1
      obtain ⟨hcom, -⟩ := h.flags _ _ hc
      have hlen := h.len
      refine h.pass hpc rfl (by simp) (by simp) (by intros; contradiction) ⟨hplace, ?_, trivial⟩ (fun h => by cases h)
      by_contra hge
      have := isLive_of_le (Nat.le_of_not_lt hge) (by have := hcom.1; omega)
      rw [hfl.2] at this
      cases this
    · simp only [RPc.staleFrom]
      split <;> exact h.pass hpc rfl (by simp) (by simp) (by intros; contradiction) hplace (by intros; contradiction)
  case rel since idx pos m =>
    cases hst
    obtain ⟨hring, hj⟩ := h.stale hpc hok
    rw [hring]
    exact hj
  case adoptEpoch since =>
    cases hst
    exact h.pass hpc rfl (by simp) (by simp) (by intros; contradiction) ⟨hplace, h.epoch⟩ (fun h => by cases h)
  case adoptCt since ep =>
    cases hst
    exact h.adopt hpc hok
  case adoptWalk since ep cur n =>
    split at hst <;> cases hst
    · refine h.stay (by rw [hpc]; rfl) rfl (fun _ => by simp only [Receiver.since, hpc]; rfl)
        (fun b m hb hm => ?_) trivial
        fun hr => by rw [hpc] at hr; cases hr
      exact h.guard i b m hb (by simp only [Receiver.low, hpc]; exact hm)
    · rename_i hgo
      simp only [not_or, ne_eq, Decidable.not_not] at hgo
      exact h.back hpc hgo.2.1 hgo.2.2.1 (hok hgo.1 hgo.2.1 hgo.2.2.1 hgo.2.2.2)
  case ownerTok =>
    cases hst
    exact h.owners (fun _ => rfl) (by rw [hpc]; rfl) rfl (by simp only [Receiver.since, hpc]; rfl)
      (by simp only [Receiver.low, hpc]) trivial (by rw [hpc]; rfl)
  case ownerPid =>
    cases hst
    exact h.owners (fun _ => rfl) (by rw [hpc]; rfl) rfl (by simp only [Receiver.since, hpc]; rfl)
      (by simp only [Receiver.low, hpc]) trivial (by rw [hpc]; rfl)
  case ready => cases hst
  case read k m =>
    obtain ⟨hread, hk, hag⟩ := hplace
    cases hst
    split
    · rename_i hlast
      refine h.passLow hpc rfl (by simp) (by simp) rfl ⟨hread, ?_⟩ (fun h => by cases h)
      exact ((hag.copy hk).eq (by omega)).symm
    · exact h.passLow hpc rfl (by simp) (by simp) rfl ⟨hread, by omega, hag.copy hk⟩ (fun h => by cases h)
  case relLoad m =>
    obtain ⟨hread, hdata⟩ := hplace
    have hlow : (s.recvs i).low = some (s.recvs i).readCursor.toNat := by simp only [Receiver.low, hpc]
    obtain ⟨b₀, hb₀, hid, -⟩ := h.own i (Receiver.claimed_of_low hlow)
    have hm : (Channel.marks (s.ring.slot (s.recvs i).readCursor).rc).getLsbD b₀ = true := by
      have := (h.guard i b₀ _ hid hlow).marks _ (Nat.le_refl _)
        (by have := (h.core.le_top h.len).1; have := hread.1; omega)
      rw [Ring.slot, slot_toNat]
      exact this
    cases hst
    split
    · rename_i h0
      rw [h0] at hm
      simp at hm
    · split
      · rename_i h0
        refine h.passLow hpc rfl (by simp) (by simp) rfl ⟨hread, hdata, fun _ hb => hb, fun b hb => ?_⟩ fun _ => rfl
        rw [marks_unmark] at h0
        have hbit := congrArg (fun y => y.getLsbD b) h0
        simp only [BitVec.getLsbD_and, BitVec.getLsbD_not, hb, Bool.true_and] at hbit
        have hb32 : b < 32 := by
          by_contra hge
          rw [BitVec.getLsbD_of_ge _ _ (by omega)] at hb
          cases hb
        simpa [hb32] using hbit
      · exact h.passLow hpc rfl (by simp) (by simp) rfl ⟨hread, hdata⟩ fun _ => rfl
  case preStore m rc =>
    cases hst
    exact h.free hpc
  case relCas m rc =>
    split at hst <;> cases hst
    · rename_i hrc
      exact h.release hpc hrc
    · exact h.passLow hpc rfl (by simp) (by simp) rfl hplace fun _ => rfl
  case bump m =>
    cases hst
    obtain ⟨c, hc⟩ := hplace
    have hlt := (h.core.log_lt hc).1
    have hlen := h.len
    have hnext : ((s.recvs i).readCursor + 1).toNat = (s.recvs i).readCursor.toNat + 1 := by
      rw [BitVec.toNat_add]
      simp
      omega
    refine h.stay (by rw [hpc]; rfl) rfl (fun _ => by simp only [Receiver.since, hpc]; rfl) (fun b k hb hk => ?_) trivial
      fun hr => by rw [hpc] at hr; cases hr
    refine h.guard i b k hb ?_
    simp only [Receiver.low, hpc, ← hnext]
    exact hk

/-- **Every step of the channel**, below `2 ^ 31` claims. -/
theorem Joint.step [DecidableEq ω] {act : Act ω ι} (h : Joint s) (hlen : s.claims.length < 2 ^ 31) (hok : joining s act)
    (hst : s.step act = some t) : Joint t := by
  rcases State.step_cases hst with ⟨w, a, g, pc, out, rfl, hp, rfl⟩ | ⟨i, ra, g, r, rfl, hr, rfl⟩
  · cases a with
    | go => exact h.writerStep hlen hok.1 hok.2 hp
    | call k f =>
      obtain rfl : k = .rust := hok
      have hcore := h.core.step (show sound s (.writer w (.call .rust f)) from trivial) hst
      cases hpc : s.writers w <;> rw [hpc] at hp <;> cases hp
      rw [List.append_nil] at hcore ⊢
      exact h.move hcore (by rw [hpc]; rfl) rfl rfl (reloads_of_none rfl)
    | fail =>
      have hcore := h.core.step (show sound s (.writer w .fail) from trivial) hst
      have hplain := h.plain w
      simp only [WPc.act] at hp
      split at hp <;> cases hp <;> rename_i hpc <;> rw [hpc] at hplain <;> rw [List.append_nil] at hcore ⊢
      · exact h.move hcore (by rw [hpc]; rfl) rfl ⟨hplain.1, hplain.2.1⟩ (reloads_of_none rfl)
      · cases hplain.1
      · cases hplain.1
      · exact h.move hcore (by rw [hpc]; rfl) rfl hplain (reloads_of_none rfl)
    | giveUp =>
      have hcore := h.core.step (show sound s (.writer w .giveUp) from trivial) hst
      simp only [WPc.act] at hp
      split at hp <;> cases hp
      rename_i hpc
      rw [List.append_nil] at hcore ⊢
      exact h.move hcore (by rw [hpc]; rfl) rfl trivial (reloads_of_none rfl)
  · have hplace := h.place i
    cases ra with
    | go => exact h.recvStep hok hr
    | disconnect => exact hok.elim
    | opens pid tok =>
      obtain ⟨r', hr', he⟩ := Option.map_eq_some_iff.mp hr
      cases he
      unfold Receiver.open at hr'
      split at hr' <;> cases hr'
      rename_i hpc
      exact h.stay (by rw [hpc]; rfl) rfl (fun hc => by rw [hpc] at hc; cases hc) (by intros; contradiction) trivial
        fun hc => by rw [hpc] at hc; cases hc
    | recv =>
      obtain ⟨r', hr', he⟩ := Option.map_eq_some_iff.mp hr
      cases he
      unfold Receiver.recv at hr'
      split at hr' <;> cases hr'
      rename_i hpc
      split
      · rename_i hfl
        exact h.passLow hpc rfl (by simp) (by simp) rfl ⟨(h.flags _ _ hfl).1, by decide, MsgT.agree_zero _ _⟩
          (fun h => by cases h)
      · rw [update_eq_self]
        exact h
    | fail =>
      obtain ⟨r', hr', he⟩ := Option.map_eq_some_iff.mp hr
      cases he
      unfold Receiver.fail at hr'
      split at hr' <;> cases hr' <;> rename_i hpc <;> simp only [Receiver.Place, hpc] at hplace
      · exact h.pass hpc rfl (by simp) (by simp) (by intros; contradiction) hplace.1 (fun h => by cases h)
      · exact h.pass hpc rfl (by simp) (by simp) (by intros; contradiction) hplace (fun h => by cases h)
      · exact h.passLow hpc rfl (by simp) (by simp) rfl hplace fun _ => rfl

end Steps

end ThothIpc.Channel
