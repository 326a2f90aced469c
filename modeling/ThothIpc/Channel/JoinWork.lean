import ThothIpc.Channel.Join

/-!
# The writers' work while receivers come and stay

* `Joint.claim`, `Joint.win`, `Joint.store`, `Joint.copy`, `Joint.commit` : the steps from the exchange on `rc_` to the
  commit;
* `Joint.late_fails` : `commit_multi` drops nobody's mark, since nobody's mark is on a position before its `since`;
* `Joint.writerStep` : every access of a writer.
-/

namespace ThothIpc.Channel
open Function

variable {ω ι : Type} {s t : State ω ι}

section Steps
variable [DecidableEq ω] {w : ω}

/-! ## From the claim to the commit -/

theorem WPc.Plain.mono {g g' : Ring} {pc : WPc} (h : pc.Plain g) (hc : Sub g.connections g'.connections)
    (hl : ∀ ct b, Late g ct b → Late g' ct b) : pc.Plain g' := by
  have hsub : ∀ {x}, Sub x g.connections → Sub x g'.connections := fun hx b hb => hc b (hx b hb)
  cases pc <;> simp only [WPc.Plain] at h ⊢
  case loadCt => exact ⟨h.1, h.2.1, hsub h.2.2⟩
  case loadRc => exact ⟨h.1, h.2.1, hsub h.2.2⟩
  case loadFl => exact ⟨h.1, h.2.1, hsub h.2.2⟩
  case cas => exact ⟨h.1, h.2.1, hsub h.2.2.1, h.2.2.2.1, fun hf => ⟨(h.2.2.2.2 hf).1, hsub (h.2.2.2.2 hf).2⟩⟩
  case live => exact ⟨h.1, fun b hb => (h.2 b hb).imp_right (Or.imp_right (hl _ b))⟩
  case drop => exact fun b hb => hl _ b (h b hb)
  case rel =>
    obtain ⟨h1, ⟨b, hb, hbit, hlate⟩, h3⟩ := h
    exact ⟨fun b hb => hl _ b (h1 b hb), ⟨b, hb, hbit, hl _ b hlate⟩, h3⟩
  all_goals exact h

theorem WPc.Plain.congr {g g' : Ring} {pc : WPc} (h : pc.Plain g) (hc : g'.connections = g.connections)
    (ho : g'.owners = g.owners) : pc.Plain g' :=
  h.mono (by rw [hc]; exact fun _ hb => hb) (fun ct b hl => by rw [Late, ho]; exact hl)

omit [DecidableEq ω] in
/-- When a claim finds its position free, nobody is on the way to the commit index. -/
theorem Claimable.calm (h : Core s) (hn : s.claims.length ≤ 2 ^ 31) {ct : BitVec 32} (hc : Claimable s ct) :
    (∀ v, (s.writers v).pending = false) ∧ s.view.index = s.claims.length ∧ s.view.top = s.claims.length := by
  rcases h.top_cases hn with h1 | ⟨v, k, f, ep, hv, -, -⟩ | ⟨v, f, hv, h0, hi, -⟩
  · exact h1
  · exact absurd (by rw [hc.next]) (hc.free v _ (by rw [hv]; rfl))
  · have : s.view.index = s.claims.length := by
      simp only [State.view, hc.index, BitVec.toNat_ofNat]
      omega
    omega

theorem slot_toNat (c : BitVec 32) : c.setWidth 8 = BitVec.ofNat 8 c.toNat := by
  rw [← setWidth_ofNat, BitVec.ofNat_toNat, BitVec.setWidth_eq]

theorem Joint.claim {a : Attempt} {checked : Bool} (h : Joint s) (hw : s.writers w = .cas a checked)
    (hrc : (s.ring.slot a.ct).rc = a.rc) (hc : Claimable s a.ct)
    (hmask : ∀ i, (s.recvs i).low.isSome = true → a.cc &&& (s.recvs i).connId ≠ 0)
    (ht : t = { s with
      ring := s.ring.setRc (a.ct.setWidth 8) (stamp a.epoch a.rc a.cc)
      writers := update s.writers w (.validate a.call a.frag a.epoch a.ct) }) (hcore : Core t) : Joint t := by
  obtain ⟨hk, hep, hsub, hno, -⟩ : a.call = .rust ∧ a.epoch = 0 ∧ Sub a.cc s.ring.connections ∧
      a.cc &&& Channel.marks a.rc = 0 ∧ (checked = false → _) := by
    have := h.plain w
    rwa [hw] at this
  obtain ⟨hcalm, hidx, htop⟩ := hc.calm h.core h.len
  have hlen := h.len
  have hnat : a.ct.toNat = s.claims.length := by
    rw [hc.next, BitVec.toNat_ofNat]
    omega
  have hx : a.ct.setWidth 8 = BitVec.ofNat 8 s.claims.length := by rw [slot_toNat, hnat]
  have hloaded : s.view.loaded w = some (a.cc, some s.view.top) := by
    simp only [State.view] at htop ⊢
    rw [hw, htop, ← hnat]
    rfl
  have hring : t.ring = s.ring.setRc (BitVec.ofNat 8 s.claims.length) (stamp a.epoch a.rc a.cc) := by rw [ht, hx]
  have hslots : ∀ y, y ≠ BitVec.ofNat 8 s.claims.length → t.ring.slots y = s.ring.slots y := fun y hy => by
    rw [hring, slots_setRc_of_ne hy]
  have hself : (t.ring.slots (BitVec.ofNat 8 s.claims.length)).rc = stamp a.epoch a.rc a.cc := by
    rw [hring, slots_setRc_self]
  have hfl : ∀ y, (t.ring.slots y).fCt = (s.ring.slots y).fCt := fun y => by rw [hring, (setRc_frame ..).1]
  have hview : t.view = s.view.stamp w a.cc := by
    have hpend : ∃ v, (t.writers v).pending = true := ⟨w, by rw [ht]; simp [WPc.pending]⟩
    have hcursor : t.ring.writeCursor = s.ring.writeCursor := by rw [ht]; rfl
    simp only [State.view, hcursor] at htop hidx ⊢
    simp only [View.stamp, View.load, View.mk.injEq, true_and, htop, if_pos hpend]
    refine ⟨funext fun y => ?_, by omega, funext fun v => ?_⟩
    · by_cases hy : y = BitVec.ofNat 8 s.claims.length
      · subst hy
        rw [hself, update_self, marks_stamp]
      · rw [hslots y hy, update_of_ne hy]
    · rw [ht]
      by_cases hv : v = w
      · subst hv
        simp [WPc.loaded]
      · simp [hv]
  have hcom : ∀ p, Committed t p ↔ Committed s p := by
    intro p
    rw [ht]
    exact committed_update (by rw [hw]; rfl) p
  have hguard : ∀ i b m, (s.recvs i).connId = BitVec.twoPow 32 b → (s.recvs i).low = some m → Guard s.view b m →
      Guard t.view b m := by
    intro i b m hid hlow hg
    rw [hview]
    have hb : a.cc.getLsbD b = true := by
      obtain ⟨b', hb', hid', -⟩ := h.own i (Receiver.claimed_of_low hlow)
      obtain rfl := Bits.twoPow_inj hb' (hid'.symm.trans hid)
      have := hmask i (by rw [hlow]; rfl)
      rwa [hid, ne_eq, Bits.and_twoPow_eq_zero hb', Bool.not_eq_false] at this
    refine hg.stamp hb fun hm => ?_
    -- the mask has no bit of the marks it goes over
    have hbit : (a.cc &&& Channel.marks a.rc).getLsbD b = true := by
      rw [BitVec.getLsbD_and, hb, Bool.true_and, ← hrc]
      rw [htop] at hm
      simp only [View.Marked, State.view] at hm
      rwa [Ring.slot, hx]
    rw [hno] at hbit
    simp at hbit
  refine h.writer hcore (by rw [ht]; exact hlen) (by rw [ht]) (by rw [ht]; rfl) (by rw [ht]; rfl) (by rw [ht]; rfl)
    (fun y => ?_) (fun y => ?_) (fun y c hy => ?_) (fun v => ?_) (fun b σ hf => ?_) hguard (fun i => ?_)
    fun p h1 h2 h3 h4 => ?_
  · by_cases hy : y = BitVec.ofNat 8 s.claims.length
    · subst hy
      rw [hself, epoch_stamp (by rw [hep]; intro i _; simp)]
      exact hep
    · rw [hslots y hy]
      exact h.rc y
  · by_cases hy : y = BitVec.ofNat 8 s.claims.length
    · subst hy
      rw [hself, marks_stamp]
      exact hsub
    · rw [hslots y hy]
      exact h.marks y
  · rw [hfl] at hy
    rw [hcom]
    exact h.flags y c hy
  · have hp : (t.writers v).Plain s.ring := by
      rw [ht]
      refine h.plain_update ?_ v
      exact ⟨hk, hep⟩
    exact hp.congr (by rw [ht]; rfl) (by rw [ht]; rfl)
  · rw [hview]
    exact hf.stamp fun hb => hf.loop w a.cc _ hloaded hb
  · refine (h.place i).mono (by rw [ht]; exact Nat.le_refl _) (fun _ => by rw [ht]; rfl) (fun p hp => (hcom p).mpr hp)
      (fun hread hlow => ?_) fun _ _ hk => by rw [ht]; exact hk
    have hne : (s.recvs i).readCursor.setWidth 8 ≠ BitVec.ofNat 8 s.claims.length := by
      obtain ⟨b, -, hid, -⟩ := h.own i (Receiver.claimed_of_low hlow)
      have hlap := (hguard i b _ hid hlow (h.guard i b _ hid hlow)).lap
      rw [hview] at hlap
      simp only [View.stamp, htop] at hlap
      rw [slot_toNat]
      exact ofNat_slot_ne hread.1 (by omega)
    rw [Ring.slot, hslots _ hne]
    exact ⟨rfl, fun _ hb => hb⟩
  · have hp := ((hcom p).mp h3).1
    rw [hview] at h1 h2
    simp only [View.stamp, htop] at h1 h2
    refine ⟨by omega, by omega, (hcom p).mp h3, by rw [slotAt, ← hfl]; exact h4, fun b hm => ?_⟩
    rw [hview, View.marked_stamp (by omega) (by omega)] at hm
    rcases hm with ⟨he, -⟩ | ⟨-, hm⟩
    · omega
    · exact hm

omit [DecidableEq ω] in
theorem Joint.pos_inj (h : Joint s) {p q : Nat} (hp : p ≤ s.claims.length) (hq : q ≤ s.claims.length)
    (he : BitVec.ofNat 32 p = BitVec.ofNat 32 q) : p = q := by
  have := h.len
  exact (Bits.ofNat_inj_close (by omega) (by omega)).mp he

theorem Joint.win {k : Call} {f : MsgT} {ep : BitVec 64} {ct : BitVec 32} (h : Joint s)
    (hw : s.writers w = .validate k f ep ct) (hlen : s.claims.length < 2 ^ 31)
    (ht : t = { s with writers := update s.writers w (.storeCt f ct), claims := s.claims ++ [(ct, f)] })
    (hcore : Core t) : Joint t := by
  have hct : ct = BitVec.ofNat 32 s.claims.length := by
    have := h.core.work w
    rw [hw] at this
    exact this.1
  have hn : t.claims.length = s.claims.length + 1 := by rw [ht]; simp
  have hview : t.view = s.view.load w none := by
    have := view_writers (s := s) (w := w) (q := .storeCt f ct) (by rw [hw]; rfl)
    rw [ht]
    exact this
  have hwon : ∀ v, v ≠ w → (t.writers v).won = (s.writers v).won := fun v hv => by
    rw [ht]
    simp only [update_of_ne hv]
  have hself : (t.writers w).won = some (ct, f) := by
    rw [ht]
    simp only [update_self]
    rfl
  have hcom : ∀ p, Committed s p → Committed t p := by
    refine fun p hp => ⟨by have := hp.1; omega, fun v d hv => ?_⟩
    by_cases hvw : v = w
    · subst hvw
      rw [hself, hct] at hv
      exact absurd (h.pos_inj (Nat.le_refl _) (Nat.le_of_lt hp.1) (congrArg Prod.fst (Option.some.inj hv)))
        (Nat.ne_of_gt hp.1)
    · rw [hwon v hvw] at hv
      exact hp.2 v d hv
  refine h.writer hcore (by omega) (by rw [ht]) (by rw [ht]) (by rw [ht]) (by rw [ht]) (by rw [ht]; exact h.rc)
    (by rw [ht]; exact h.marks) (fun y c hy => ?_) (fun v => ?_) (fun b σ hf => ?_) (fun i b m _ _ hg => ?_)
    (fun i => ?_)
    fun p h1 h2 h3 h4 => ?_
  · obtain ⟨h1, h2⟩ := h.flags y c (by rw [ht] at hy; exact hy)
    exact ⟨hcom _ h1, h2⟩
  · rw [ht]
    refine h.plain_update ?_ v
    trivial
  · rw [hview]
    exact hf.load nofun
  · rw [hview]
    exact hg.load
  · refine (h.place i).mono (by rw [ht])
      (fun _ => by rw [ht]) hcom (fun _ _ => by rw [ht]; exact ⟨rfl, fun _ hb => hb⟩) ?_
    intro j x hj
    rw [ht]
    simp only
    rw [List.getElem?_append_left (List.getElem?_eq_some_iff.mp hj).1, hj]
  · rw [hview] at h1 h2
    have hne : p ≠ s.claims.length := by
      rintro rfl
      exact h3.2 w f (by rw [hself, hct])
    refine ⟨h1, h2, ⟨by have := h3.1; omega, fun v d hv => ?_⟩, by rw [ht] at h4; exact h4, fun b hb => by
      rw [hview] at hb; exact hb⟩
    by_cases hvw : v = w
    · rw [hvw, hw] at hv
      cases hv
    · exact h3.2 v d (by rw [hwon v hvw]; exact hv)

theorem Joint.store {f : MsgT} {ct : BitVec 32} (h : Joint s) (hw : s.writers w = .storeCt f ct)
    (ht : t = { s with
      ring := { s.ring with writeCursor := ct + 1 }, writers := update s.writers w (.write f ct 0) })
    (hcore : Core t) : Joint t := by
  obtain ⟨h0, hct, hidx⟩ := h.core.pending hw
  have hlen := h.len
  have hi : s.view.index = s.claims.length - 1 := by
    simp only [State.view, hidx, hct, BitVec.toNat_ofNat]
    omega
  have hs : s.view.top = s.claims.length := by
    simp only [State.view] at hi ⊢
    rw [if_pos ⟨w, by rw [hw]; rfl⟩]
    omega
  have hother : ∀ v, v ≠ w → (s.writers v).pending = false := by
    intro v hv
    by_contra hp
    have hl := h.core.work v
    cases hpc : s.writers v <;> rw [hpc] at hp hl <;> simp only [WPc.pending, not_true] at hp
    case validate k d ep c =>
      simp only [State.view, hl.2, BitVec.toNat_ofNat] at hi
      omega
    case storeCt d c =>
      refine h.core.one v w c ct hv (by rw [hpc]; rfl) (by rw [hw]; rfl) ?_
      rw [hl.2.1, hct]
  have hview : t.view = (s.view.load w none).store := by
    have hno : ¬∃ v, (t.writers v).pending = true := by
      rintro ⟨v, hv⟩
      rw [ht] at hv
      by_cases hvw : v = w
      · subst hvw
        simp [WPc.pending] at hv
      · simp only [update_of_ne hvw] at hv
        rw [hother v hvw] at hv
        cases hv
    have hnew : t.ring.writeCursor.toNat = s.claims.length := by
      rw [ht]
      simp only
      rw [hct, Bits.ofNat_add_one, BitVec.toNat_ofNat]
      omega
    simp only [State.view] at hi hs
    simp only [State.view, View.store, View.load, View.mk.injEq]
    refine ⟨by rw [ht], by rw [if_neg hno, hs, hnew, Nat.add_zero], by omega, funext fun v => ?_⟩
    rw [ht]
    by_cases hv : v = w
    · subst hv
      simp [WPc.loaded]
    · simp [hv]
  have hcom : ∀ p, Committed t p ↔ Committed s p := by
    intro p
    rw [ht]
    exact committed_update (by rw [hw]; rfl) p
  refine h.writer hcore (by rw [ht]; exact hlen) (by rw [ht]) (by rw [ht]) (by rw [ht]) (by rw [ht])
    (by rw [ht]; exact h.rc) (by rw [ht]; exact h.marks) (fun y c hy => ?_) (fun v => ?_) (fun b σ hf => ?_)
    (fun i b m _ _ hg => ?_) (fun i => ?_) fun p h1 h2 h3 h4 => ?_
  · rw [hcom]
    exact h.flags y c (by rw [ht] at hy; exact hy)
  · have hp : (t.writers v).Plain s.ring := by
      rw [ht]
      refine h.plain_update ?_ v
      trivial
    exact hp.congr (by rw [ht]) (by rw [ht])
  · rw [hview]
    exact (hf.load (x := none) (by simp)).store
  · rw [hview]
    exact (hg.load (x := none)).store
  · refine (h.place i).mono ?_ (fun _ => by rw [ht]; rfl) (fun p hp => (hcom p).mpr hp)
      (fun _ _ => by rw [ht]; exact ⟨rfl, fun _ hb => hb⟩) fun _ _ hk => by rw [ht]; exact hk
    show s.view.index ≤ t.view.index
    rw [hview]
    exact Nat.le_succ _
  · rw [hview] at h1 h2
    exact ⟨h1, h2, (hcom p).mp h3, by rw [ht] at h4; exact h4, fun b hb => by rw [hview] at hb; exact hb⟩

omit [DecidableEq ω] in
theorem Joint.unworked (h : Joint s) {i : ι} (hread : Committed s (s.recvs i).readCursor.toNat)
    (hlow : (s.recvs i).low = some (s.recvs i).readCursor.toNat) :
    Unworked s ((s.recvs i).readCursor.setWidth 8) := by
  obtain ⟨b, -, hid, -⟩ := h.own i (Receiver.claimed_of_low hlow)
  rw [slot_toNat]
  exact h.core.unworked h.len hread (h.guard i b _ hid hlow).lap

theorem Joint.copy {f : MsgT} {ct : BitVec 32} {k : Nat} {g : Ring} {pc : WPc} (h : Joint s)
    (hw : s.writers w = .write f ct k)
    (hg : g = s.ring.setData (ct.setWidth 8) (f.copy k (s.ring.slot ct).data))
    (hpc : pc = if k + 1 = MsgT.fields then .commit f ct else .write f ct (k + 1))
    (hcore : Core { s with ring := g, writers := update s.writers w pc }) :
    Joint { s with ring := g, writers := update s.writers w pc } := by
  have hrest := fun y => hg ▸ setData_frame s.ring (ct.setWidth 8) y (f.copy k (s.ring.slot ct).data)
  have hview : State.view { s with ring := g, writers := update s.writers w pc } = s.view.load w none := by
    have := view_writers (s := s) (w := w) (q := pc) (by rw [hpc, hw]; split <;> rfl)
    rw [show pc.loaded = none by rw [hpc]; split <;> rfl] at this
    rw [← this]
    simp only [State.view, (hrest _).1]
    rw [hg]
    rfl
  have hcom : ∀ p, Committed { s with ring := g, writers := update s.writers w pc } p ↔ Committed s p :=
    committed_update (by rw [hpc, hw]; split <;> rfl)
  refine h.writer hcore h.len rfl (by rw [hg]; rfl) (by rw [hg]; rfl) (by rw [hg]; rfl) (fun y => ?_) (fun y => ?_)
    (fun y c hy => ?_) (fun v => ?_) (fun b σ hf => ?_) (fun i b m _ _ hgd => ?_) (fun i => ?_) fun p h1 h2 h3 h4 => ?_
  · rw [(hrest y).1]
    exact h.rc y
  · rw [(hrest y).1]
    exact h.marks y
  · rw [(hrest y).2.1] at hy
    rw [hcom]
    exact h.flags y c hy
  · have hp : (update s.writers w pc v).Plain s.ring := by
      refine h.plain_update ?_ v
      rw [hpc]
      split <;> trivial
    exact hp.congr (by rw [hg]; rfl) (by rw [hg]; rfl)
  · rw [hview]
    exact hf.load (by simp)
  · rw [hview]
    exact hgd.load
  · refine (h.place i).mono (by rw [hg]; exact Nat.le_refl _) (fun _ => by rw [hg]; rfl) (fun p hp => (hcom p).mpr hp)
      (fun hread hlow => ?_) fun _ _ hk => hk
    have hne := h.unworked hread hlow w ct (by rw [hw]; rfl)
    refine ⟨?_, fun b hb => ?_⟩
    · rw [hg]
      simp only [Ring.slot, Ring.setData, update_of_ne hne.symm]
    · simp only [Ring.slot, (hrest _).1] at hb ⊢
      exact hb
  · rw [hview] at h1 h2
    refine ⟨h1, h2, (hcom p).mp h3, ?_, fun b hb => by rw [hview] at hb; exact hb⟩
    rw [slotAt, (hrest _).2.1] at h4
    exact h4

theorem Joint.commit {f : MsgT} {ct : BitVec 32} (h : Joint s) (hw : s.writers w = .commit f ct)
    (ht : t = { s with
      ring := s.ring.setFl (ct.setWidth 8) (atPos ct), writers := update s.writers w (.loadMarks ct) })
    (hcore : Core t) : Joint t := by
  have hwon : (s.writers w).won = some (ct, f) := by rw [hw]; rfl
  obtain ⟨q, hq, hqle, hqlog⟩ := h.core.won w ct f hwon
  have hqlt := (h.core.log_lt hqlog).1
  have hlen := h.len
  have hnat : ct.toNat = q := by
    rw [hq, BitVec.toNat_ofNat]
    omega
  have hrest : ∀ y, (t.ring.slots y).rc = (s.ring.slots y).rc ∧ (t.ring.slots y).data = (s.ring.slots y).data ∧
      (t.ring.slots y).ver = (s.ring.slots y).ver := fun y => ht ▸ setFl_frame s.ring (ct.setWidth 8) y (atPos ct)
  have hview : t.view = s.view.load w none := by
    have := view_writers (s := s) (w := w) (q := .loadMarks ct) (by rw [hw]; rfl)
    rw [show WPc.loaded (.loadMarks ct) = none from rfl] at this
    rw [← this]
    simp only [State.view, (hrest _).1]
    rw [ht]
    rfl
  have hothers : ∀ v d p, v ≠ w → (t.writers v).won = some (BitVec.ofNat 32 p, d) →
      (s.writers v).won = some (BitVec.ofNat 32 p, d) := fun v d p hvw hv => by
    rw [ht] at hv
    simp only [update_of_ne hvw] at hv
    exact hv
  have hself : (t.writers w).won = none := by
    rw [ht]
    simp only [update_self]
    rfl
  have hmono : ∀ p, Committed s p → Committed t p := by
    refine fun p hp => ⟨by rw [ht]; exact hp.1, fun v d hv => ?_⟩
    by_cases hvw : v = w
    · rw [hvw, hself] at hv
      cases hv
    · exact hp.2 v d (hothers v d p hvw hv)
  have hnew : Committed t q := by
    refine ⟨by rw [ht]; exact hqlt, fun v d hv => ?_⟩
    by_cases hvw : v = w
    · rw [hvw, hself] at hv
      cases hv
    · refine h.core.one v w _ ct hvw (WPc.at_of_won (hothers v d q hvw hv)) (WPc.at_of_won hwon) ?_
      rw [hq]
  refine h.writer hcore (by rw [ht]; exact hlen) (by rw [ht]) (by rw [ht]; rfl) (by rw [ht]; rfl) (by rw [ht]; rfl)
    (fun y => ?_) (fun y => ?_) (fun y c hy => ?_) (fun v => ?_) (fun b σ hf => ?_) (fun i b m _ _ hgd => ?_)
    (fun i => ?_)
    fun p h1 h2 h3 h4 => ?_
  · rw [(hrest y).1]
    exact h.rc y
  · rw [(hrest y).1]
    exact h.marks y
  · by_cases hyx : y = ct.setWidth 8
    · rw [ht] at hy
      simp only [Ring.setFl, hyx, update_self] at hy
      obtain rfl := atPos_inj hy
      exact ⟨by rw [hnat]; exact hnew, hyx.symm⟩
    · rw [ht] at hy
      simp only [Ring.setFl, update_of_ne hyx] at hy
      obtain ⟨h1, h2⟩ := h.flags y c hy
      exact ⟨hmono _ h1, h2⟩
  · have hp : (t.writers v).Plain s.ring := by
      rw [ht]
      refine h.plain_update ?_ v
      show ct.toNat < 2 ^ 31
      omega
    exact hp.congr (by rw [ht]; rfl) (by rw [ht]; rfl)
  · rw [hview]
    exact hf.load (by simp)
  · rw [hview]
    exact hgd.load
  · refine (h.place i).mono (by rw [ht]; exact Nat.le_refl _) (fun _ => by rw [ht]; rfl) hmono (fun _ _ => ?_)
      fun _ _ hk => by rw [ht]; exact hk
    simp only [Ring.slot, (hrest _).1, (hrest _).2.1]
    exact ⟨trivial, fun _ hb => hb⟩
  · rw [hview] at h1 h2
    simp only [View.load] at h1 h2
    have hpn : p < s.claims.length := by
      have := h3.1
      rw [ht] at this
      exact this
    have htop := (h.core.le_top hlen).1
    have hpq : p ≠ q := by
      rintro rfl
      apply h4
      rw [ht, slotAt]
      simp only [Ring.setFl, hq, setWidth_ofNat, update_self]
    refine ⟨h1, h2, ⟨hpn, fun v d hv => ?_⟩, ?_, fun b hb => by rw [hview] at hb; exact hb⟩
    · by_cases hvw : v = w
      · rw [hvw, hwon, hq] at hv
        exact hpq (h.pos_inj (Nat.le_of_lt hpn) (Nat.le_of_lt hqlt) (congrArg Prod.fst (Option.some.inj hv)).symm)
      · refine h3.2 v d ?_
        rw [ht]
        simp only [update_of_ne hvw]
        exact hv
    · have hne : BitVec.ofNat 8 p ≠ ct.setWidth 8 := by
        rw [hq, setWidth_ofNat, ne_eq, slot_inj (by omega) (by omega)]
        exact hpq
      rw [ht, slotAt] at h4
      simp only [Ring.setFl, update_of_ne hne] at h4
      exact h4

/-! ## Marks that are not dropped -/

omit [DecidableEq ω] in
/-- A mark on a committed slot is of a receiver that started at or before its position. -/
theorem Joint.since_le (h : Joint s) {x : BitVec 8} {pos : BitVec 32} {b : Nat} (hfl : (s.ring.slots x).fCt = atPos pos)
    (hw : Unworked s x) (hm : (Channel.marks (s.ring.slots x).rc).getLsbD b = true) {i : ι}
    (hi : (s.recvs i).pc.claimed = true) (hb : (s.recvs i).connId = BitVec.twoPow 32 b) :
    ((s.recvs i).since s.ring).toNat ≤ pos.toNat := by
  obtain ⟨p, hp, hle, rfl, rfl⟩ := h.core.at_cursor hw (Or.inl hfl)
  have hlen := h.len
  have htop := (h.core.le_top hlen).1
  have hle' := (h.floor i b hi hb).marks p (by omega) (h.core.top_le hlen hw hle) hm
  rwa [BitVec.toNat_ofNat, Nat.mod_eq_of_lt (by omega)]

theorem MPc.Fits.step {g : Ring} {x : BitVec 8} {c bit : BitVec 32} {m : MPc} (h : m.Fits bit)
    (hno : ∀ rc ver, m = .cas rc ver → (g.slots x).rc ≠ rc) :
    (m.step g x c bit).1 = g ∧ ∀ m', (m.step g x c bit).2 = some m' → m'.Fits bit := by
  have htest : ∀ m', MPc.test g x bit = some m' → m'.Fits bit := by
    intro m' hm'
    unfold MPc.test at hm'
    split at hm' <;> cases hm'
    assumption
  cases m with
  | load => exact ⟨rfl, htest⟩
  | fl rc ver =>
    refine ⟨rfl, fun m' hm' => ?_⟩
    simp only [MPc.step] at hm'
    split at hm' <;> cases hm'
    exact h
  | cas rc ver =>
    simp only [MPc.step, if_neg (hno rc ver rfl)]
    exact ⟨trivial, htest⟩
  | free => exact h.elim

omit [DecidableEq ω] in
/-- A word whose mark `release_mark` is after, on a slot where it may take it off. -/
theorem Joint.mark_of_sound (h : Joint s) {x : BitVec 8} {pos : BitVec 32} {b : Nat} (hb : b < 32) {m : MPc}
    (hfit : m.Fits (BitVec.twoPow 32 b)) (hok : m.sound s x pos) {rc : BitVec 64} {ver : Nat} (hm : m = .cas rc ver)
    (hrc : (s.ring.slots x).rc = rc) {i : ι} (hi : (s.recvs i).pc.claimed = true)
    (hid : (s.recvs i).connId = BitVec.twoPow 32 b) : ((s.recvs i).since s.ring).toNat ≤ pos.toNat := by
  subst hm
  obtain ⟨hw, hfl⟩ := hok hrc
  refine h.since_le hfl hw ?_ hi hid
  have hbit : rc.getLsbD b = true := by
    by_contra hno
    rw [Bool.not_eq_true] at hno
    refine hfit ?_
    refine BitVec.eq_of_getLsbD_eq fun j _ => ?_
    rw [BitVec.getLsbD_and, Bits.getLsbD_zeroExtend, BitVec.getLsbD_twoPow]
    by_cases hj : b = j
    · subst hj
      simp [hno]
    · simp [hj]
  rw [hrc, getLsbD_marks, hbit]
  simp [hb]

omit [DecidableEq ω] in
/-- Nobody is late on a slot that carries its mark: a dropper's exchange does not go through. -/
theorem Joint.late_fails (h : Joint s) {ct bit : BitVec 32} {m : MPc}
    (hl : ∃ b < 32, bit = BitVec.twoPow 32 b ∧ Late s.ring ct b) (hfit : m.Fits bit)
    (hok : m.sound s (ct.setWidth 8) ct) (rc : BitVec 64) (ver : Nat) (hm : m = .cas rc ver) :
    (s.ring.slots (ct.setWidth 8)).rc ≠ rc := by
  intro hrc
  obtain ⟨b, hb, rfl, hlate⟩ := hl
  have hconn : s.ring.connections.getLsbD b = true := by
    by_contra hno
    rw [Bool.not_eq_true] at hno
    rw [Late, h.table b hb hno] at hlate
    simp at hlate
  obtain ⟨i, hi, hid⟩ := h.owner b hconn
  have hle := h.mark_of_sound hb hfit hok hm hrc hi hid
  have hrec : (s.recvs i).recorded s.ring = (s.ring.owners b).since := by
    rw [Receiver.recorded, hid, slotIndex_twoPow hb]
  have hplace := h.place i
  cases hpc : (s.recvs i).pc <;> simp only [Receiver.since, Receiver.Place, hpc] at hle hplace
  case setSince σ =>
    rw [Late, ← hrec, hplace] at hlate
    simp at hlate
  all_goals
    rw [hrec] at hle
    rw [Late] at hlate
    omega

theorem isLive_of_le {since pos : BitVec 32} (h : since.toNat ≤ pos.toNat) (hp : pos.toNat < 2 ^ 31) :
    isLive since pos = true := by
  have hs : since = BitVec.ofNat 32 since.toNat := by rw [BitVec.ofNat_toNat, BitVec.setWidth_eq]
  have hq : pos = BitVec.ofNat 32 pos.toNat := by rw [BitVec.ofNat_toNat, BitVec.setWidth_eq]
  rw [hs, hq, isLive_iff h]
  omega

/-- A claim that goes through is addressed to every receiver whose `adopt_cursor` has loaded the commit index. -/
def addressed (s : State ω ι) (w : ω) : Prop :=
  match s.writers w with
  | .cas a _ => (s.ring.slot a.ct).rc = a.rc → ∀ i, (s.recvs i).low.isSome = true → a.cc &&& (s.recvs i).connId ≠ 0
  | _ => True

/-- **Every access of a writer.** -/
theorem Joint.writerStep {g : Ring} {pc : WPc} {out : List (BitVec 32 × MsgT)} (h : Joint s)
    (hlen : s.claims.length < 2 ^ 31) (hok : sound s (.writer w .go)) (haddr : addressed s w)
    (hst : (s.writers w).step s.ring s.claims.length = some (g, pc, out)) :
    Joint { s with ring := g, writers := update s.writers w pc, claims := s.claims ++ out } := by
  have hcore := h.core.writerStep hok hst
  have hp := h.plain w
  have hl := h.core.loop w
  cases hpc : s.writers w <;> rw [hpc] at hst hp hl <;> simp only [WPc.step] at hst <;> simp only [WPc.Plain] at hp
  case idle => cases hst
  case loadEpoch k f =>
    cases hst
    rw [List.append_nil] at hcore ⊢
    exact h.move hcore (by rw [hpc]; rfl) rfl ⟨hp, h.epoch⟩ (reloads_of_none rfl)
  case loadCc k f ep =>
    obtain ⟨rfl, rfl⟩ := hp
    split at hst <;> cases hst <;> rw [List.append_nil] at hcore ⊢
    · exact h.move hcore (by rw [hpc]; rfl) rfl trivial (reloads_of_none rfl)
    · refine h.move hcore (by rw [hpc]; rfl) rfl ⟨rfl, rfl, fun _ hb => hb⟩ fun cc ct ho => ?_
      cases ho
  case loadCt k f ep cc =>
    cases hst
    rw [List.append_nil] at hcore ⊢
    refine h.move hcore (by rw [hpc]; rfl) rfl hp fun cc' ct ho => ?_
    cases ho
    exact Or.inl rfl
  case loadRc k f ep cc ct seen =>
    obtain ⟨rfl, rfl, hsub⟩ := hp
    cases hst
    rw [List.append_nil] at hcore ⊢
    refine h.move hcore (by rw [hpc]; rfl) (tested_at _) ?_ ?_
    · simp only [WPc.tested]
      split
      · exact ⟨rfl, rfl⟩
      · rename_i hbusy
        have hno : cc &&& Channel.marks (s.ring.slot ct).rc = 0 := by
          by_contra hne
          exact hbusy ⟨hne, h.rc _⟩
        split
        · exact ⟨rfl, rfl, hsub⟩
        · rename_i hm
          exact ⟨rfl, rfl, hsub, hno, fun _ => ⟨hm, h.marks _⟩⟩
    · simp only [WPc.tested]
      split
      · exact reloads_of_none rfl
      · split <;> exact reloads_of_same (by rw [hpc]; rfl)
  case loadFl a =>
    cases hst
    rw [List.append_nil] at hcore ⊢
    refine h.move hcore (by rw [hpc]; rfl) (by split <;> rfl) ?_ ?_
    · split
      · exact ⟨hp.1, hp.2.1⟩
      · exact ⟨hp.1, hp.2.1, hp.2.2, by rw [hl.2.2.2.2]; simp, (by simp)⟩
    · split
      · exact reloads_of_none rfl
      · exact reloads_of_same (by rw [hpc]; rfl)
  case busy k f ep =>
    obtain ⟨rfl, rfl⟩ := hp
    cases hst
    rw [List.append_nil] at hcore ⊢
    exact h.move hcore (by rw [hpc]; rfl) rfl ⟨rfl, rfl⟩ (reloads_of_none rfl)
  case cas a checked =>
    split at hst <;> cases hst <;> rw [List.append_nil] at hcore ⊢
    · rename_i hrc
      simp only [sound, hpc] at hok
      simp only [addressed, hpc] at haddr
      exact h.claim hpc hrc (h.core.claimable hpc hrc (hok hrc)) (haddr hrc) rfl hcore
    · exact h.move hcore (by rw [hpc]; rfl) rfl ⟨hp.1, hp.2.1⟩ (reloads_of_none rfl)
  case validate k f ep ct =>
    rw [hp.2, if_pos h.epoch] at hst
    cases hst
    exact h.win hpc hlen rfl hcore
  case storeCt f ct =>
    cases hst
    rw [List.append_nil] at hcore ⊢
    exact h.store hpc rfl hcore
  case write f ct k =>
    cases hst
    rw [List.append_nil] at hcore ⊢
    exact h.copy hpc rfl rfl hcore
  case commit f ct =>
    cases hst
    rw [List.append_nil] at hcore ⊢
    exact h.commit hpc rfl hcore
  case loadMarks ct =>
    cases hst
    rw [List.append_nil] at hcore ⊢
    refine h.move hcore (by rw [hpc]; rfl) (by split <;> rfl) ?_ ?_
    · split
      · trivial
      · exact ⟨hp, fun b hb => Or.inl hb⟩
    · split <;> exact reloads_of_none rfl
  case live ct bits todo acc =>
    split at hst <;> cases hst <;> rw [List.append_nil] at hcore ⊢
    · rename_i h0
      refine h.move hcore (by rw [hpc]; rfl) rfl (fun b hb => ?_) (reloads_of_none rfl)
      rw [BitVec.getLsbD_and, BitVec.getLsbD_not, Bool.and_eq_true] at hb
      have := hp.2 b hb.1
      simp only [h0, BitVec.ofNat_eq_ofNat, BitVec.getLsbD_zero, Bool.false_eq_true, false_or] at this
      rcases this with hacc | hlate
      · simp [hacc] at hb
      · exact hlate
    · rename_i h0
      refine h.move hcore (by rw [hpc]; rfl) rfl ⟨hp.1, fun b hb => ?_⟩ (reloads_of_none rfl)
      obtain ⟨l, -, -, -, h1, h2⟩ := liveStep_spec s.ring.owners ct todo acc h0
      rw [h1, h2]
      rcases hp.2 b hb with ht | hacc | hlate
      · by_cases hbl : b = l
        · subst hbl
          refine Or.inr ((Nat.lt_or_ge ct.toNat (s.ring.owners b).since.toNat).symm.imp (fun hge => ?_) id)
          simp [isLive_of_le hge hp.1]
        · exact Or.inl (by simp [ht, hbl])
      · exact Or.inr (Or.inl (by simp [hacc]))
      · exact Or.inr (Or.inr hlate)
  case drop ct stale =>
    cases hst
    rw [List.append_nil] at hcore ⊢
    refine h.move hcore (by rw [hpc]; rfl) (by split <;> rfl) ?_ ?_
    · split
      · trivial
      · rename_i hne
        obtain ⟨l, hl, hml, -, hbit, hrest⟩ := Bits.exists_lowest stale hne
        refine ⟨fun b hb => hp b ?_, ⟨l, hl, hbit, hp l hml⟩, trivial⟩
        rw [hrest, Bool.and_eq_true] at hb
        exact hb.1
    · split <;> exact reloads_of_none rfl
  case rel ct stale bit m =>
    cases hst
    rw [List.append_nil] at hcore ⊢
    simp only [sound, hpc] at hok
    obtain ⟨hring, hnext⟩ := hp.2.2.step (g := s.ring) (x := ct.setWidth 8) (c := ct) (h.late_fails hp.2.1 hp.2.2 hok)
    rw [hring] at hcore ⊢
    refine h.move hcore (by rw [hpc]; rfl) (relNext_at _ _ _ _) ?_ ?_
    · cases hm : (m.step s.ring (ct.setWidth 8) ct bit).2 with
      | none => exact hp.1
      | some m' => exact ⟨hp.1, hp.2.1, hnext m' hm⟩
    · cases (m.step s.ring (ct.setWidth 8) ct bit).2 <;> exact reloads_of_none rfl

end Steps

end ThothIpc.Channel
