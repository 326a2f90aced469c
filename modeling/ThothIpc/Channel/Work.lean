import ThothIpc.Channel.Claims

/-!
# The writers' own work

* `Core.move` : a step of the claim loop, or of the tail of a commit;
* `Core.checked`, `Core.claimable` : why a claim finds its position free;
* `Core.claim`, `Core.win`, `Core.store`, `Core.copy`, `Core.commit` : the steps from the exchange on `rc_` to the
  commit;
* `Core.step` : every sound step keeps the claims consecutive and exclusive.
-/

namespace ThothIpc.Channel
open Function Steps

variable {ω ι : Type} {s t : State ω ι}

/-! ## The writers' own work -/

theorem WPc.Local.idle {pc : WPc} (h : pc.Local s) (hr : t.ring = s.ring) (hc : t.claims = s.claims)
    (hu : ∀ x, Unworked s x → Unworked t x) : pc.Local t := by
  refine h.mono (fun ct n hs => hs.congr hc (by rw [hr])) (fun a ha => by rw [hr]; exact ha) fun a _ hv hn hcl => ?_
  rw [hr] at hv
  rw [hc] at hn
  exact (hcl hv hn).congr hc (by rw [hr]) hu

theorem WPc.Work.congr {pc : WPc} (h : pc.Work s) (hr : t.ring = s.ring) (hc : t.claims = s.claims) : pc.Work t := by
  cases pc <;> simp only [WPc.Work, hr, hc] at h ⊢ <;> exact h

/-- A loaded word is still of use after a step that changes neither `rc` nor its generation. -/
theorem Attempt.Held.words {a : Attempt} {g g' : Ring} (h : a.Held g) (hrc : (g'.slot a.ct).rc = (g.slot a.ct).rc)
    (hv : (g'.slot a.ct).ver = (g.slot a.ct).ver) : a.Held g' := by
  refine ⟨by rw [hv]; exact h.le, ?_, h.gen⟩
  rw [hv, hrc]
  exact h.eq

section Steps
variable [DecidableEq ω] {w : ω}

theorem Core.index_update {pc : WPc} {g : Ring} (h : Core s) (hct : g.writeCursor = s.ring.writeCursor)
    (hw : ∀ f ct, s.writers w ≠ .storeCt f ct) : g.writeCursor = BitVec.ofNat 32 s.claims.length ∨
      ∃ v f ct, update s.writers w pc v = .storeCt f ct := by
  rcases h.index with hi | ⟨v, f, ct, hv⟩
  · exact Or.inl (hct.trans hi)
  · have hvw : v ≠ w := by
      rintro rfl
      exact hw f ct hv
    exact Or.inr ⟨v, f, ct, (update_of_ne hvw ..).trans hv⟩

theorem Core.move {pc : WPc} (h : Core s) (hwon : (s.writers w).won = none) (hat : pc.at = none) (hl : pc.Local s) :
    Core { s with writers := update s.writers w pc } := by
  have hwon' : pc.won = none := by
    cases hw : pc.won with
    | none => rfl
    | some cf => rw [WPc.at_of_won (show pc.won = some (cf.1, cf.2) from hw)] at hat; cases hat
  have hats : ∀ v c, (update s.writers w pc v).at = some c → v ≠ w ∧ (s.writers v).at = some c := by
    intro v c hv
    rcases update_cases (P := (WPc.at · = some c)) hv with ⟨-, hv⟩ | hv
    · rw [hat] at hv
      cases hv
    · exact hv
  have hwons := view_update (f := s.writers) (i := w) (F := WPc.won) (hwon'.trans hwon.symm)
  have hu : ∀ x, Unworked s x → Unworked { s with writers := update s.writers w pc } x :=
    fun x hx v c hv => hx v c (hats v c hv).2
  refine ⟨h.log, h.epoch, h.gen, ?_, ?_, ?_, fun v c hv => ?_, fun v v' c c' hne hv hv' => ?_,
    fun v c f hv => ?_, fun p hp hle hno => ?_, fun p hp hle hno => ?_, h.fresh⟩
  · exact h.index_update rfl fun f ct hw => by rw [hw] at hwon; cases hwon
  · exact forall_update (hl.idle rfl rfl hu) fun v _ => (h.loop v).idle rfl rfl hu
  · refine forall_update ?_ fun v _ => (h.work v).congr rfl rfl
    cases pc <;> trivial
  · exact h.marked v c (hats v c hv).2
  · exact h.one v v' c c' hne (hats v c hv).2 (hats v' c' hv').2
  · rw [hwons] at hv
    exact h.won v c f hv
  · simp only [hwons] at hno
    exact h.flag p hp hle hno
  · simp only [hwons] at hno
    exact h.data p hp hle hno

end Steps

theorem isEpoch_add_epIncr {e : BitVec 64} (h : IsEpoch e) : IsEpoch (e + epIncr) := by
  rw [IsEpoch, Bits.low_clear_iff] at h ⊢
  rw [BitVec.toNat_add, epIncr, BitVec.toNat_ofNat]
  simp only [Nat.reducePow, Nat.reduceMod] at h ⊢
  omega

theorem Core.seen (h : Core s) : Seen s s.ring.writeCursor s.claims.length := by
  rcases h.index with hi | ⟨w, f, ct, hw⟩
  · exact ⟨s.claims.length, hi, Nat.le_refl _, Nat.le_succ _, Nat.le_refl _, fun _ => hi⟩
  · have hl := h.work w
    rw [hw] at hl
    obtain ⟨h0, hc, hi⟩ := hl
    exact ⟨s.claims.length - 1, by rw [hi, hc], Nat.sub_le _ _, by omega, Nat.le_refl _, by omega⟩

/-- **A checked slot is free.** If the word without marks that a writer has loaded is still there when it finds the flag
free for its commit index, its position is the next one. -/
theorem Core.checked {a : Attempt} (h : Core s) (hseen : Seen s a.ct a.seen) (hheld : a.Held s.ring)
    (hm : marks a.rc = 0) (hfl : (s.ring.slot a.ct).fCt = a.ct.setWidth 64 ∨ (s.ring.slot a.ct).fCt = 0)
    (hv : (s.ring.slot a.ct).ver = a.ver) (hn : s.claims.length + 257 < a.seen + 2 ^ 32) : Claimable s a.ct := by
  obtain ⟨m, hct, hm1, hm2, hm3, hidx⟩ := hseen
  -- the marks of a writer at work would still be there
  have hfree : Unworked s (a.ct.setWidth 8) := by
    intro w c hw hx
    refine h.marked w c hw ?_
    rw [Ring.slot, hx, show s.ring.slots (a.ct.setWidth 8) = s.ring.slot a.ct from rfl, hheld.eq hv, hm]
  have hnext : m = s.claims.length := by
    rcases h.position hfree with ⟨h0, -⟩ | ⟨p, hp, hle, hx, hpos⟩
    · -- a slot that has never been claimed
      rw [hct, setWidth_ofNat, BitVec.toNat_ofNat] at h0
      omega
    · have hc : a.ct = BitVec.ofNat 32 (p + 256) := by
        have hfl' : (s.ring.slots (a.ct.setWidth 8)).fCt = a.ct.setWidth 64 ∨
          (s.ring.slots (a.ct.setWidth 8)).fCt = 0 := hfl
        rcases hpos with hpos | hpos <;> rcases hfl' with hfl' | hfl'
        · rw [hpos] at hfl'; exact absurd hfl' (atPos_ne_setWidth _ _)
        · rw [hpos] at hfl'; exact absurd hfl' (atPos_ne_zero _)
        · rw [hfl'] at hpos; exact hpos.eq_of_setWidth
        · exact absurd hfl' hpos.ne
      have := (Bits.ofNat_inj_close (by omega) (by omega)).mp (hct.symm.trans hc)
      omega
  exact ⟨hnext ▸ hct, hnext ▸ hidx hnext, hfree⟩

theorem Core.claimable {a : Attempt} {checked : Bool} {w : ω} (h : Core s) (hw : s.writers w = .cas a checked)
    (hrc : (s.ring.slot a.ct).rc = a.rc) (hok : a.sound s checked) : Claimable s a.ct := by
  have hl := h.loop w
  rw [hw] at hl
  cases checked with
  | true =>
    obtain ⟨-, -, hch⟩ := hl
    obtain ⟨hheld, hcl⟩ := hch rfl
    obtain ⟨hver, hn⟩ : (s.ring.slot a.ct).ver < a.ver + 2 ^ 24 ∧ s.claims.length + 257 < a.seen + 2 ^ 32 := hok
    refine hcl ?_ hn
    -- equal words have equal generations, and those have not come round
    have hgen : BitVec.ofNat 24 a.ver = BitVec.ofNat 24 (s.ring.slot a.ct).ver := by
      rw [← hheld.gen, ← hrc]
      exact h.gen _
    have hle := hheld.le
    exact ((Bits.ofNat_inj_near hle (by omega)).mp hgen).symm
  | false =>
    obtain ⟨hct, hfree⟩ : s.ring.writeCursor = a.ct ∧ Unworked s (a.ct.setWidth 8) := hok
    have hi : s.ring.writeCursor = BitVec.ofNat 32 s.claims.length := by
      rcases h.index with hi | ⟨v, f, ct, hv⟩
      · exact hi
      · have hlv := h.work v
        rw [hv] at hlv
        refine absurd ?_ (hfree v ct (by rw [hv]; rfl))
        rw [← hct, hlv.2.2]
    exact ⟨by rw [← hct, hi], hi, hfree⟩

section Steps
variable [DecidableEq ω] {w : ω}

theorem at_update {pc : WPc} {v : ω} {c : BitVec 32} (h : (update s.writers w pc v).at = some c) :
    v = w ∧ pc.at = some c ∨ v ≠ w ∧ (s.writers v).at = some c :=
  update_cases (P := (WPc.at · = some c)) h

theorem won_update {pc : WPc} {v : ω} {c : BitVec 32 × MsgT} (h : (update s.writers w pc v).won = some c) :
    v = w ∧ pc.won = some c ∨ v ≠ w ∧ (s.writers v).won = some c :=
  update_cases (P := (WPc.won · = some c)) h

theorem unwon_update {pc : WPc} {c : BitVec 32} (hno : ∀ v f, (update s.writers w pc v).won ≠ some (c, f))
    (hw : ∀ f, (s.writers w).won ≠ some (c, f)) (v : ω) (f : MsgT) : (s.writers v).won ≠ some (c, f) := by
  by_cases hvw : v = w
  · subst hvw
    exact hw f
  · have := hno v f
    rwa [update_of_ne hvw] at this

theorem Core.claim {a : Attempt} {checked : Bool} (h : Core s) (hw : s.writers w = .cas a checked)
    (hrc : (s.ring.slot a.ct).rc = a.rc) (hc : Claimable s a.ct) :
    Core { s with
      ring := s.ring.setRc (a.ct.setWidth 8) (stamp a.epoch a.rc a.cc)
      writers := update s.writers w (.validate a.call a.frag a.epoch a.ct) } := by
  have hl := h.loop w
  rw [hw] at hl
  obtain ⟨hep, hcc, -⟩ := hl
  obtain ⟨g, hg⟩ : ∃ g, g = s.ring.setRc (a.ct.setWidth 8) (stamp a.epoch a.rc a.cc) := ⟨_, rfl⟩
  have hslot : ∀ y, y ≠ a.ct.setWidth 8 → g.slots y = s.ring.slots y := fun y hy => hg ▸ slots_setRc_of_ne hy
  have hself : g.slots (a.ct.setWidth 8) =
      { s.ring.slot a.ct with rc := stamp a.epoch a.rc a.cc, ver := (s.ring.slot a.ct).ver + 1 } :=
    hg ▸ slots_setRc_self ..
  have hrest := fun y => hg ▸ setRc_frame s.ring (a.ct.setWidth 8) y (stamp a.epoch a.rc a.cc)
  have hct : g.writeCursor = s.ring.writeCursor := by rw [hg]; rfl
  have hnowon : ∀ c f, (s.writers w).won ≠ some (c, f) := by
    rw [hw]
    intro c f hc
    cases hc
  rw [← hg]
  refine ⟨h.log, by rw [hg]; exact h.epoch, fun y => ?_, Or.inl (hct.trans hc.index), ?_, ?_, fun v c hv => ?_,
    fun v v' c c' hne hv hv' => ?_, fun v c f hv => ?_, fun p hp hle hno => ?_, fun p hp hle hno => ?_,
    fun p hp h256 => ?_⟩
  · by_cases hy : y = a.ct.setWidth 8
    · subst hy
      rw [hself, gen_stamp hep, ← hrc]
      simp only
      rw [BitVec.ofNat_add]
      exact congrArg (· + 1#24) (h.gen _)
    · rw [hslot y hy]
      exact h.gen y
  · refine forall_update hep fun v _ => (h.loop v).mono (fun ct n hs => hs.congr rfl hct) (fun b hb => ?_)
      fun b hb hv hn hcl => ?_
    · by_cases hy : b.ct.setWidth 8 = a.ct.setWidth 8
      · have hle := hb.le
        simp only [Ring.slot, hy] at hle
        refine ⟨?_, fun hv => ?_, hb.gen⟩ <;> simp only [Ring.slot, hy, hself] at *
        · omega
        · omega
      · refine ⟨?_, fun hv => ?_, hb.gen⟩ <;> simp only [Ring.slot, hslot _ hy] at *
        · exact hb.le
        · exact hb.eq hv
    · -- anybody else's position would be this one too, and this slot has moved on
      by_cases hy : b.ct.setWidth 8 = a.ct.setWidth 8
      · have hle := hb.le
        simp only [Ring.slot, hy, hself] at hv hle
        omega
      · simp only [Ring.slot, hslot _ hy] at hv
        exact absurd (by rw [(hcl hv hn).next, hc.next]) hy
  · refine forall_update ⟨hc.next, hct.trans hc.index⟩ fun v _ => ?_
    have hv := h.work v
    cases hpc : s.writers v <;> rw [hpc] at hv <;> simp only [WPc.Work, hct, Ring.slot, (hrest _).2] at hv ⊢ <;> exact hv
  · rcases at_update hv with ⟨-, hv⟩ | ⟨-, hv⟩
    · cases hv
      rw [Ring.slot, hself]
      simp only [marks_stamp]
      exact hcc
    · rw [Ring.slot, hslot _ (hc.free v c hv)]
      exact h.marked v c hv
  · rcases at_update hv with ⟨h1, hv⟩ | ⟨h1, hv⟩ <;> rcases at_update hv' with ⟨h2, hv'⟩ | ⟨h2, hv'⟩
    · exact absurd (h1.trans h2.symm) hne
    · cases hv
      exact (hc.free v' c' hv').symm
    · cases hv'
      exact hc.free v c hv
    · exact h.one v v' c c' hne hv hv'
  · rcases won_update hv with ⟨-, hv⟩ | ⟨-, hv⟩
    · cases hv
    · exact h.won v c f hv
  · rw [slotAt, (hrest _).1]
    exact h.flag p hp hle (unwon_update hno (hnowon _))
  · rw [slotAt, (hrest _).2]
    exact h.data p hp hle (unwon_update hno (hnowon _))
  · rw [slotAt, (hrest _).1]
    exact h.fresh p hp h256

theorem ofNat_pred_ne {n : Nat} (h : 0 < n) : BitVec.ofNat 32 (n - 1) ≠ BitVec.ofNat 32 n := by
  rw [ne_eq, Bits.ofNat_inj_close (by omega) (by omega)]
  omega

/-- **The claim is won**: the epoch has not moved. -/
theorem Core.win {k : Call} {f : MsgT} {ep : BitVec 64} {ct : BitVec 32} (h : Core s)
    (hw : s.writers w = .validate k f ep ct) :
    Core { s with writers := update s.writers w (.storeCt f ct), claims := s.claims ++ [(ct, f)] } := by
  obtain ⟨hnext, hidx⟩ : ct = BitVec.ofNat 32 s.claims.length ∧
    s.ring.writeCursor = BitVec.ofNat 32 s.claims.length := by
    have := h.work w
    rwa [hw] at this
  have hat : (s.writers w).at = some ct := by rw [hw]; rfl
  have hnowon : ∀ c f, (s.writers w).won ≠ some (c, f) := by rw [hw]; nofun
  have hlen : (s.claims ++ [(ct, f)]).length = s.claims.length + 1 := by simp
  have hget : ∀ p x, s.claims[p]? = some x → (s.claims ++ [(ct, f)])[p]? = some x := fun p x hp => by
    rw [List.getElem?_append_left (List.getElem?_eq_some_iff.mp hp).1, hp]
  -- somebody else's position is not a lap behind
  have hlap : ∀ v p, v ≠ w → (s.writers v).at = some (BitVec.ofNat 32 p) → s.claims.length ≠ p + 256 := by
    intro v p hne hv he
    refine h.one v w _ _ hne hv hat ?_
    rw [hnext, he, setWidth_ofNat, setWidth_ofNat]
    exact BitVec.eq_of_toNat_eq (by simp)
  refine ⟨fun i c d hi => ?_, h.epoch, h.gen, Or.inr ⟨w, f, ct, update_self w _ _⟩, ?_, ?_, fun v c hv => ?_,
    fun v v' c c' hne hv hv' => ?_, fun v c d hv => ?_, fun p hp hle hno => ?_, fun p hp hle hno => ?_,
    fun p hp h256 => ?_⟩
  · rw [List.getElem?_append] at hi
    split at hi
    · exact h.log i c d hi
    · rename_i hge
      have h0 : i - s.claims.length = 0 := by
        have := (List.getElem?_eq_some_iff.mp hi).1
        simp at this
        omega
      rw [h0] at hi
      cases hi
      rw [hnext, show i = s.claims.length by omega]
  · refine forall_update trivial fun v hvw => (h.loop v).mono (fun c n hs => ?_) (fun b hb => hb) fun b _ hv hn hcl => ?_
    · obtain ⟨m, h1, h2, h3, h4, -⟩ := hs
      exact ⟨m, h1, h2, h3, by simp only [hlen]; omega, by simp only [hlen]; omega⟩
    · simp only [hlen] at hn
      have hc := hcl hv (by omega)
      exact absurd (by rw [hnext, hc.next]) (hc.free w ct hat)
  · refine forall_update ⟨by simp, by simp [hnext], by simp only [hidx, hnext]⟩ fun v hvw => ?_
    have hv := h.work v
    cases hpc : s.writers v <;> rw [hpc] at hv <;> simp only [WPc.Work] at hv ⊢
    case validate c => exact absurd (by rw [hv.1, hnext]) (h.one v w c ct hvw (by rw [hpc]; rfl) hat)
    case storeCt =>
      obtain ⟨h0, hc, hi⟩ := hv
      exact absurd (by rw [← hidx, hi, hc]) (ofNat_pred_ne h0)
    all_goals exact hv
  · rcases at_update hv with ⟨-, hv⟩ | ⟨-, hv⟩
    · cases hv
      exact h.marked w ct hat
    · exact h.marked v c hv
  · rcases at_update hv with ⟨h1, hv⟩ | ⟨h1, hv⟩ <;> rcases at_update hv' with ⟨h2, hv'⟩ | ⟨h2, hv'⟩
    · exact absurd (h1.trans h2.symm) hne
    · cases hv
      exact h.one w v' ct c' h2.symm hat hv'
    · cases hv'
      exact h.one v w c ct h1 hv hat
    · exact h.one v v' c c' hne hv hv'
  · simp only [hlen]
    rcases won_update hv with ⟨-, hv⟩ | ⟨hvw, hv⟩
    · cases hv
      exact ⟨s.claims.length, hnext, by omega, by simp⟩
    · obtain ⟨p, hc, hle, hp⟩ := h.won v c d hv
      have := hlap v p hvw (by rw [← hc]; exact WPc.at_of_won hv)
      exact ⟨p, hc, by omega, hget p _ hp⟩
  · simp only [hlen] at hp hle
    have hne : p ≠ s.claims.length := fun he => hno w f (by simp only [he, ← hnext, update_self]; rfl)
    exact h.flag p (by omega) (by omega) (unwon_update hno (hnowon _))
  · simp only [hlen] at hp hle
    have hne : p ≠ s.claims.length := fun he => hno w f (by simp only [he, ← hnext, update_self]; rfl)
    obtain ⟨c, hc⟩ := h.data p (by omega) (by omega) (unwon_update hno (hnowon _))
    exact ⟨c, hget p _ hc⟩
  · simp only [hlen] at hp
    exact h.fresh p (by omega) h256

omit [DecidableEq ω] in
theorem Core.pending {f : MsgT} {ct : BitVec 32} (h : Core s) (hw : s.writers w = .storeCt f ct) :
    0 < s.claims.length ∧ ct = BitVec.ofNat 32 (s.claims.length - 1) ∧ s.ring.writeCursor = ct := by
  have := h.work w
  rwa [hw] at this

theorem Core.store {f : MsgT} {ct : BitVec 32} (h : Core s) (hw : s.writers w = .storeCt f ct) :
    Core { s with ring := { s.ring with writeCursor := ct + 1 }, writers := update s.writers w (.write f ct 0) } := by
  obtain ⟨h0, hct, hidx⟩ := h.pending hw
  have hnew : ct + 1 = BitVec.ofNat 32 s.claims.length := by
    rw [hct, Bits.ofNat_add_one, Nat.sub_add_cancel h0]
  have hat : (s.writers w).at = some ct := by rw [hw]; rfl
  have hstale : s.ring.writeCursor ≠ BitVec.ofNat 32 s.claims.length := by
    rw [hidx, hct]
    exact ofNat_pred_ne h0
  have hats := view_update (f := s.writers) (i := w) (x := WPc.write f ct 0) (F := WPc.at) (by rw [hw]; rfl)
  have hwons := view_update (f := s.writers) (i := w) (x := WPc.write f ct 0) (F := WPc.won) (by rw [hw]; rfl)
  refine ⟨h.log, h.epoch, h.gen, Or.inl hnew, ?_, ?_, ?_, ?_, ?_, ?_, ?_, h.fresh⟩
  · refine forall_update trivial fun v hvw => (h.loop v).mono (fun c n hs => ?_) (fun b hb => ⟨hb.le, hb.eq, hb.gen⟩)
      fun b _ hv hn hcl => ?_
    · obtain ⟨m, h1, h2, h3, h4, -⟩ := hs
      exact ⟨m, h1, h2, h3, h4, fun hm => by rw [hm]; exact hnew⟩
    · exact absurd (hcl hv hn).index hstale
  · refine forall_update ⟨by decide, MsgT.agree_zero _ _⟩ fun v hvw => ?_
    have hv := h.work v
    cases hpc : s.writers v <;> rw [hpc] at hv <;> simp only [WPc.Work] at hv ⊢
    case validate => exact absurd hv.2 hstale
    case storeCt c => exact absurd (by rw [← hv.2.2, hidx]) (h.one v w c ct hvw (by rw [hpc]; rfl) hat)
    all_goals exact hv
  all_goals simp only [hats, hwons]
  · exact h.marked
  · exact h.one
  · exact h.won
  · exact h.flag
  · exact h.data

omit [DecidableEq ω] in
theorem Core.unwon_slot {f : MsgT} {c : BitVec 32} {p : Nat} (h : Core s) (hw : (s.writers w).won = some (c, f))
    (hp : p < s.claims.length) (hle : s.claims.length ≤ p + 256)
    (hno : (s.writers w).won ≠ some (BitVec.ofNat 32 p, f)) :
    BitVec.ofNat 8 p ≠ c.setWidth 8 := by
  obtain ⟨q, rfl, hqle, hq⟩ := h.won w c f hw
  have hqlt := (h.log_lt hq).1
  rw [setWidth_ofNat, ne_eq, slot_inj (by omega) (by omega)]
  rintro rfl
  exact hno hw

theorem Core.copy {f : MsgT} {ct : BitVec 32} {k : Nat} (h : Core s) (hw : s.writers w = .write f ct k) :
    Core { s with
      ring := s.ring.setData (ct.setWidth 8) (f.copy k (s.ring.slot ct).data)
      writers := update s.writers w (if k + 1 = MsgT.fields then .commit f ct else .write f ct (k + 1)) } := by
  obtain ⟨hk, hagree⟩ : k < MsgT.fields ∧ f.Agree k (s.ring.slot ct).data := by
    have := h.work w
    rwa [hw] at this
  obtain ⟨g, hg⟩ : ∃ g, g = s.ring.setData (ct.setWidth 8) (f.copy k (s.ring.slot ct).data) := ⟨_, rfl⟩
  have hslot : ∀ y, y ≠ ct.setWidth 8 → g.slots y = s.ring.slots y := fun y hy => hg ▸ slots_setData_of_ne hy
  have hself : g.slots (ct.setWidth 8) = { s.ring.slot ct with data := f.copy k (s.ring.slot ct).data } := by
    rw [hg]
    exact update_self ..
  have hrest := fun y => hg ▸ setData_frame s.ring (ct.setWidth 8) y (f.copy k (s.ring.slot ct).data)
  have hct : g.writeCursor = s.ring.writeCursor := by rw [hg]; rfl
  have hat : (s.writers w).at = some ct := by rw [hw]; rfl
  have hwon : (s.writers w).won = some (ct, f) := by rw [hw]; rfl
  obtain ⟨pc, hpc⟩ : ∃ pc : WPc, pc = if k + 1 = MsgT.fields then .commit f ct else .write f ct (k + 1) := ⟨_, rfl⟩
  have hats := view_update (f := s.writers) (i := w) (x := pc) (F := WPc.at) (by rw [hpc, hat]; split <;> rfl)
  have hwons := view_update (f := s.writers) (i := w) (x := pc) (F := WPc.won) (by rw [hpc, hwon]; split <;> rfl)
  rw [← hg, ← hpc]
  refine ⟨h.log, by rw [hg]; exact h.epoch, fun y => ?_, ?_, ?_, ?_, ?_, ?_, ?_, ?_, ?_, ?_⟩
  · rw [(hrest y).1, (hrest y).2.2]
    exact h.gen y
  · exact h.index_update hct fun d c he => by rw [hw] at he; cases he
  · refine forall_update ?_ fun v hvw => (h.loop v).mono (fun c n hs => hs.congr rfl hct) (fun b hb => ?_)
      fun b _ hv hn hcl => ?_
    · rw [hpc]; split <;> trivial
    · exact hb.words (hrest _).1 (hrest _).2.2
    · simp only [Ring.slot, (hrest _).2.2] at hv
      refine (hcl hv hn).congr rfl hct fun x hx v c hvc => hx v c ?_
      rw [← hats v]
      exact hvc
  · refine forall_update ?_ fun v hvw => ?_
    · have hag : f.Agree (k + 1) (g.slot ct).data := by
        rw [Ring.slot, hself]
        exact hagree.copy hk
      rw [hpc]
      split
      · rename_i hlast
        exact (hag.eq (by omega)).symm
      · exact ⟨by omega, hag⟩
    · have hv := h.work v
      have hne : ∀ c, (s.writers v).at = some c → g.slot c = s.ring.slot c := fun c hc =>
        hslot _ (h.one v w c ct hvw hc hat)
      cases hpv : s.writers v <;> rw [hpv] at hv hne <;> simp only [WPc.Work, hct] at hv ⊢
      case write => rw [hne _ rfl]; exact hv
      case commit => rw [hne _ rfl]; exact hv
      all_goals exact hv
  all_goals simp only [hats, hwons]
  · intro v c hv
    rw [Ring.slot, (hrest _).1]
    exact h.marked v c hv
  · exact h.one
  · exact h.won
  · intro p hp hle hno
    rw [slotAt, (hrest _).2.1]
    exact h.flag p hp hle hno
  · intro p hp hle hno
    rw [slotAt, hslot _ (h.unwon_slot hwon hp hle (hno w f))]
    exact h.data p hp hle hno
  · intro p hp h256
    rw [slotAt, (hrest _).2.1]
    exact h.fresh p hp h256

theorem Core.commit {f : MsgT} {ct : BitVec 32} (h : Core s) (hw : s.writers w = .commit f ct) :
    Core { s with
      ring := s.ring.setFl (ct.setWidth 8) (atPos ct), writers := update s.writers w (.loadMarks ct) } := by
  have hdata : (s.ring.slot ct).data = f := by
    have := h.work w
    rwa [hw] at this
  obtain ⟨g, hg⟩ : ∃ g, g = s.ring.setFl (ct.setWidth 8) (atPos ct) := ⟨_, rfl⟩
  have hslot : ∀ y, y ≠ ct.setWidth 8 → g.slots y = s.ring.slots y := fun y hy => hg ▸ slots_setFl_of_ne hy
  have hself : g.slots (ct.setWidth 8) = { s.ring.slot ct with fCt := atPos ct } := hg ▸ slots_setFl_self ..
  have hrest := fun y => hg ▸ setFl_frame s.ring (ct.setWidth 8) y (atPos ct)
  have hct : g.writeCursor = s.ring.writeCursor := by rw [hg]; rfl
  have hat : (s.writers w).at = some ct := by rw [hw]; rfl
  have hwon : (s.writers w).won = some (ct, f) := by rw [hw]; rfl
  obtain ⟨q, hq, hqle, hqlog⟩ := h.won w ct f hwon
  have hqlt := (h.log_lt hqlog).1
  -- of the slots in the last lap, only `w`'s has changed, and it is the only position `w` had won
  have hcase : ∀ p < s.claims.length, s.claims.length ≤ p + 256 →
      (∀ v d, (update s.writers w (.loadMarks ct) v).won ≠ some (BitVec.ofNat 32 p, d)) →
      p = q ∨ p ≠ q ∧ g.slots (BitVec.ofNat 8 p) = s.ring.slots (BitVec.ofNat 8 p) ∧
        ∀ v d, (s.writers v).won ≠ some (BitVec.ofNat 32 p, d) := by
    intro p hp hle hno
    by_cases hpq : p = q
    · exact Or.inl hpq
    · have hne : BitVec.ofNat 8 p ≠ ct.setWidth 8 := by
        rw [hq, setWidth_ofNat, ne_eq, slot_inj (by omega) (by omega)]
        exact hpq
      refine Or.inr ⟨hpq, hslot _ hne, unwon_update hno fun d hd => hpq ?_⟩
      rw [hwon] at hd
      have h32 : BitVec.ofNat 32 p = BitVec.ofNat 32 q := by rw [← hq]; exact (congrArg Prod.fst
        (Option.some.inj hd)).symm
      exact (Bits.ofNat_inj_close (by omega) (by omega)).mp h32
  have hq8 : g.slots (BitVec.ofNat 8 q) = { s.ring.slot ct with fCt := atPos ct } := by
    rw [← hself, hq, setWidth_ofNat]
  rw [← hg]
  refine ⟨h.log, by rw [hg]; exact h.epoch, fun y => ?_, ?_, ?_, ?_, fun v c hv => ?_, fun v v' c c' hne hv hv' => ?_,
    fun v c d hv => ?_, fun p hp hle hno => ?_, fun p hp hle hno => ?_, fun p hp h256 => ?_⟩
  · rw [(hrest y).1, (hrest y).2.2]
    exact h.gen y
  · exact h.index_update hct fun d c he => by rw [hw] at he; cases he
  · refine forall_update trivial fun v hvw => (h.loop v).mono (fun c n hs => hs.congr rfl hct) (fun b hb => ?_)
      fun b _ hv hn hcl => ?_
    · exact hb.words (hrest _).1 (hrest _).2.2
    · simp only [Ring.slot, (hrest _).2.2] at hv
      refine (hcl hv hn).congr rfl hct fun x hx v c hvc => ?_
      rcases at_update hvc with ⟨-, hvc⟩ | ⟨-, hvc⟩
      · cases hvc
      · exact hx v c hvc
  · refine forall_update trivial fun v hvw => ?_
    have hv := h.work v
    cases hpv : s.writers v <;> rw [hpv] at hv <;> simp only [WPc.Work, hct, Ring.slot,
      (hrest _).2.1] at hv ⊢ <;> exact hv
  · rcases at_update hv with ⟨-, hv⟩ | ⟨-, hv⟩
    · cases hv
    · rw [Ring.slot, (hrest _).1]
      exact h.marked v c hv
  · rcases at_update hv with ⟨-, hv⟩ | ⟨-, hv⟩
    · cases hv
    · rcases at_update hv' with ⟨-, hv'⟩ | ⟨-, hv'⟩
      · cases hv'
      · exact h.one v v' c c' hne hv hv'
  · rcases won_update hv with ⟨-, hv⟩ | ⟨-, hv⟩
    · cases hv
    · exact h.won v c d hv
  · rcases hcase p hp hle hno with rfl | ⟨-, hs, hno'⟩
    · rw [slotAt, hq8, hq]
      exact Or.inl rfl
    · rw [slotAt, hs]
      exact h.flag p hp hle hno'
  · rcases hcase p hp hle hno with rfl | ⟨-, hs, hno'⟩
    · rw [slotAt, hq8]
      simp only [hdata]
      exact ⟨ct, hqlog⟩
    · rw [slotAt, hs]
      exact h.data p hp hle hno'
  · simp only at hp
    have hne : BitVec.ofNat 8 p ≠ ct.setWidth 8 := by
      rw [hq, setWidth_ofNat, ne_eq, slot_inj (by omega) (by omega)]
      omega
    rw [slotAt, hslot _ hne]
    exact h.fresh p hp h256

/-- A writer that has won nothing, on the way touching slots as anybody may. -/
theorem Core.moveTouch {g : Ring} {pc : WPc} (h : Core s) (ht : Touch s g) (hwon : (s.writers w).won = none)
    (hat : pc.at = none) (hl : pc.Local { s with ring := g }) :
    Core { s with ring := g, writers := update s.writers w pc } :=
  Core.move (s := { s with ring := g }) (h.touch (t := { s with ring := g }) ht rfl rfl) hwon hat hl

theorem refused_at (k : Call) (f : MsgT) : (WPc.refused k f).at = none := by
  cases k <;> rfl

omit [DecidableEq ω] in
theorem refused_local (k : Call) (f : MsgT) : (WPc.refused k f).Local s := by
  cases k <;> trivial

theorem relNext_at (ct stale bit : BitVec 32) (m : Option MPc) : (WPc.relNext ct stale bit m).at = none := by
  cases m <;> rfl

omit [DecidableEq ω] in
theorem relNext_local (ct stale bit : BitVec 32) (m : Option MPc) : (WPc.relNext ct stale bit m).Local s := by
  cases m <;> trivial

theorem tested_at (a : Attempt) : (WPc.tested a).at = none := by
  unfold WPc.tested
  repeat' split
  all_goals rfl

omit [DecidableEq ω] in
theorem tested_local {a : Attempt} (hep : IsEpoch a.epoch) (hcc : a.cc ≠ 0) (hseen : Seen s a.ct a.seen)
    (hheld : a.Held s.ring) : (WPc.tested a).Local s := by
  unfold WPc.tested
  repeat' split
  · exact hep
  · exact ⟨hep, hcc, nofun⟩
  · exact hep
  · rename_i hm
    exact ⟨hep, hcc, hseen, hheld, hm⟩
  · exact ⟨hep, hcc, nofun⟩

/-- **Every sound access of a writer keeps the claims in order.** -/
theorem Core.writerStep {g : Ring} {pc : WPc} {out : List (BitVec 32 × MsgT)} (h : Core s)
    (hok : sound s (.writer w .go)) (hst : (s.writers w).step s.ring s.claims.length = some (g, pc, out)) :
    Core { s with ring := g, writers := update s.writers w pc, claims := s.claims ++ out } := by
  have hl := h.loop w
  have hself : Core { s with ring := s.ring } := h
  cases hpc : s.writers w <;> rw [hpc] at hl hst <;> simp only [WPc.Local] at hl <;> simp only [WPc.step] at hst
  case idle => cases hst
  case loadEpoch k f =>
    cases hst
    rw [List.append_nil]
    exact h.move (by rw [hpc]; rfl) rfl h.epoch
  case bumpEpoch f =>
    cases hst
    rw [List.append_nil]
    have he := isEpoch_add_epIncr h.epoch
    exact h.moveTouch (Touch.frame h rfl rfl he) (by rw [hpc]; rfl) rfl he
  case loadCc k f ep =>
    split at hst <;> cases hst <;> rw [List.append_nil]
    · exact h.move (by rw [hpc]; rfl) (refused_at k f) (refused_local k f)
    · rename_i hcc
      exact h.move (by rw [hpc]; rfl) rfl ⟨hl, hcc⟩
  case loadCt k f ep cc =>
    cases hst
    rw [List.append_nil]
    exact h.move (by rw [hpc]; rfl) rfl ⟨hl.1, hl.2, h.seen⟩
  case loadRc k f ep cc ct seen =>
    cases hst
    rw [List.append_nil]
    exact h.move (by rw [hpc]; rfl) (tested_at _)
      (tested_local hl.1 hl.2.1 hl.2.2 ⟨Nat.le_refl _, fun _ => rfl, h.gen _⟩)
  case evict a =>
    cases hst
    rw [List.append_nil]
    refine h.moveTouch (Touch.frame h rfl rfl h.epoch) (by rw [hpc]; rfl) ?_ ?_
    · split <;> rfl
    · split
      · trivial
      · rename_i hcc
        exact ⟨hl, hcc, fun hc => by cases hc⟩
  case loadFl a =>
    cases hst
    rw [List.append_nil]
    obtain ⟨hep, hcc, hseen, hheld, hm⟩ := hl
    refine h.move (by rw [hpc]; rfl) ?_ ?_
    · split <;> rfl
    · split
      · exact hep
      · rename_i hfl
        refine ⟨hep, hcc, fun _ => ⟨hheld, fun hv hn => h.checked hseen hheld hm ?_ hv hn⟩⟩
        by_contra hno
        exact hfl ⟨fun h1 => hno (Or.inl h1), fun h0 => hno (Or.inr h0)⟩
  case busy k f ep =>
    cases hst
    rw [List.append_nil]
    refine h.move (by rw [hpc]; rfl) ?_ ?_
    · split
      · rfl
      · exact refused_at k f
    · split
      · exact hl
      · exact refused_local k f
  case cas a checked =>
    split at hst <;> cases hst <;> rw [List.append_nil]
    · rename_i hrc
      simp only [sound, hpc] at hok
      exact h.claim hpc hrc (h.claimable hpc hrc (hok hrc))
    · exact h.move (by rw [hpc]; rfl) rfl hl.1
  case validate k f ep ct =>
    split at hst <;> cases hst
    · exact h.win hpc
    · rw [List.append_nil]
      refine h.move (by rw [hpc]; rfl) ?_ ?_
      · split <;> rfl
      · split
        · trivial
        · exact h.epoch
  case storeCt f ct =>
    cases hst
    rw [List.append_nil]
    exact h.store hpc
  case write f ct k =>
    cases hst
    rw [List.append_nil]
    exact h.copy hpc
  case commit f ct =>
    cases hst
    rw [List.append_nil]
    exact h.commit hpc
  case loadMarks ct =>
    cases hst
    rw [List.append_nil]
    refine h.move (by rw [hpc]; rfl) ?_ ?_ <;> split <;> trivial
  case live ct bits todo acc =>
    split at hst <;> cases hst <;> rw [List.append_nil] <;> exact h.move (by rw [hpc]; rfl) rfl trivial
  case drop ct stale =>
    cases hst
    rw [List.append_nil]
    refine h.move (by rw [hpc]; rfl) ?_ ?_ <;> split <;> trivial
  case rel ct stale bit m =>
    cases hst
    rw [List.append_nil]
    simp only [sound, hpc] at hok
    exact h.moveTouch (MPc.step_touch h hok) (by rw [hpc]; rfl) (relNext_at _ _ _ _) (relNext_local _ _ _ _)

/-- **Every sound step keeps the claims in order.** -/
theorem Core.step [DecidableEq ι] {act : Act ω ι} (h : Core s) (hok : sound s act) (hst : s.step act = some t) :
    Core t := by
  rcases State.step_cases hst with ⟨w, a, g, pc, out, rfl, hp, rfl⟩ | ⟨i, ra, g, r, rfl, hr, rfl⟩
  · cases a with
    | go => exact h.writerStep hok hp
    | call k f =>
      simp only [WPc.act] at hp
      split at hp <;> cases hp <;> rw [List.append_nil] <;> rename_i hpc <;> exact h.move
        (by rw [hpc]; rfl) rfl trivial
    | fail =>
      have hl := h.loop w
      simp only [WPc.act] at hp
      split at hp <;> cases hp <;> rw [List.append_nil] <;> rename_i hpc <;> rw [hpc] at hl
      · exact h.move (by rw [hpc]; rfl) rfl hl.1
      · exact h.move (by rw [hpc]; rfl) rfl hl
      · exact h.move (by rw [hpc]; rfl) rfl hl
      · exact h.move (by rw [hpc]; rfl) rfl trivial
    | giveUp =>
      simp only [WPc.act] at hp
      split at hp <;> cases hp
      rw [List.append_nil]
      rename_i hpc
      exact h.move (by rw [hpc]; rfl) rfl trivial
  · exact h.touch (Receiver.act_touch h hok hr) rfl rfl

end Steps

end ThothIpc.Channel
