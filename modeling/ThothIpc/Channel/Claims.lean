import ThothIpc.Channel.Model

/-!
# Who may write a slot

A writer owns the slot of the position it claims from its exchange on `rc_` to its commit. Two things keep a second
writer out: the marks it has stamped, and, once they are all taken off, the commit flag, which is checked after `rc_` is
loaded and still right when the exchange succeeds because every update moves the generation on.

* `WPc.at`, `WPc.won` : the position a writer is at work on, and the one it has won;
* `sound` : what the source takes for granted at each write to a slot;
* `Core s` : the claims are consecutive, and at most one writer is at work on each slot;
* `Touch` : what every step that is not a writer's own work can do to the slots (`Receiver.act_touch`,
  `MPc.step_touch`), and that it keeps `Core` (`Core.touch`).
-/

namespace ThothIpc.Channel
open Function

variable {ω ι : Type}

def slotAt (g : Ring) (p : Nat) : Slot := g.slots (BitVec.ofNat 8 p)

theorem slot_ofNat (g : Ring) (p : Nat) : g.slot (BitVec.ofNat 32 p) = slotAt g p := by
  rw [Ring.slot, slotAt, BitVec.setWidth_ofNat_of_le (by decide)]

theorem setWidth_ofNat (p : Nat) : (BitVec.ofNat 32 p).setWidth 8 = BitVec.ofNat 8 p :=
  BitVec.setWidth_ofNat_of_le (by decide) p

/-! ## Stores to a slot -/

theorem slots_setRc_self (g : Ring) (x : BitVec 8) (rc : BitVec 64) :
    (g.setRc x rc).slots x = { g.slots x with rc := rc, ver := (g.slots x).ver + 1 } :=
  update_self ..

theorem slots_setRc_of_ne {g : Ring} {x y : BitVec 8} {rc : BitVec 64} (h : x ≠ y) :
    (g.setRc y rc).slots x = g.slots x :=
  update_of_ne h ..

theorem slots_setFl_self (g : Ring) (x : BitVec 8) (fl : BitVec 64) :
    (g.setFl x fl).slots x = { g.slots x with fCt := fl } :=
  update_self ..

theorem slots_setFl_of_ne {g : Ring} {x y : BitVec 8} {fl : BitVec 64} (h : x ≠ y) :
    (g.setFl y fl).slots x = g.slots x :=
  update_of_ne h ..

theorem slots_setData_of_ne {g : Ring} {x y : BitVec 8} {d : MsgT} (h : x ≠ y) :
    (g.setData y d).slots x = g.slots x :=
  update_of_ne h ..

theorem setRc_frame (g : Ring) (x y : BitVec 8) (rc : BitVec 64) :
    ((g.setRc x rc).slots y).fCt = (g.slots y).fCt ∧ ((g.setRc x rc).slots y).data = (g.slots y).data := by
  simp only [Ring.setRc, update_apply]
  split <;> simp [*]

theorem setFl_frame (g : Ring) (x y : BitVec 8) (fl : BitVec 64) : ((g.setFl x fl).slots y).rc = (g.slots y).rc ∧
    ((g.setFl x fl).slots y).data = (g.slots y).data ∧ ((g.setFl x fl).slots y).ver = (g.slots y).ver := by
  simp only [Ring.setFl, update_apply]
  split <;> simp [*]

theorem setData_frame (g : Ring) (x y : BitVec 8) (d : MsgT) : ((g.setData x d).slots y).rc = (g.slots y).rc ∧
    ((g.setData x d).slots y).fCt = (g.slots y).fCt ∧ ((g.setData x d).slots y).ver = (g.slots y).ver := by
  simp only [Ring.setData, update_apply]
  split <;> simp [*]

/-! ## At work -/

/-- The position the writer is at work on: it has stamped the slot and not yet committed it. -/
def WPc.at : WPc → Option (BitVec 32)
  | .validate _ _ _ ct => some ct
  | .storeCt _ ct => some ct
  | .write _ ct _ => some ct
  | .commit _ ct => some ct
  | _ => none

/-- The position the writer has won and not yet committed, with its fragment. -/
def WPc.won : WPc → Option (BitVec 32 × MsgT)
  | .storeCt f ct => some (ct, f)
  | .write f ct _ => some (ct, f)
  | .commit f ct => some (ct, f)
  | _ => none

theorem WPc.at_of_won {pc : WPc} {c : BitVec 32} {f : MsgT} (h : pc.won = some (c, f)) : pc.at = some c := by
  cases pc <;> simp_all [WPc.won, WPc.at]

/-- No writer is at work on slot `x`. -/
def Unworked (s : State ω ι) (x : BitVec 8) : Prop := ∀ w c, (s.writers w).at = some c → c.setWidth 8 ≠ x

/-- The flag of a slot says that it is at position `cur`, committed or released. -/
def atCursor (fl : BitVec 64) (cur : BitVec 32) : Prop := fl = atPos cur ∨ fl = freeFlag cur ∨ fl = relFlag cur

/-- The next access of `release_mark` on slot `x` writes only if the slot holds `pos` and nobody is at work on it. -/
def MPc.sound (s : State ω ι) (x : BitVec 8) (pos : BitVec 32) : MPc → Prop
  | .cas rc _ => (s.ring.slots x).rc = rc → Unworked s x ∧ (s.ring.slots x).fCt = atPos pos
  | .free => (s.ring.slots x).fCt = atPos pos → Unworked s x
  | _ => True

/-- A claim that goes through: if the flag has been checked, neither the slot's generation nor the commit index has come
round since; if not, the commit index is still the one loaded and nobody is at work on the slot. -/
def Attempt.sound (s : State ω ι) (a : Attempt) (checked : Bool) : Prop :=
  if checked then (s.ring.slot a.ct).ver < a.ver + 2 ^ 24 ∧ s.claims.length + 257 < a.seen + 2 ^ 32
  else s.ring.writeCursor = a.ct ∧ Unworked s (a.ct.setWidth 8)

/-- What every write to a slot relies on. -/
def sound (s : State ω ι) : Act ω ι → Prop
  | .writer w .go =>
    match s.writers w with
    | .cas a checked => (s.ring.slot a.ct).rc = a.rc → a.sound s checked
    | .rel ct _ _ m => m.sound s (ct.setWidth 8) ct
    | _ => True
  | .recv i .go =>
    match (s.recvs i).pc with
    | .rel _ idx pos m => m.sound s (BitVec.ofNat 8 idx) pos
    | .freeStore _ => Unworked s ((s.recvs i).readCursor.setWidth 8) ∧
        atCursor (s.ring.slot (s.recvs i).readCursor).fCt (s.recvs i).readCursor
    | .preStore _ _ => Unworked s ((s.recvs i).readCursor.setWidth 8) ∧
        atCursor (s.ring.slot (s.recvs i).readCursor).fCt (s.recvs i).readCursor
    | .relCas _ rc => (s.ring.slot (s.recvs i).readCursor).rc = rc → Unworked s ((s.recvs i).readCursor.setWidth 8)
    | _ => True
  | _ => True

/-! ## The invariant -/

/-- The commit index `ct` was loaded when there were `seen` claims. -/
def Seen (s : State ω ι) (ct : BitVec 32) (seen : Nat) : Prop :=
  ∃ m, ct = BitVec.ofNat 32 m ∧ m ≤ seen ∧ seen ≤ m + 1 ∧ seen ≤ s.claims.length ∧
    (m = s.claims.length → s.ring.writeCursor = BitVec.ofNat 32 m)

/-- The word `a.rc` was loaded from the slot; it is still there if there has been no update since. -/
structure Attempt.Held (g : Ring) (a : Attempt) : Prop where
  le : a.ver ≤ (g.slot a.ct).ver
  eq : (g.slot a.ct).ver = a.ver → (g.slot a.ct).rc = a.rc
  gen : Channel.gen a.rc = BitVec.ofNat 24 a.ver

/-- Position `ct` is the next to be claimed, and nobody has. -/
structure Claimable (s : State ω ι) (ct : BitVec 32) : Prop where
  next : ct = BitVec.ofNat 32 s.claims.length
  index : s.ring.writeCursor = BitVec.ofNat 32 s.claims.length
  free : Unworked s (ct.setWidth 8)

/-- What a writer in the claim loop may rely on, by where it stands. -/
def WPc.Local (s : State ω ι) : WPc → Prop
  | .loadCc _ _ ep => IsEpoch ep
  | .loadCt _ _ ep cc => IsEpoch ep ∧ cc ≠ 0
  | .loadRc _ _ ep cc ct seen => IsEpoch ep ∧ cc ≠ 0 ∧ Seen s ct seen
  | .evict a => IsEpoch a.epoch
  | .loadFl a => IsEpoch a.epoch ∧ a.cc ≠ 0 ∧ Seen s a.ct a.seen ∧ a.Held s.ring ∧ marks a.rc = 0
  | .busy _ _ ep => IsEpoch ep
  | .cas a checked => IsEpoch a.epoch ∧ a.cc ≠ 0 ∧ (checked = true → a.Held s.ring ∧
      ((s.ring.slot a.ct).ver = a.ver → s.claims.length + 257 < a.seen + 2 ^ 32 → Claimable s a.ct))
  | .validate _ _ ep _ => IsEpoch ep
  | _ => True

/-- What a writer at work knows of the claims and of its slot. -/
def WPc.Work (s : State ω ι) : WPc → Prop
  | .validate _ _ _ ct => ct = BitVec.ofNat 32 s.claims.length ∧ s.ring.writeCursor = BitVec.ofNat 32 s.claims.length
  | .storeCt _ ct => 0 < s.claims.length ∧ ct = BitVec.ofNat 32 (s.claims.length - 1) ∧ s.ring.writeCursor = ct
  | .write f ct k => k < MsgT.fields ∧ f.Agree k (s.ring.slot ct).data
  | .commit f ct => (s.ring.slot ct).data = f
  | _ => True

/-- The claims are consecutive and exclusive. -/
structure Core (s : State ω ι) : Prop where
  log : ∀ k c f, s.claims[k]? = some (c, f) → c = BitVec.ofNat 32 k
  epoch : IsEpoch s.ring.epoch
  gen : ∀ x, gen (s.ring.slots x).rc = BitVec.ofNat 24 (s.ring.slots x).ver
  index : s.ring.writeCursor = BitVec.ofNat 32 s.claims.length ∨ ∃ w f ct, s.writers w = .storeCt f ct
  loop : ∀ w, (s.writers w).Local s
  work : ∀ w, (s.writers w).Work s
  marked : ∀ w c, (s.writers w).at = some c → marks (s.ring.slot c).rc ≠ 0
  one : ∀ w w' c c', w ≠ w' → (s.writers w).at = some c → (s.writers w').at = some c' → c.setWidth 8 ≠ c'.setWidth 8
  won : ∀ w c f, (s.writers w).won = some (c, f) →
    ∃ p, c = BitVec.ofNat 32 p ∧ s.claims.length ≤ p + 256 ∧ s.claims[p]? = some (c, f)
  flag : ∀ p < s.claims.length, s.claims.length ≤ p + 256 →
    (∀ w f, (s.writers w).won ≠ some (BitVec.ofNat 32 p, f)) →
      (slotAt s.ring p).fCt = atPos (BitVec.ofNat 32 p) ∨ Freed p (slotAt s.ring p).fCt
  data : ∀ p < s.claims.length, s.claims.length ≤ p + 256 →
    (∀ w f, (s.writers w).won ≠ some (BitVec.ofNat 32 p, f)) →
      ∃ c, s.claims[p]? = some (c, (slotAt s.ring p).data)
  fresh : ∀ p, s.claims.length ≤ p → p < 256 → (slotAt s.ring p).fCt = 0

variable {s t : State ω ι}

theorem slot_inj {p q : Nat} (h1 : p < q + 256) (h2 : q < p + 256) : BitVec.ofNat 8 p = BitVec.ofNat 8 q ↔ p = q :=
  Bits.ofNat_inj_close h1 h2

theorem Core.log_lt (h : Core s) {k : Nat} {c : BitVec 32} {f : MsgT} (hk : s.claims[k]? = some (c, f)) :
    k < s.claims.length ∧ c = BitVec.ofNat 32 k :=
  ⟨(List.getElem?_eq_some_iff.mp hk).1, h.log k c f hk⟩

/-- A writer at work is at the next position to be claimed, or has won one of the last lap. -/
theorem Core.at_won (h : Core s) {w : ω} {c : BitVec 32} (hw : (s.writers w).at = some c) :
    (∃ k f ep, s.writers w = .validate k f ep c ∧ c = BitVec.ofNat 32 s.claims.length) ∨
      ∃ p f, p < s.claims.length ∧ s.claims.length ≤ p + 256 ∧ c = BitVec.ofNat 32 p ∧
      (s.writers w).won = some (c, f) := by
  have hl := h.work w
  cases hpc : s.writers w <;> rw [hpc] at hw hl <;> simp only [WPc.at, reduceCtorEq, Option.some.injEq] at hw
  case validate k f ep ct =>
    subst hw
    exact Or.inl ⟨k, f, ep, rfl, hl.1⟩
  all_goals
    subst hw
    obtain ⟨p, hc, hle, hp⟩ := h.won w _ _ (by rw [hpc]; rfl)
    exact Or.inr ⟨p, _, (h.log_lt hp).1, hle, hc, by simp only [WPc.won]; rfl⟩

/-! ## What others do to a slot -/

/-- What a step that is not a writer's own work can do: marks come off, a slot is released, and a slot somebody is at
work on is left alone. -/
structure Touch (s : State ω ι) (g : Ring) : Prop where
  ct : g.writeCursor = s.ring.writeCursor
  epoch : IsEpoch g.epoch
  data : ∀ x, (g.slots x).data = (s.ring.slots x).data
  gen : ∀ x, Channel.gen (g.slots x).rc = BitVec.ofNat 24 (g.slots x).ver
  ver : ∀ x, (s.ring.slots x).ver ≤ (g.slots x).ver
  rc : ∀ x, (g.slots x).ver = (s.ring.slots x).ver → (g.slots x).rc = (s.ring.slots x).rc
  marks : ∀ x b, (marks (g.slots x).rc).getLsbD b = true → (Channel.marks (s.ring.slots x).rc).getLsbD b = true
  high : ∀ x, (g.slots x).rc &&& ~~~epMask = (s.ring.slots x).rc &&& ~~~epMask
  work : ∀ w c, (s.writers w).at = some c → g.slot c = s.ring.slot c
  flag : ∀ x, (g.slots x).fCt = (s.ring.slots x).fCt ∨
    ∃ p < s.claims.length, s.claims.length ≤ p + 256 ∧ BitVec.ofNat 8 p = x ∧ Freed p (g.slots x).fCt

theorem Touch.frame {g : Ring} (h : Core s) (hs : g.slots = s.ring.slots) (hc : g.writeCursor = s.ring.writeCursor)
    (he : IsEpoch g.epoch) : Touch s g := by
  refine ⟨hc, he, ?_, ?_, ?_, ?_, ?_, ?_, ?_, ?_⟩ <;> simp only [Ring.slot, hs]
  · exact fun _ => trivial
  · exact h.gen
  · exact fun _ => Nat.le_refl _
  · exact fun _ _ => trivial
  · exact fun _ _ h => h
  · exact fun _ => trivial
  · exact fun _ _ _ => trivial
  · exact fun _ => Or.inl trivial

theorem Touch.unmark {x : BitVec 8} {bit : BitVec 32} (h : Core s) (hw : Unworked s x) :
    Touch s (s.ring.setRc x (unmark (s.ring.slots x).rc bit)) := by
  refine ⟨rfl, h.epoch, fun y => (setRc_frame ..).2, fun y => ?_, fun y => ?_, fun y => ?_, fun y b => ?_, fun y => ?_,
    fun w c hc => slots_setRc_of_ne (hw w c hc), fun y => Or.inl (setRc_frame ..).1⟩ <;>
    simp only [Ring.setRc, update_apply]
  · split
    · rw [gen_unmark, h.gen, BitVec.ofNat_add]
    · exact h.gen y
  · split
    · rename_i he; rw [he]; exact Nat.le_succ _
    · exact Nat.le_refl _
  · split
    · rename_i he; rw [he]; simp
    · exact fun _ => rfl
  · split
    · rename_i he
      rw [he, marks_unmark, BitVec.getLsbD_and, Bool.and_eq_true]
      exact fun hb => hb.1
    · exact id
  · split
    · rename_i he; rw [he, epoch_unmark]
    · rfl

theorem Touch.free {x : BitVec 8} {fl : BitVec 64} {p : Nat} (h : Core s) (hw : Unworked s x) (hp : p < s.claims.length)
    (hle : s.claims.length ≤ p + 256) (hx : BitVec.ofNat 8 p = x) (hf : Freed p fl) : Touch s (s.ring.setFl x fl) := by
  have hframe := setFl_frame s.ring x
  refine ⟨rfl, h.epoch, fun y => (hframe y fl).2.1, fun y => ?_, fun y => (hframe y fl).2.2.ge,
    fun y _ => (hframe y fl).1, fun y b => ?_, fun y => ?_, fun w c hc => slots_setFl_of_ne (hw w c hc), fun y => ?_⟩
  · rw [(hframe y fl).1, (hframe y fl).2.2]
    exact h.gen y
  · rw [(hframe y fl).1]
    exact id
  · rw [(hframe y fl).1]
  · by_cases hy : y = x
    · subst hy
      exact Or.inr ⟨p, hp, hle, hx, by rw [slots_setFl_self]; exact hf⟩
    · exact Or.inl (by rw [slots_setFl_of_ne hy])

theorem Attempt.Held.touch {a : Attempt} {g : Ring} (h : a.Held s.ring) (ht : Touch s g) : a.Held g := by
  have hle := ht.ver (a.ct.setWidth 8)
  have h1 := h.le
  simp only [Ring.slot] at h1
  refine ⟨le_trans h1 hle, fun hv => ?_, h.gen⟩
  simp only [Ring.slot] at hv ⊢
  rw [ht.rc _ (by omega)]
  exact h.eq (by simp only [Ring.slot]; omega)

theorem WPc.Local.mono {pc : WPc} (h : pc.Local s) (hseen : ∀ ct n, Seen s ct n → Seen t ct n)
    (hheld : ∀ a : Attempt, a.Held s.ring → a.Held t.ring)
    (hcl : ∀ a : Attempt, a.Held s.ring → (t.ring.slot a.ct).ver = a.ver → t.claims.length + 257 < a.seen + 2 ^ 32 →
      ((s.ring.slot a.ct).ver = a.ver → s.claims.length + 257 < a.seen + 2 ^ 32 → Claimable s a.ct) → Claimable t a.ct) :
    pc.Local t := by
  cases pc <;> simp only [WPc.Local] at h ⊢
  case loadRc => exact ⟨h.1, h.2.1, hseen _ _ h.2.2⟩
  case loadFl a => exact ⟨h.1, h.2.1, hseen _ _ h.2.2.1, hheld a h.2.2.2.1, h.2.2.2.2⟩
  case cas a checked =>
    refine ⟨h.1, h.2.1, fun hch => ?_⟩
    obtain ⟨ha, hc⟩ := h.2.2 hch
    exact ⟨hheld a ha, fun hv hn => hcl a ha hv hn hc⟩
  all_goals exact h

theorem Seen.congr {ct : BitVec 32} {n : Nat} (h : Seen s ct n) (hc : t.claims = s.claims)
    (hi : t.ring.writeCursor = s.ring.writeCursor) : Seen t ct n := by
  rw [Seen, hc, hi]
  exact h

theorem Claimable.congr {ct : BitVec 32} (h : Claimable s ct) (hc : t.claims = s.claims)
    (hi : t.ring.writeCursor = s.ring.writeCursor) (hu : ∀ x, Unworked s x → Unworked t x) : Claimable t ct :=
  ⟨by rw [hc]; exact h.next, by rw [hi, hc]; exact h.index, hu _ h.free⟩

theorem WPc.Local.touch {pc : WPc} (h : pc.Local s) (ht : Touch s t.ring) (hw : t.writers = s.writers)
    (hc : t.claims = s.claims) : pc.Local t := by
  refine h.mono (fun ct n hs => hs.congr hc ht.ct) (fun a ha => ha.touch ht) fun a ha hv hn hcl => ?_
  have hle := ht.ver (a.ct.setWidth 8)
  have h1 := ha.le
  simp only [Ring.slot] at h1 hv hcl
  rw [hc] at hn
  exact (hcl (by omega) hn).congr hc ht.ct fun x hx v c hv => hx v c (by rw [← hw]; exact hv)

theorem WPc.Work.touch {pc : WPc} (h : pc.Work s) (ht : Touch s t.ring) (hc : t.claims = s.claims)
    (hp : ∀ c, pc.at = some c → t.ring.slot c = s.ring.slot c) : pc.Work t := by
  cases pc <;> simp only [WPc.Work, hc, ht.ct] at h ⊢
  case write f ct k => rw [hp ct rfl]; exact h
  case commit f ct => rw [hp ct rfl]; exact h
  all_goals exact h

theorem Core.touch (h : Core s) (ht : Touch s t.ring) (hw : t.writers = s.writers) (hc : t.claims = s.claims) :
    Core t := by
  have hslot : ∀ w c, (s.writers w).at = some c → t.ring.slot c = s.ring.slot c := ht.work
  refine ⟨?_, ht.epoch, ht.gen, ?_, fun w => ?_, fun w => ?_, fun w c hwc => ?_, ?_, ?_, fun p hp hle hno => ?_,
    fun p hp hle hno => ?_, fun p hp h256 => ?_⟩
  · rw [hc]; exact h.log
  · rw [hc, hw, ht.ct]; exact h.index
  · rw [hw]
    exact (h.loop w).touch ht hw hc
  · rw [hw]
    exact (h.work w).touch ht hc (hslot w)
  · rw [hw] at hwc
    rw [hslot w c hwc]
    exact h.marked w c hwc
  · rw [hw]; exact h.one
  · rw [hw, hc]; exact h.won
  · rw [hc] at hp hle
    rw [hw] at hno
    rcases ht.flag (BitVec.ofNat 8 p) with hf | ⟨q, hq, hqle, hqx, hf⟩
    · rw [slotAt, hf]
      exact h.flag p hp hle hno
    · -- the released position is the slot's last one
      have : q = p := (slot_inj (by omega) (by omega)).mp hqx
      subst this
      exact Or.inr hf
  · rw [hc] at hp hle ⊢
    rw [hw] at hno
    rw [slotAt, ht.data]
    exact h.data p hp hle hno
  · rw [hc] at hp
    rcases ht.flag (BitVec.ofNat 8 p) with hf | ⟨q, hq, hqle, hqx, -⟩
    · rw [slotAt, hf]
      exact h.fresh p hp h256
    · have : q = p := (slot_inj (by omega) (by omega)).mp hqx
      omega

theorem Core.position (h : Core s) {x : BitVec 8} (hw : Unworked s x) :
    s.claims.length ≤ x.toNat ∧ (s.ring.slots x).fCt = 0 ∨ ∃ p < s.claims.length, s.claims.length ≤ p + 256 ∧
    BitVec.ofNat 8 p = x ∧ ((s.ring.slots x).fCt = atPos (BitVec.ofNat 32 p) ∨ Freed p (s.ring.slots x).fCt) := by
  have hx : BitVec.ofNat 8 x.toNat = x := by rw [BitVec.ofNat_toNat, BitVec.setWidth_eq]
  have hlt := x.isLt
  rcases Nat.lt_or_ge x.toNat s.claims.length with hn | hn
  · right
    -- the last claim congruent to `x`
    obtain ⟨p, hp1, hp2, hp3⟩ : ∃ p, p < s.claims.length ∧ s.claims.length ≤ p + 256 ∧ p % 256 = x.toNat :=
      ⟨s.claims.length - 1 - (s.claims.length - 1 - x.toNat) % 256, by omega, by omega, by omega⟩
    have hpx : BitVec.ofNat 8 p = x := by
      refine BitVec.eq_of_toNat_eq ?_
      rw [BitVec.toNat_ofNat]
      exact hp3
    refine ⟨p, hp1, hp2, hpx, ?_⟩
    have hf := h.flag p hp1 hp2 fun w f hwon => hw w _ (WPc.at_of_won hwon) (by rw [setWidth_ofNat, hpx])
    rw [slotAt, hpx] at hf
    exact hf
  · left
    have hf := h.fresh x.toNat hn hlt
    rw [slotAt, hx] at hf
    exact ⟨hn, hf⟩

theorem Freed.inj {p q : Nat} {fl : BitVec 64} (h : Freed p fl) (h' : Freed q fl) :
    BitVec.ofNat 32 p = BitVec.ofNat 32 q := by
  have he : BitVec.ofNat 32 (p + 256) = BitVec.ofNat 32 (q + 256) := by rw [← h.low, ← h'.low]
  rw [BitVec.ofNat_add, BitVec.ofNat_add] at he
  exact (BitVec.add_left_inj _).mp he

/-- A slot nobody is at work on, whose flag says that it is at `cur`, was last claimed for `cur`. -/
theorem Core.at_cursor (h : Core s) {x : BitVec 8} {cur : BitVec 32} (hw : Unworked s x)
    (hfl : atCursor (s.ring.slots x).fCt cur) : ∃ p < s.claims.length, s.claims.length ≤ p + 256 ∧ BitVec.ofNat 8 p = x ∧
      cur = BitVec.ofNat 32 p := by
  have hcur : cur = BitVec.ofNat 32 cur.toNat := by rw [BitVec.ofNat_toNat, BitVec.setWidth_eq]
  have hfree : ∀ fl, fl = freeFlag cur ∨ fl = relFlag cur → Freed cur.toNat fl := by
    rintro fl (rfl | rfl)
    · have := freed_freeFlag cur.toNat
      rwa [← hcur] at this
    · have := freed_relFlag cur.toNat
      rwa [← hcur] at this
  rcases h.position hw with ⟨-, h0⟩ | ⟨p, hp, hle, hx, hp'⟩
  · rw [h0] at hfl
    rcases hfl with hfl | hfl
    · exact absurd hfl.symm (atPos_ne_zero cur)
    · exact absurd rfl (hfree _ hfl).ne
  · refine ⟨p, hp, hle, hx, ?_⟩
    rcases hp' with hp' | hp' <;> rcases hfl with hfl | hfl
    · rw [hp'] at hfl
      exact (atPos_inj hfl).symm
    · have := hfree _ hfl
      rw [hp'] at this
      exact (not_freed_atPos this).elim
    · rw [hfl] at hp'
      exact (not_freed_atPos hp').elim
    · rw [hcur]
      exact (hfree _ hfl).inj hp'

theorem Touch.refl (h : Core s) : Touch s s.ring := Touch.frame h rfl rfl h.epoch

theorem Touch.release {x : BitVec 8} {cur : BitVec 32} {fl : BitVec 64} (h : Core s) (hw : Unworked s x)
    (hfl : atCursor (s.ring.slots x).fCt cur) (hf : fl = freeFlag cur ∨ fl = relFlag cur) :
    Touch s (s.ring.setFl x fl) := by
  obtain ⟨p, hp, hle, hx, rfl⟩ := h.at_cursor hw hfl
  refine Touch.free h hw hp hle hx ?_
  rcases hf with rfl | rfl
  · exact freed_freeFlag p
  · exact freed_relFlag p

theorem MPc.step_touch {m : MPc} {x : BitVec 8} {pos bit : BitVec 32} (h : Core s) (hok : m.sound s x pos) :
    Touch s (m.step s.ring x pos bit).1 := by
  cases m with
  | load => exact Touch.refl h
  | fl rc ver => exact Touch.refl h
  | cas rc ver =>
    simp only [MPc.step]
    split
    · rename_i hrc
      subst hrc
      exact Touch.unmark h (hok rfl).1
    · exact Touch.refl h
  | free =>
    simp only [MPc.step]
    split
    · rename_i hfl
      exact Touch.release h (hok hfl) (Or.inl hfl) (Or.inr rfl)
    · exact Touch.refl h

theorem Receiver.step_touch {i : ι} {g : Ring} {r : Receiver} (h : Core s) (hok : sound s (.recv i .go))
    (hr : (s.recvs i).step s.ring = some (g, r)) : Touch s g := by
  have hframe : ∀ g : Ring, g.slots = s.ring.slots → g.writeCursor = s.ring.writeCursor → g.epoch = s.ring.epoch →
      Touch s g := fun g h1 h2 h3 => Touch.frame h h1 h2 (by rw [h3]; exact h.epoch)
  simp only [sound] at hok
  unfold Receiver.step at hr
  split at hr
  case h_7 since idx pos m hpc =>
    rw [hpc] at hok
    cases hr
    exact MPc.step_touch h hok
  case h_16 m hpc =>
    rw [hpc] at hok
    cases hr
    exact Touch.release h hok.1 hok.2 (Or.inl rfl)
  case h_17 m rc hpc =>
    rw [hpc] at hok
    cases hr
    exact Touch.release h hok.1 hok.2 (Or.inl rfl)
  case h_18 m rc hpc =>
    rw [hpc] at hok
    split at hr <;> cases hr
    · rename_i hrc
      subst hrc
      exact Touch.unmark h (hok rfl)
    · exact Touch.refl h
  all_goals
    (try simp only at hr)
    (try split at hr) <;> cases hr <;> exact hframe _ rfl rfl rfl

theorem Receiver.act_touch {i : ι} {g : Ring} {r : Receiver} {ra : RAct} (h : Core s) (hok : sound s (.recv i ra))
    (hr : (s.recvs i).act s.ring ra = some (g, r)) : Touch s g := by
  cases ra with
  | go => exact Receiver.step_touch h hok hr
  | disconnect =>
    simp only [Receiver.act, Receiver.disconnect] at hr
    split at hr
    · split at hr <;> cases hr
      · exact Touch.refl h
      · exact Touch.frame h rfl rfl h.epoch
    · cases hr
  | _ =>
    obtain ⟨r', -, he⟩ := Option.map_eq_some_iff.mp hr
    cases he
    exact Touch.refl h

end ThothIpc.Channel
