import ThothIpc.Channel.Exclusive

/-!
# Released slots are taken again

A slot is released for the position one lap later: the last reader stores `freeFlag`, `release_mark` stores `relFlag`,
and a writer that meets a slot without marks compares the flag with its commit index. The three are computed in 64 bits
from 32-bit positions that wrap at different points.

* `accepts` : the writers' test of the flag;
* `accepts_freeFlag`, `accepts_relFlag` : the flag is right for positions a lap before the wrap (and, from the last
  reader, for the very last one);
* `Drained` : a committed slot without marks is about to be released, so that no slot is lost;
* `released_for_next` : with that, a push goes through once the connected receivers have read its slot.
-/

namespace ThothIpc.Channel
open Function Steps

/-! ## The flags -/

/-- The test of the claim loop on the flag of a slot without marks: it is free for commit index `ct`. -/
def accepts (ct : BitVec 32) (fl : BitVec 64) : Bool := !(fl != ct.setWidth 64 && fl != 0)

theorem accepts_iff {ct : BitVec 32} {fl : BitVec 64} : accepts ct fl = true ↔ fl = ct.setWidth 64 ∨ fl = 0 := by
  unfold accepts
  by_cases h1 : fl = ct.setWidth 64 <;> by_cases h2 : fl = 0 <;> simp [h1, h2]

theorem accepts_iff_of_lt {ct : BitVec 32} {fl : BitVec 64} (h0 : fl ≠ 0) (hlt : fl.toNat < 2 ^ 32) :
    accepts ct fl = true ↔ ct = fl.setWidth 32 := by
  rw [accepts_iff, or_iff_left h0]
  have hc := ct.isLt
  constructor
  · intro h
    apply BitVec.eq_of_toNat_eq
    rw [h, BitVec.toNat_setWidth, BitVec.toNat_setWidth]
    omega
  · intro h
    apply BitVec.eq_of_toNat_eq
    rw [h, BitVec.toNat_setWidth, BitVec.toNat_setWidth]
    omega

theorem not_accepts_of_le {ct : BitVec 32} {fl : BitVec 64} (hle : 2 ^ 32 ≤ fl.toNat) : accepts ct fl = false := by
  rw [← Bool.not_eq_true, accepts_iff, not_or]
  have hc := ct.isLt
  refine ⟨fun h => ?_, fun h => ?_⟩
  · rw [h, BitVec.toNat_setWidth] at hle
    omega
  · rw [h] at hle
    simp at hle

theorem toNat_freeFlag (pos : BitVec 32) : (freeFlag pos).toNat = (pos.toNat + 1) % 2 ^ 32 + 255 := by
  rw [freeFlag, BitVec.toNat_add, BitVec.toNat_setWidth, BitVec.toNat_add, BitVec.toNat_ofNat]
  have := pos.isLt
  have h1 : (1 : BitVec 32).toNat = 1 := rfl
  omega

theorem toNat_relFlag (pos : BitVec 32) : (relFlag pos).toNat = pos.toNat + 256 := by
  rw [relFlag, BitVec.toNat_add, BitVec.toNat_setWidth, BitVec.toNat_ofNat]
  have := pos.isLt
  omega

theorem Freed.low_eq {pos : BitVec 32} {fl : BitVec 64} (h : Freed pos.toNat fl) : fl.setWidth 32 = pos + 256#32 := by
  rw [h.low, BitVec.ofNat_add, BitVec.ofNat_toNat, BitVec.setWidth_eq]

theorem freed_freeFlag_toNat (pos : BitVec 32) : Freed pos.toNat (freeFlag pos) := by
  have h := freed_freeFlag pos.toNat
  rwa [BitVec.ofNat_toNat, BitVec.setWidth_eq] at h

theorem freed_relFlag_toNat (pos : BitVec 32) : Freed pos.toNat (relFlag pos) := by
  have h := freed_relFlag pos.toNat
  rwa [BitVec.ofNat_toNat, BitVec.setWidth_eq] at h

/-- The last reader's flag does not carry out of 32 bits. -/
def freeFits (pos : BitVec 32) : Bool := pos.toNat + 256 < 2 ^ 32 || pos.toNat + 1 = 2 ^ 32

/-- Nor does that of `release_mark`. -/
def relFits (pos : BitVec 32) : Bool := pos.toNat + 256 < 2 ^ 32

theorem freeFlag_lt {pos : BitVec 32} (h : freeFits pos = true) : (freeFlag pos).toNat < 2 ^ 32 := by
  simp only [freeFits, Bool.or_eq_true, decide_eq_true_eq] at h
  rw [toNat_freeFlag]
  omega

theorem relFlag_lt {pos : BitVec 32} (h : relFits pos = true) : (relFlag pos).toNat < 2 ^ 32 := by
  simp only [relFits, decide_eq_true_eq] at h
  rw [toNat_relFlag]
  exact h

theorem accepts_freeFlag {pos : BitVec 32} (h : freeFits pos = true) (ct : BitVec 32) :
    accepts ct (freeFlag pos) = true ↔ ct = pos + 256#32 := by
  have hf := freed_freeFlag_toNat pos
  rw [accepts_iff_of_lt hf.ne (freeFlag_lt h), hf.low_eq]

theorem accepts_relFlag {pos : BitVec 32} (h : relFits pos = true) (ct : BitVec 32) :
    accepts ct (relFlag pos) = true ↔ ct = pos + 256#32 := by
  have hf := freed_relFlag_toNat pos
  rw [accepts_iff_of_lt hf.ne (relFlag_lt h), hf.low_eq]

variable {ω ι : Type} {s t : State ω ι}

/-- Somebody has taken the last mark off slot `x`, at position `c`, and is about to release it. -/
def Draining (s : State ω ι) (x : BitVec 8) (c : BitVec 32) : Prop :=
  (∃ w stale bit, s.writers w = .rel c stale bit .free ∧ c.setWidth 8 = x) ∨
    ∃ i since idx, (s.recvs i).pc = .rel since idx c .free ∧ BitVec.ofNat 8 idx = x

/-- The flag of a slot is a commit, or has not carried out of 32 bits. -/
def Low (fl : BitVec 64) : Prop := fl.toNat < 2 ^ 32 ∨ ∃ c, fl = atPos c

/-- Every released slot fits a position, and a committed slot without marks is about to be released. -/
structure Drained (s : State ω ι) : Prop where
  low : ∀ x, Low (s.ring.slots x).fCt
  drain : ∀ x c, Unworked s x → marks (s.ring.slots x).rc = 0 → (s.ring.slots x).fCt = atPos c → Draining s x c

/-- A release at a position whose flag fits, and a last mark that comes off the slot its reader has released. -/
def timely (s : State ω ι) : Act ω ι → Prop
  | .writer w .go =>
    match s.writers w with
    | .rel ct _ _ .free => relFits ct = true
    | _ => True
  | .recv i .go =>
    match (s.recvs i).pc with
    | .rel _ _ pos .free => relFits pos = true
    | .freeStore _ => freeFits (s.recvs i).readCursor = true
    | .preStore _ _ => freeFits (s.recvs i).readCursor = true
    | .relCas _ rc => (s.ring.slot (s.recvs i).readCursor).rc = rc → marks (unmark rc (s.recvs i).connId) = 0 →
        (s.ring.slot (s.recvs i).readCursor).fCt = freeFlag (s.recvs i).readCursor
    | _ => True
  | _ => True

theorem atPos_ne_freeFlag (c pos : BitVec 32) : freeFlag pos ≠ atPos c := fun h =>
  not_freed_atPos (h ▸ freed_freeFlag_toNat pos)

theorem atPos_ne_relFlag (c pos : BitVec 32) : relFlag pos ≠ atPos c := fun h =>
  not_freed_atPos (h ▸ freed_relFlag_toNat pos)

section Step
variable [DecidableEq ω] [DecidableEq ι] {x : BitVec 8} {c : BitVec 32} {g : Ring}

omit [DecidableEq ι] in
theorem Draining.writer {w : ω} {pc : WPc} {cl : List (BitVec 32 × MsgT)} (h : Draining s x c)
    (hw : ∀ stale bit, s.writers w = .rel c stale bit .free → c.setWidth 8 ≠ x) :
    Draining { s with ring := g, writers := update s.writers w pc, claims := cl } x c := by
  rcases h with ⟨v, stale, bit, hv, hx⟩ | h
  · left
    refine ⟨v, stale, bit, ?_, hx⟩
    have hne : v ≠ w := by
      rintro rfl
      exact hw stale bit hv hx
    simp only [update_of_ne hne]
    exact hv
  · exact Or.inr h

omit [DecidableEq ω] in
theorem Draining.recv {i : ι} {r : Receiver} (h : Draining s x c)
    (hi : ∀ since idx, (s.recvs i).pc = .rel since idx c .free → BitVec.ofNat 8 idx ≠ x) :
    Draining { s with ring := g, recvs := update s.recvs i r } x c := by
  rcases h with h | ⟨j, since, idx, hj, hx⟩
  · exact Or.inl h
  · right
    refine ⟨j, since, idx, ?_, hx⟩
    have hne : j ≠ i := by
      rintro rfl
      exact hi since idx hj hx
    simp only [update_of_ne hne]
    exact hj

/-- What an access of `release_mark` does: nothing, or it takes a mark off the slot, or it releases it. -/
theorem MPc.step_cases (g : Ring) (x : BitVec 8) (pos bit : BitVec 32) (m : MPc) :
    ((m.step g x pos bit).1 = g ∧ (m = .free → (g.slots x).fCt ≠ atPos pos)) ∨
    (∃ rc ver, m = .cas rc ver ∧ (g.slots x).rc = rc ∧ (m.step g x pos bit).1 = g.setRc x (unmark rc bit) ∧
      (marks (unmark rc bit) = 0 → (m.step g x pos bit).2 = some .free)) ∨
    (m = .free ∧ (m.step g x pos bit).1 = g.setFl x (relFlag pos)) := by
  cases m with
  | load => exact Or.inl ⟨rfl, (by simp)⟩
  | fl rc ver => exact Or.inl ⟨rfl, (by simp)⟩
  | cas rc ver =>
    simp only [MPc.step]
    split
    · rename_i hrc
      refine Or.inr (Or.inl ⟨rc, ver, rfl, hrc, rfl, fun h0 => ?_⟩)
      simp [h0]
    · exact Or.inl ⟨rfl, (by simp)⟩
  | free =>
    simp only [MPc.step]
    split
    · exact Or.inr (Or.inr ⟨trivial, rfl⟩)
    · rename_i hfl
      exact Or.inl ⟨rfl, fun _ => hfl⟩

omit [DecidableEq ω] [DecidableEq ι] in
theorem Drained.release {y : BitVec 8} {pos : BitVec 32} {m : MPc} (h : Drained s) (bit : BitVec 32)
    (hm : m.sound s y pos)
    (hfit : m = .free → relFits pos = true) (hring : t.ring = (m.step s.ring y pos bit).1)
    (hwork : ∀ x, Unworked t x → Unworked s x)
    (hkeep : ∀ x c, Draining s x c → (m = .free → x = y → c ≠ pos) → Draining t x c)
    (hnext : (m.step s.ring y pos bit).2 = some .free → Draining t y pos) : Drained t := by
  rcases MPc.step_cases s.ring y pos bit m with ⟨hg, hfree⟩ | ⟨rc, ver, rfl, hrc, hg, h0⟩ | ⟨rfl,
    hg⟩ <;> rw [hg] at hring
  · refine ⟨fun x => by rw [hring]; exact h.low x, fun x c hu hmk hfl => ?_⟩
    rw [hring] at hmk hfl
    refine hkeep x c (h.drain x c (hwork x hu) hmk hfl) fun hf hx hc => ?_
    rw [hx, hc] at hfl
    exact hfree hf hfl
  · have hsl : ∀ x, x ≠ y → t.ring.slots x = s.ring.slots x := by
      intro x hx
      rw [hring, slots_setRc_of_ne hx]
    have hy : t.ring.slots y = { s.ring.slots y with rc := unmark rc bit, ver := (s.ring.slots y).ver + 1 } := by
      rw [hring, slots_setRc_self]
    refine ⟨fun x => ?_, fun x c hu hmk hfl => ?_⟩
    · by_cases hx : x = y
      · rw [hx, hy]
        exact h.low y
      · rw [hsl x hx]
        exact h.low x
    · by_cases hx : x = y
      · subst hx
        rw [hy] at hmk hfl
        have hc : pos = c := by
          have hp : (s.ring.slots x).fCt = atPos pos := (hm hrc).2
          rw [hp] at hfl
          exact atPos_inj hfl
        rw [← hc]
        exact hnext (h0 hmk)
      · rw [hsl x hx] at hmk hfl
        exact hkeep x c (h.drain x c (hwork x hu) hmk hfl) nofun
  · have hsl : ∀ x, x ≠ y → t.ring.slots x = s.ring.slots x := by
      intro x hx
      rw [hring, slots_setFl_of_ne hx]
    have hy : (t.ring.slots y).fCt = relFlag pos := by
      rw [hring, slots_setFl_self]
    refine ⟨fun x => ?_, fun x c hu hmk hfl => ?_⟩
    · by_cases hx : x = y
      · rw [hx, hy]
        exact Or.inl (relFlag_lt (hfit rfl))
      · rw [hsl x hx]
        exact h.low x
    · by_cases hx : x = y
      · rw [hx, hy] at hfl
        exact absurd hfl (atPos_ne_relFlag c pos)
      · rw [hsl x hx] at hmk hfl
        exact hkeep x c (h.drain x c (hwork x hu) hmk hfl) fun _ he => absurd he hx

omit [DecidableEq ι] in
theorem Unworked.back {w : ω} {pc : WPc} {cl : List (BitVec 32 × MsgT)} {g : Ring}
    (h : Unworked { s with ring := g, writers := update s.writers w pc, claims := cl } x)
    (hw : ∀ c, (s.writers w).at = some c → c.setWidth 8 ≠ x) : Unworked s x := by
  intro v c hv
  by_cases hvw : v = w
  · rw [hvw] at hv
    exact hw c hv
  · exact h v c (by simp only [update_of_ne hvw]; exact hv)

/-- A writer that is not in `release_mark` leaves every mark where it finds it, and the flags too unless it commits. -/
theorem WPc.act_words {g g' : Ring} {n : Nat} {pc pc' : WPc} {a : WAct} {out : List (BitVec 32 × MsgT)}
    (h : pc.act g n a = some (g', pc', out)) (hrel : ∀ ct stale bit m, pc = .rel ct stale bit m → a ≠ .go)
    (x : BitVec 8) :
    ((g'.slots x).rc = (g.slots x).rc ∨ ∃ c, pc.at = none ∧ pc'.at = some c ∧ c.setWidth 8 = x) ∧
    ((g'.slots x).fCt = (g.slots x).fCt ∨ ∃ c, pc.at = some c ∧ c.setWidth 8 = x ∧ (g'.slots x).fCt = atPos c) := by
  cases a with
  | go =>
    simp only [WPc.act] at h
    cases pc <;> simp only [WPc.step] at h
    case cas a checked =>
      split at h <;> cases h
      · by_cases hx : x = a.ct.setWidth 8
        · rw [hx, slots_setRc_self]
          exact ⟨Or.inr ⟨a.ct, rfl, rfl, rfl⟩, Or.inl rfl⟩
        · rw [slots_setRc_of_ne hx]
          exact ⟨Or.inl rfl, Or.inl rfl⟩
      · exact ⟨Or.inl rfl, Or.inl rfl⟩
    case write f ct k =>
      cases h
      by_cases hx : x = ct.setWidth 8
      · rw [hx]
        simp only [Ring.setData, update_self]
        exact ⟨Or.inl trivial, Or.inl trivial⟩
      · simp only [Ring.setData, update_of_ne hx]
        exact ⟨Or.inl trivial, Or.inl trivial⟩
    case commit f ct =>
      cases h
      by_cases hx : x = ct.setWidth 8
      · rw [hx, slots_setFl_self]
        exact ⟨Or.inl rfl, Or.inr ⟨ct, rfl, rfl, rfl⟩⟩
      · rw [slots_setFl_of_ne hx]
        exact ⟨Or.inl rfl, Or.inl rfl⟩
    case rel ct stale bit m => exact absurd rfl (hrel ct stale bit m rfl)
    case idle => cases h
    all_goals first
      | (cases h; exact ⟨Or.inl rfl, Or.inl rfl⟩)
      | (split at h <;> cases h <;> exact ⟨Or.inl rfl, Or.inl rfl⟩)
  | call k f =>
    simp only [WPc.act] at h
    split at h <;> cases h <;> exact ⟨Or.inl rfl, Or.inl rfl⟩
  | fail =>
    simp only [WPc.act] at h
    split at h <;> cases h <;> exact ⟨Or.inl rfl, Or.inl rfl⟩
  | giveUp =>
    simp only [WPc.act] at h
    split at h <;> cases h
    exact ⟨Or.inl rfl, Or.inl rfl⟩

omit [DecidableEq ι] in
theorem Drained.writer {w : ω} {a : WAct} {pc : WPc} {out : List (BitVec 32 × MsgT)} (h : Drained s) (hcore : Core s)
    (hok : sound s (.writer w a)) (ht : timely s (.writer w a))
    (hact : (s.writers w).act s.ring s.claims.length a = some (g, pc, out)) :
    Drained { s with ring := g, writers := update s.writers w pc, claims := s.claims ++ out } := by
  by_cases hrel : ∃ ct stale bit m, s.writers w = .rel ct stale bit m ∧ a = .go
  · obtain ⟨ct, stale, bit, m, hpc, rfl⟩ := hrel
    simp only [sound, hpc] at hok
    simp only [timely, hpc] at ht
    simp only [hpc, WPc.act, WPc.step, Option.some.injEq, Prod.mk.injEq] at hact
    obtain ⟨rfl, rfl, rfl⟩ := hact
    refine h.release bit hok (fun hm => by rw [hm] at ht; exact ht) rfl
      (fun x hu => hu.back (by rw [hpc]; intros; contradiction)) (fun x c hd hne => ?_) (fun hn => ?_)
    · refine hd.writer fun stale' bit' he hx => ?_
      rw [hpc] at he
      cases he
      exact hne rfl hx.symm rfl
    · left
      refine ⟨w, stale, bit, ?_, rfl⟩
      simp only [update_self, hn]
      rfl
  · have hwords := WPc.act_words hact fun ct stale bit m hpc ha => hrel ⟨ct, stale, bit, m, hpc, ha⟩
    have hkeep : ∀ x c, Draining s x c →
        Draining { s with ring := g, writers := update s.writers w pc, claims := s.claims ++ out } x c := by
      intro x c hd
      refine hd.writer fun stale bit hpc => ?_
      -- a thread at the release only goes on with it
      cases a with
      | go => exact absurd ⟨c, stale, bit, .free, hpc, rfl⟩ hrel
      | call k f => rw [hpc] at hact; cases hact
      | fail => rw [hpc] at hact; cases hact
      | giveUp => rw [hpc] at hact; cases hact
    refine ⟨fun x => ?_, fun x c hu hmk hfl => ?_⟩
    · rcases (hwords x).2 with hf | ⟨c, -, -, hf⟩
      · rw [show _ = (s.ring.slots x).fCt from hf]
        exact h.low x
      · exact Or.inr ⟨c, hf⟩
    · have hrc : (g.slots x).rc = (s.ring.slots x).rc := by
        rcases (hwords x).1 with hrc | ⟨c', -, hc', hx⟩
        · exact hrc
        · exact absurd hx (hu w c' (by simp only [update_self]; exact hc'))
      rw [show marks (g.slots x).rc = marks (s.ring.slots x).rc by rw [hrc]] at hmk
      have hno : ∀ c, (s.writers w).at = some c → c.setWidth 8 ≠ x := by
        rintro c hc rfl
        exact hcore.marked w c hc hmk
      have hfs : (s.ring.slots x).fCt = atPos c := by
        rcases (hwords x).2 with hf | ⟨c', hc', hx, -⟩
        · rw [← hf]
          exact hfl
        · exact absurd hx (hno c' hc')
      exact hkeep x c (h.drain x c (hu.back hno) hmk hfs)

theorem Receiver.act_slots {g g' : Ring} {r r' : Receiver} {a : RAct} (h : r.act g a = some (g', r')) :
    g'.slots = g.slots ∨ a = .go ∧ ((∃ since idx pos m, r.pc = .rel since idx pos m) ∨
      (((∃ m, r.pc = .freeStore m) ∨ ∃ m rc, r.pc = .preStore m rc) ∧
        g' = g.setFl (r.readCursor.setWidth 8) (freeFlag r.readCursor)) ∨
      ∃ m rc, r.pc = .relCas m rc ∧ (g.slot r.readCursor).rc = rc ∧
        g' = g.setRc (r.readCursor.setWidth 8) (unmark rc r.connId)) := by
  cases a with
  | go =>
    simp only [Receiver.act] at h
    unfold Receiver.step at h
    split at h
    case h_7 since idx pos m hpc => exact Or.inr ⟨rfl, Or.inl ⟨since, idx, pos, m, hpc⟩⟩
    case h_16 m hpc =>
      cases h
      exact Or.inr ⟨rfl, Or.inr (Or.inl ⟨Or.inl ⟨m, hpc⟩, rfl⟩)⟩
    case h_17 m rc hpc =>
      cases h
      exact Or.inr ⟨rfl, Or.inr (Or.inl ⟨Or.inr ⟨m, rc, hpc⟩, rfl⟩)⟩
    case h_18 m rc hpc =>
      split at h <;> cases h
      · rename_i hrc
        exact Or.inr ⟨rfl, Or.inr (Or.inr ⟨m, rc, hpc, hrc, rfl⟩)⟩
      · exact Or.inl rfl
    case h_10 =>
      dsimp only at h
      split at h <;> cases h <;> exact Or.inl rfl
    all_goals first
      | (cases h; exact Or.inl rfl)
      | (split at h <;> cases h <;> exact Or.inl rfl)
      | cases h
  | disconnect =>
    simp only [Receiver.act, Receiver.disconnect] at h
    split at h
    · split at h <;> cases h <;> exact Or.inl rfl
    · cases h
  | _ =>
    obtain ⟨r', -, he⟩ := Option.map_eq_some_iff.mp h
    cases he
    exact Or.inl rfl

theorem Receiver.act_free {g g' : Ring} {r r' : Receiver} {a : RAct} (h : r.act g a = some (g', r')) {since : BitVec 32}
    {idx : Nat} {c : BitVec 32} (hpc : r.pc = .rel since idx c .free) : a = .go := by
  cases a <;> first | rfl |
    simp [Receiver.act, Receiver.recv, Receiver.open, Receiver.fail, Receiver.disconnect, hpc] at h

omit [DecidableEq ω] in
theorem Drained.recv {i : ι} {a : RAct} {r : Receiver} (h : Drained s) (hok : sound s (.recv i a))
    (ht : timely s (.recv i a)) (hact : (s.recvs i).act s.ring a = some (g, r)) :
    Drained { s with ring := g, recvs := update s.recvs i r } := by
  have hkeep : (∀ since idx c, (s.recvs i).pc ≠ .rel since idx c .free) → ∀ x c, Draining s x c →
      Draining { s with ring := g, recvs := update s.recvs i r } x c :=
    fun hno x c hd => hd.recv fun since idx hpc => absurd hpc (hno since idx c)
  rcases Receiver.act_slots hact with hs | ⟨rfl, ⟨since, idx, pos, m, hpc⟩ | ⟨hpc, rfl⟩ | ⟨m, rc, hpc, hrc, rfl⟩⟩
  · refine ⟨fun x => ?_, fun x c hu hmk hfl => ?_⟩
    · rw [show g.slots = s.ring.slots from hs]
      exact h.low x
    · simp only [hs] at hmk hfl
      refine (h.drain x c hu hmk hfl).recv fun since idx hpc hx => ?_
      obtain rfl := Receiver.act_free hact hpc
      simp only [Receiver.act, Receiver.step, hpc, MPc.step, Option.some.injEq, Prod.mk.injEq] at hact
      rw [hx, if_pos hfl] at hact
      have hg := congrArg (fun g : Ring => (g.slots x).fCt) hact.1
      simp only [slots_setFl_self] at hg
      rw [hs, hfl] at hg
      exact atPos_ne_relFlag c c hg
  · simp only [sound, hpc] at hok
    simp only [timely, hpc] at ht
    simp only [Receiver.act, Receiver.step, hpc, Option.some.injEq, Prod.mk.injEq] at hact
    obtain ⟨rfl, rfl⟩ := hact
    refine h.release (s.recvs i).connId hok (fun hm => by rw [hm] at ht; exact ht) rfl (fun x hu => hu)
      (fun x c hd hne => ?_) (fun hn => ?_)
    · refine hd.recv fun since' idx' he hx => ?_
      rw [hpc] at he
      cases he
      exact hne rfl hx.symm rfl
    · right
      refine ⟨i, since, idx, ?_, rfl⟩
      simp only [update_self, hn]
      rfl
  · have hfit : freeFits (s.recvs i).readCursor = true := by
      rcases hpc with ⟨m, hpc⟩ | ⟨m, rc, hpc⟩ <;> simp only [timely, hpc] at ht <;> exact ht
    have hk := hkeep (by rcases hpc with ⟨m, hpc⟩ | ⟨m, rc, hpc⟩ <;> rw [hpc] <;> simp)
    refine ⟨fun x => ?_, fun x c hu hmk hfl => ?_⟩
    · by_cases hx : x = (s.recvs i).readCursor.setWidth 8
      · simp only [hx, slots_setFl_self]
        exact Or.inl (freeFlag_lt hfit)
      · simp only [slots_setFl_of_ne hx]
        exact h.low x
    · by_cases hx : x = (s.recvs i).readCursor.setWidth 8
      · simp only [hx, slots_setFl_self] at hfl
        exact absurd hfl (atPos_ne_freeFlag c _)
      · simp only [slots_setFl_of_ne hx] at hmk hfl
        exact hk x c (h.drain x c hu hmk hfl)
  · simp only [timely, hpc] at ht
    have hk := hkeep (by rw [hpc]; simp)
    refine ⟨fun x => ?_, fun x c hu hmk hfl => ?_⟩
    · by_cases hx : x = (s.recvs i).readCursor.setWidth 8
      · simp only [hx, slots_setRc_self]
        exact h.low _
      · simp only [slots_setRc_of_ne hx]
        exact h.low x
    · by_cases hx : x = (s.recvs i).readCursor.setWidth 8
      · -- the last mark comes off a slot that its reader has released
        simp only [hx, slots_setRc_self] at hmk hfl
        have := ht hrc hmk
        rw [Ring.slot, hfl] at this
        exact absurd this.symm (atPos_ne_freeFlag c _)
      · simp only [slots_setRc_of_ne hx] at hmk hfl
        exact hk x c (h.drain x c hu hmk hfl)

theorem Drained.step {act : Act ω ι} (h : Drained s) (hcore : Core s) (hok : sound s act) (ht : timely s act)
    (hst : s.step act = some t) : Drained t := by
  rcases State.step_cases hst with ⟨w, a, g, pc, out, rfl, hact, rfl⟩ | ⟨i, a, g, r, rfl, hact, rfl⟩
  · exact h.writer hcore hok ht hact
  · exact h.recv hok ht hact

end Step

theorem Fresh.drained (h : Fresh s) : Drained s := by
  refine ⟨fun x => Or.inl ?_, fun x c _ _ hfl => ?_⟩
  · rw [(h.slots x).2.1]
    decide
  · rw [(h.slots x).2.1] at hfl
    exact absurd hfl.symm (atPos_ne_zero c)

/-! ## A push between calls -/

structure Resting (s : State ω ι) : Prop where
  writers : ∀ w, s.writers w = .idle
  recvs : ∀ i, (s.recvs i).pc = .ready ∨ (s.recvs i).pc = .closed

theorem Resting.unworked (h : Resting s) (x : BitVec 8) : Unworked s x := by
  intro w c hw
  rw [h.writers w] at hw
  cases hw

theorem Resting.not_draining (h : Resting s) (x : BitVec 8) (c : BitVec 32) : ¬ Draining s x c := by
  rintro (⟨w, stale, bit, hw, -⟩ | ⟨i, since, idx, hi, -⟩)
  · rw [h.writers w] at hw
    cases hw
  · rcases h.recvs i with hr | hr <;> rw [hr] at hi <;> cases hi

theorem Resting.index (h : Resting s) (hcore : Core s) : s.ring.writeCursor = BitVec.ofNat 32 s.claims.length := by
  rcases hcore.index with hi | ⟨w, f, ct, hw⟩
  · exact hi
  · rw [h.writers w] at hw
    cases hw

/-- Between calls the flag of a slot without marks is the one for the commit index. -/
theorem Drained.accepts (h : Drained s) (hcore : Core s) (hr : Resting s)
    (hmk : marks (s.ring.slot s.ring.writeCursor).rc = 0) :
    accepts s.ring.writeCursor (s.ring.slot s.ring.writeCursor).fCt = true := by
  have hidx := hr.index hcore
  have hx : s.ring.writeCursor.setWidth 8 = BitVec.ofNat 8 s.claims.length := by rw [hidx, setWidth_ofNat]
  rcases hcore.position (hr.unworked (s.ring.writeCursor.setWidth 8)) with ⟨-, h0⟩ | ⟨p, hp, hle, hpx, hfl | hfl⟩
  · exact accepts_iff.mpr (Or.inr h0)
  · exact absurd (h.drain _ _ (hr.unworked _) hmk hfl) (hr.not_draining _ _)
  · -- the slot was last claimed a whole lap ago
    have hlap : s.claims.length = p + 256 := by
      rw [hx] at hpx
      have := congrArg BitVec.toNat hpx
      simp only [BitVec.toNat_ofNat] at this
      omega
    have hlt : (s.ring.slot s.ring.writeCursor).fCt.toNat < 2 ^ 32 := by
      rcases h.low (s.ring.writeCursor.setWidth 8) with hl | ⟨c, hc⟩
      · exact hl
      · rw [hc] at hfl
        exact (not_freed_atPos hfl).elim
    rw [Ring.slot] at hlt ⊢
    rw [accepts_iff_of_lt hfl.ne hlt, hfl.low, hidx, hlap]

section Push
variable [DecidableEq ω] [DecidableEq ι]

/-- Writer `w` moved to `pc`. -/
def State.put (s : State ω ι) (w : ω) (pc : WPc) : State ω ι := { s with writers := update s.writers w pc }

theorem put_go {w : ω} {pc pc' : WPc} (h : pc.step s.ring s.claims.length = some (s.ring, pc', [])) :
    Run State.step (fun _ _ => True) (s.put w pc) [.writer w .go] (s.put w pc') := by
  refine Run.one trivial ?_
  simp only [State.step, State.put, update_self, WPc.act, h, Option.map_some, List.append_nil,
    update_idem]

theorem cas_claims {w : ω} {a : Attempt} {checked : Bool} (hrc : (s.ring.slot a.ct).rc = a.rc)
    (hep : s.ring.epoch = a.epoch) :
    ∃ t, Run State.step (fun _ _ => True) (s.put w (.cas a checked)) [.writer w .go, .writer w .go] t ∧
      t.claims = s.claims ++ [(a.ct, a.frag)] := by
  let g := s.ring.setRc (a.ct.setWidth 8) (stamp a.epoch a.rc a.cc)
  have h1 : (s.put w (.cas a checked)).step (.writer w .go) =
      some { s.put w (.validate a.call a.frag a.epoch a.ct) with ring := g } := by
    simp only [State.step, State.put, update_self, WPc.act, WPc.step, hrc, if_true, Option.map_some,
      List.append_nil, update_idem, g]
  have hep' : g.epoch = a.epoch := hep
  have h2 : State.step { s.put w (.validate a.call a.frag a.epoch a.ct) with ring := g } (.writer w .go) =
      some { s.put w (.storeCt a.frag a.ct) with ring := g, claims := s.claims ++ [(a.ct, a.frag)] } := by
    simp only [State.step, State.put, update_self, WPc.act, WPc.step, hep', if_true, Option.map_some,
      update_idem]
  exact ⟨_, Run.head trivial h1 (Run.one trivial h2), rfl⟩

/-- **A push by itself goes through** if no connected receiver has a mark on the slot at the commit index, and the flag
fits in case nobody has. -/
theorem push_claims {w : ω} {k : Call} {f : MsgT} (hw : s.writers w = .idle) (hk : k = .rust ∨ k = .push)
    (hcc : s.ring.connections ≠ 0) (hmk : s.ring.connections &&& marks (s.ring.slot s.ring.writeCursor).rc = 0)
    (hfl : marks (s.ring.slot s.ring.writeCursor).rc = 0 →
      accepts s.ring.writeCursor (s.ring.slot s.ring.writeCursor).fCt = true) :
    ∃ n t, Run State.step (fun _ _ => True) s (.writer w (.call k f) :: List.replicate n (.writer w .go)) t ∧
      t.claims = s.claims ++ [(s.ring.writeCursor, f)] := by
  have hcall : Run State.step (fun _ _ => True) s [.writer w (.call k f)] (s.put w (.loadEpoch k f)) := by
    refine Run.one trivial ?_
    rcases hk with rfl | rfl <;> simp [State.step, State.put, hw, WPc.act]
  have hforce : k ≠ .force := by rcases hk with rfl | rfl <;> simp
  let a : Attempt := ⟨k, f, s.ring.epoch, s.ring.connections, s.ring.writeCursor, (s.ring.slot s.ring.writeCursor).rc,
    (s.ring.slot s.ring.writeCursor).ver, s.claims.length⟩
  have h1 : Run State.step (fun _ _ => True) _ _ (s.put w (.loadCc k f s.ring.epoch)) := hcall.trans (put_go rfl)
  have h2 : Run State.step (fun _ _ => True) _ _ (s.put w (.loadCt k f s.ring.epoch s.ring.connections)) :=
    h1.trans (put_go (by rw [WPc.step, if_neg hcc]))
  have h3 : Run State.step (fun _ _ => True) _ _ (s.put w (.loadRc k f s.ring.epoch s.ring.connections s.ring.writeCursor
    s.claims.length)) := h2.trans (put_go rfl)
  have h4 : Run State.step (fun _ _ => True) _ _ (s.put w (.tested a)) := h3.trans (put_go rfl)
  have htested : WPc.tested a = if marks a.rc = 0 then .loadFl a else .cas a false := by
    simp [WPc.tested, a, hmk]
  by_cases h0 : marks a.rc = 0
  · rw [htested, if_pos h0] at h4
    have hfree : (WPc.loadFl a).step s.ring s.claims.length = some (s.ring, .cas a true, []) := by
      have hacc := accepts_iff.mp (hfl h0)
      rw [WPc.step, if_neg fun hn => hacc.elim hn.1 hn.2]
    obtain ⟨t, h6, ht⟩ := cas_claims (s := s) (w := w) (a := a) rfl rfl
    exact ⟨7, t, (h4.trans (put_go hfree)).trans h6, ht⟩
  · rw [htested, if_neg h0] at h4
    obtain ⟨t, h6, ht⟩ := cas_claims (s := s) (w := w) (a := a) rfl rfl
    exact ⟨6, t, h4.trans h6, ht⟩

end Push

section Runs
variable [DecidableEq ω] [DecidableEq ι] {s₀ : State ω ι} {acts : List (Act ω ι)}

end Runs

instance (s : State ω ι) (act : Act ω ι) : Decidable (timely s act) := by
  induction act using Act.casesOn with
  | writer w a =>
    induction a using WAct.casesOn <;> unfold timely
    case go =>
      dsimp only
      induction s.writers w using WPc.casesOn
      case rel ct stale bit m => induction m using MPc.casesOn <;> infer_instance
      all_goals infer_instance
    all_goals infer_instance
  | recv i a =>
    induction a using RAct.casesOn <;> unfold timely
    case go =>
      dsimp only
      induction (s.recvs i).pc using RPc.casesOn
      case rel since idx pos m => induction m using MPc.casesOn <;> infer_instance
      all_goals infer_instance
    all_goals infer_instance

/-- Writer 0 pushes, and receiver 0 reads. -/
def exchange : List (Act (Fin 2) (Fin 2)) :=
  pushing 0 .rust 18 ++ .recv 0 .recv :: List.replicate 9 (.recv 0 .go)

end ThothIpc.Channel
