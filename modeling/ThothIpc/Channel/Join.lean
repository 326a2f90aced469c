import ThothIpc.Channel.View
import ThothIpc.Channel.Work

/-!
# Receivers that come and stay

A channel whose receivers connect and read but do not leave, and whose writers run `push_fragment_multi`. Every bit then
has one owner for good, so that no mark on the ring is a leftover.

* `Committed`, `State.view` : the positions that can be read, and the ring as a bit sees it;
* `WPc.Plain`, `Receiver.Place` : what each writer and each receiver knows, by where it stands;
* `Joint` : the whole invariant; its last part says that a slot is released only by the last of its readers;
* `Joint.writer` : what a step of a writer has to keep, `Joint.move` : the steps of one that is not at work.
-/

namespace ThothIpc.Channel
open Steps

variable {ω ι : Type}

/-! ## Views -/

/-- Every bit of `x` is one of `y`. -/
def Sub (x y : BitVec 32) : Prop := ∀ b, x.getLsbD b = true → y.getLsbD b = true

/-- What a writer in the claim loop has loaded. -/
def WPc.loaded : WPc → Option (BitVec 32 × Option Nat)
  | .loadCt _ _ _ cc => some (cc, none)
  | .loadRc _ _ _ cc ct _ => some (cc, some ct.toNat)
  | .evict a => some (a.cc, some a.ct.toNat)
  | .loadFl a => some (a.cc, some a.ct.toNat)
  | .cas a _ => some (a.cc, some a.ct.toNat)
  | _ => none

/-- The writer has stamped its position and not yet moved the commit index past it. -/
def WPc.pending : WPc → Bool
  | .validate _ _ _ _ => true
  | .storeCt _ _ => true
  | _ => false

open Classical in
/-- The ring as a bit sees it. -/
noncomputable def State.view (s : State ω ι) : View ω where
  marks x := marks (s.ring.slots x).rc
  top := s.ring.writeCursor.toNat + if ∃ w, (s.writers w).pending = true then 1 else 0
  index := s.ring.writeCursor.toNat
  loaded w := (s.writers w).loaded

def Committed (s : State ω ι) (p : Nat) : Prop :=
  p < s.claims.length ∧ ∀ w f, (s.writers w).won ≠ some (BitVec.ofNat 32 p, f)

/-! ## The writers -/

/-- The owner of bit `b` has recorded a `since` after position `ct`. -/
def Late (g : Ring) (ct : BitVec 32) (b : Nat) : Prop := ct.toNat < (g.owners b).since.toNat

/-- `release_mark` works from a word that carries the bit, and has taken nothing off yet. -/
def MPc.Fits (bit : BitVec 32) : MPc → Prop
  | .load => True
  | .fl rc _ => rc &&& bit.setWidth 64 ≠ 0
  | .cas rc _ => rc &&& bit.setWidth 64 ≠ 0
  | .free => False

/-- What a writer knows: there is one epoch, its mask is of connected bits, and what it is about to drop started later.
A claim goes over marks only if none is in its mask. -/
def WPc.Plain (g : Ring) : WPc → Prop
  | .loadEpoch k _ => k = .rust
  | .bumpEpoch _ => False
  | .loadCc k _ ep => k = .rust ∧ ep = 0
  | .loadCt k _ ep cc => k = .rust ∧ ep = 0 ∧ Sub cc g.connections
  | .loadRc k _ ep cc _ _ => k = .rust ∧ ep = 0 ∧ Sub cc g.connections
  | .evict _ => False
  | .loadFl a => a.call = .rust ∧ a.epoch = 0 ∧ Sub a.cc g.connections
  | .busy k _ ep => k = .rust ∧ ep = 0
  | .cas a checked => a.call = .rust ∧ a.epoch = 0 ∧ Sub a.cc g.connections ∧ a.cc &&& marks a.rc = 0 ∧
      (checked = false → marks a.rc ≠ 0 ∧ Sub (marks a.rc) g.connections)
  | .validate k _ ep _ => k = .rust ∧ ep = 0
  | .loadMarks ct => ct.toNat < 2 ^ 31
  | .live ct bits todo acc => ct.toNat < 2 ^ 31 ∧ ∀ b, bits.getLsbD b = true →
      todo.getLsbD b = true ∨ acc.getLsbD b = true ∨ Late g ct b
  | .drop ct stale => ∀ b, stale.getLsbD b = true → Late g ct b
  | .rel ct stale bit m => (∀ b, stale.getLsbD b = true → Late g ct b) ∧
      (∃ b < 32, bit = BitVec.twoPow 32 b ∧ Late g ct b) ∧ m.Fits bit
  | _ => True

/-! ## The receivers -/

def RPc.claimed : RPc → Bool
  | .closed => false
  | .readSince => false
  | .loadConns _ => false
  | .casConns _ _ => false
  | _ => true

/-- The receiver has read its position and is about to release it. -/
def RPc.releasing : RPc → Bool
  | .relLoad _ => true
  | .preStore _ _ => true
  | .relCas _ _ => true
  | _ => false

/-- The position from which on the receiver has every mark: where its walk stands, or the first position it has not
released. -/
def Receiver.low (r : Receiver) : Option Nat :=
  match r.pc with
  | .adoptWalk _ _ cur _ => some cur.toNat
  | .ownerTok => some r.readCursor.toNat
  | .ownerPid => some r.readCursor.toNat
  | .ready => some r.readCursor.toNat
  | .read _ _ => some r.readCursor.toNat
  | .relLoad _ => some r.readCursor.toNat
  | .preStore _ _ => some r.readCursor.toNat
  | .relCas _ _ => some r.readCursor.toNat
  | .bump _ => some (r.readCursor.toNat + 1)
  | _ => none

/-- The `since` of the receiver's owner record. -/
def Receiver.recorded (g : Ring) (r : Receiver) : BitVec 32 := (g.owners (slotIndex r.connId)).since

/-- The commit index the receiver read before it claimed its bit. -/
def Receiver.since (g : Ring) (r : Receiver) : BitVec 32 :=
  match r.pc with
  | .setSince since => since
  | _ => r.recorded g

/-- What a receiver knows, by where it stands. -/
def Receiver.Place (s : State ω ι) (r : Receiver) : Prop :=
  match r.pc with
  | .loadConns since => since.toNat ≤ s.ring.writeCursor.toNat
  | .casConns since curr => since.toNat ≤ s.ring.writeCursor.toNat ∧ curr ||| (curr + 1) ≠ curr
  | .setSince _ => r.recorded s.ring = 0
  | .stale since _ => r.recorded s.ring = since
  | .rel since _ pos m => r.recorded s.ring = since ∧ pos.toNat < since.toNat ∧ m.Fits r.connId
  | .adoptEpoch since => r.recorded s.ring = since
  | .adoptCt since ep => r.recorded s.ring = since ∧ ep = 0
  | .adoptWalk since ep cur _ => r.recorded s.ring = since ∧ ep = 0 ∧ since.toNat ≤ cur.toNat
  | .read k m => Committed s r.readCursor.toNat ∧ k < MsgT.fields ∧ (s.ring.slot r.readCursor).data.Agree k m
  | .relLoad m => Committed s r.readCursor.toNat ∧ m = (s.ring.slot r.readCursor).data
  | .freeStore _ => False
  | .preStore m rc => Committed s r.readCursor.toNat ∧ m = (s.ring.slot r.readCursor).data ∧
      Sub (marks (s.ring.slot r.readCursor).rc) (marks rc) ∧ Sub (marks rc) r.connId
  | .relCas m _ => Committed s r.readCursor.toNat ∧ m = (s.ring.slot r.readCursor).data
  | .bump m => ∃ c, s.claims[r.readCursor.toNat]? = some (c, m)
  | .clearPid => False
  | .clearTok => False
  | _ => True

/-- The channel while receivers come and stay. -/
structure Joint (s : State ω ι) : Prop where
  core : Core s
  len : s.claims.length ≤ 2 ^ 31
  epoch : s.ring.epoch = 0
  rc : ∀ x, (s.ring.slots x).rc &&& ~~~epMask = 0
  marks : ∀ x, Sub (marks (s.ring.slots x).rc) s.ring.connections
  flags : ∀ x c, (s.ring.slots x).fCt = atPos c → Committed s c.toNat ∧ c.setWidth 8 = x
  plain : ∀ w, (s.writers w).Plain s.ring
  own : ∀ i, (s.recvs i).pc.claimed = true →
    ∃ b < 32, (s.recvs i).connId = BitVec.twoPow 32 b ∧ s.ring.connections.getLsbD b = true
  one : ∀ i j, (s.recvs i).pc.claimed = true → (s.recvs j).pc.claimed = true → (s.recvs i).connId = (s.recvs j).connId →
    i = j
  owner : ∀ b, s.ring.connections.getLsbD b = true →
    ∃ i, (s.recvs i).pc.claimed = true ∧ (s.recvs i).connId = BitVec.twoPow 32 b
  table : ∀ b < 32, s.ring.connections.getLsbD b = false → (s.ring.owners b).since = 0
  floor : ∀ i b, (s.recvs i).pc.claimed = true → (s.recvs i).connId = BitVec.twoPow 32 b →
    Floor s.view b ((s.recvs i).since s.ring).toNat
  guard : ∀ i b m, (s.recvs i).connId = BitVec.twoPow 32 b → (s.recvs i).low = some m → Guard s.view b m
  place : ∀ i, (s.recvs i).Place s
  freed : ∀ p, p < s.view.top → s.view.top ≤ p + 256 → Committed s p →
    (slotAt s.ring p).fCt ≠ atPos (BitVec.ofNat 32 p) → ∀ i b, (s.recvs i).pc.claimed = true →
      (s.recvs i).connId = BitVec.twoPow 32 b → s.view.Marked p b →
        (s.recvs i).pc.releasing = true ∧ (s.recvs i).readCursor = BitVec.ofNat 32 p

variable {s t : State ω ι}

/-! ## Positions -/

/-- The commit index and the number of positions stamped, by who is on the way between the two. -/
theorem Core.top_cases (h : Core s) (hn : s.claims.length ≤ 2 ^ 31) :
    ((∀ w, (s.writers w).pending = false) ∧ s.view.index = s.claims.length ∧ s.view.top = s.claims.length) ∨
    (∃ w k f ep, s.writers w = .validate k f ep (BitVec.ofNat 32 s.claims.length) ∧ s.view.index = s.claims.length ∧
      s.view.top = s.claims.length + 1) ∨
    ∃ w f, s.writers w = .storeCt f (BitVec.ofNat 32 (s.claims.length - 1)) ∧ 0 < s.claims.length ∧
      s.view.index = s.claims.length - 1 ∧ s.view.top = s.claims.length := by
  by_cases hp : ∃ w, (s.writers w).pending = true
  · obtain ⟨w, hw⟩ := hp
    have hl := h.work w
    have htop : s.view.top = s.view.index + 1 := by
      simp only [State.view]
      rw [if_pos ⟨w, hw⟩]
    cases hpc : s.writers w <;> rw [hpc] at hw hl <;> cases hw
    case validate.refl k f ep ct =>
      have hi : s.view.index = s.claims.length := by
        simp only [State.view, hl.2, BitVec.toNat_ofNat]
        omega
      exact Or.inr (Or.inl ⟨w, k, f, ep, by rw [hpc, hl.1], hi, by omega⟩)
    case storeCt.refl f ct =>
      obtain ⟨h0, hct, hwc⟩ := hl
      have hi : s.view.index = s.claims.length - 1 := by
        simp only [State.view, hwc, hct, BitVec.toNat_ofNat]
        omega
      exact Or.inr (Or.inr ⟨w, f, by rw [hpc, hct], h0, hi, by omega⟩)
  · have hno : ∀ w, (s.writers w).pending = false := fun w => by
      by_contra hw
      exact hp ⟨w, by simpa using hw⟩
    have hi : s.view.index = s.claims.length := by
      rcases h.index with hi | ⟨w, f, ct, hw⟩
      · simp only [State.view, hi, BitVec.toNat_ofNat]
        omega
      · have := hno w
        rw [hw] at this
        cases this
    refine Or.inl ⟨hno, hi, ?_⟩
    rw [← hi]
    simp only [State.view]
    rw [if_neg hp, Nat.add_zero]

theorem Core.le_top (h : Core s) (hn : s.claims.length ≤ 2 ^ 31) :
    s.claims.length ≤ s.view.top ∧ s.view.top ≤ s.claims.length + 1 ∧ s.view.index ≤ s.claims.length := by
  rcases h.top_cases hn with ⟨-, h1, h2⟩ | ⟨-, -, -, -, -, h1, h2⟩ | ⟨-, -, -, h0, h1, h2⟩ <;> omega

/-- A slot nobody is at work on is at its last position, also for those who count what is stamped. -/
theorem Core.top_le (h : Core s) (hn : s.claims.length ≤ 2 ^ 31) {p : Nat} (hw : Unworked s (BitVec.ofNat 8 p))
    (hle : s.claims.length ≤ p + 256) : s.view.top ≤ p + 256 := by
  rcases h.top_cases hn with ⟨-, -, h2⟩ | ⟨w, k, f, ep, hv, -, h2⟩ | ⟨-, -, -, -, -, h2⟩
  · omega
  · by_contra hno
    refine hw w _ (by rw [hv]; rfl) ?_
    rw [setWidth_ofNat, show s.claims.length = p + 256 by omega]
    exact BitVec.eq_of_toNat_eq (by simp)
  · omega

theorem Core.unworked (h : Core s) (hn : s.claims.length ≤ 2 ^ 31) {p : Nat} (hc : Committed s p)
    (hle : s.view.top ≤ p + 256) : Unworked s (BitVec.ofNat 8 p) := by
  have htop := h.le_top hn
  intro w c hw hx
  rcases h.at_won hw with ⟨k, f, ep, hpc, rfl⟩ | ⟨q, f, hq, hqle, rfl, hwon⟩
  · -- at work on the next position to be claimed
    have hv : s.view.top = s.claims.length + 1 := by
      rcases h.top_cases hn with ⟨hno, -, -⟩ | ⟨-, -, -, -, -, -, h2⟩ | ⟨v, d, hv, h0, hi, h2⟩
      · have := hno w
        rw [hpc] at this
        cases this
      · exact h2
      · have hl := h.work w
        rw [hpc] at hl
        have : s.view.index = s.claims.length := by
          simp only [State.view, hl.2, BitVec.toNat_ofNat]
          omega
        omega
    have hlt := hc.1
    rw [setWidth_ofNat] at hx
    exact ofNat_slot_ne hlt (by omega) hx.symm
  · have hlt := hc.1
    rw [setWidth_ofNat, slot_inj (by omega) (by omega)] at hx
    subst hx
    exact hc.2 w f hwon

/-! ## What a step of a writer leaves -/

theorem WPc.pending_of_at {pc : WPc} (h : pc.at = none) : pc.pending = false := by
  cases pc <;> first | rfl | cases h

theorem WPc.won_of_at {pc : WPc} (h : pc.at = none) : pc.won = none := by
  cases pc <;> first | rfl | cases h

theorem Receiver.Place.mono {r : Receiver} (h : r.Place s)
    (hi : s.ring.writeCursor.toNat ≤ t.ring.writeCursor.toNat)
    (hrec : r.pc.claimed = true → r.recorded t.ring = r.recorded s.ring)
    (hcom : ∀ p, Committed s p → Committed t p)
    (hslot : Committed s r.readCursor.toNat → r.low = some r.readCursor.toNat →
      (t.ring.slot r.readCursor).data = (s.ring.slot r.readCursor).data ∧
        Sub (Channel.marks (t.ring.slot r.readCursor).rc) (Channel.marks (s.ring.slot r.readCursor).rc))
    (hcl : ∀ (k : Nat) x, s.claims[k]? = some x → t.claims[k]? = some x) : r.Place t := by
  obtain ⟨connId, cur, pc, disc, pid, tok, got⟩ := r
  cases pc <;> simp only [Receiver.Place] at h ⊢
  case loadConns => exact le_trans h hi
  case casConns => exact ⟨le_trans h.1 hi, h.2⟩
  case read k m =>
    rw [(hslot h.1 rfl).1]
    exact ⟨hcom _ h.1, h.2⟩
  case relLoad m =>
    rw [(hslot h.1 rfl).1]
    exact ⟨hcom _ h.1, h.2⟩
  case preStore m rc =>
    obtain ⟨hd, hm⟩ := hslot h.1 rfl
    exact ⟨hcom _ h.1, by rw [hd]; exact h.2.1, fun b hb => h.2.2.1 b (hm b hb), h.2.2.2⟩
  case relCas m rc =>
    rw [(hslot h.1 rfl).1]
    exact ⟨hcom _ h.1, h.2⟩
  case bump m =>
    obtain ⟨c, hc⟩ := h
    exact ⟨c, hcl _ _ hc⟩
  case setSince => exact (hrec rfl).trans h
  case stale => exact (hrec rfl).trans h
  case rel => exact ⟨(hrec rfl).trans h.1, h.2⟩
  case adoptEpoch => exact (hrec rfl).trans h
  case adoptCt => exact ⟨(hrec rfl).trans h.1, h.2⟩
  case adoptWalk => exact ⟨(hrec rfl).trans h.1, h.2⟩

theorem Receiver.claimed_of_low {r : Receiver} {m : Nat} (h : r.low = some m) : r.pc.claimed = true := by
  unfold Receiver.low at h
  cases hpc : r.pc <;> rw [hpc] at h <;> first | rfl | cases h

theorem Joint.connected (h : Joint s) {i : ι} {b : Nat} (hi : (s.recvs i).pc.claimed = true)
    (hb : (s.recvs i).connId = BitVec.twoPow 32 b) : s.ring.connections.getLsbD b = true := by
  obtain ⟨b', hb', hid, hc⟩ := h.own i hi
  rwa [← Bits.twoPow_inj hb' (hid.symm.trans hb)]

/-- A step that leaves the receivers, the connection word, the epoch and the owner table alone. -/
theorem Joint.writer (h : Joint s) (hcore : Core t) (hlen : t.claims.length ≤ 2 ^ 31) (hrecvs : t.recvs = s.recvs)
    (hconn : t.ring.connections = s.ring.connections) (howners : t.ring.owners = s.ring.owners)
    (hepoch : t.ring.epoch = s.ring.epoch) (hrc : ∀ x, (t.ring.slots x).rc &&& ~~~epMask = 0)
    (hmarks : ∀ x, Sub (Channel.marks (t.ring.slots x).rc) s.ring.connections)
    (hflags : ∀ x c, (t.ring.slots x).fCt = atPos c → Committed t c.toNat ∧ c.setWidth 8 = x)
    (hplain : ∀ w, (t.writers w).Plain t.ring) (hfloor : ∀ b σ, Floor s.view b σ → Floor t.view b σ)
    (hguard : ∀ i b m, (s.recvs i).connId = BitVec.twoPow 32 b → (s.recvs i).low = some m → Guard s.view b m →
      Guard t.view b m)
    (hplace : ∀ i, (s.recvs i).Place t)
    (hfreed : ∀ p, p < t.view.top → t.view.top ≤ p + 256 → Committed t p →
      (slotAt t.ring p).fCt ≠ atPos (BitVec.ofNat 32 p) → p < s.view.top ∧ s.view.top ≤ p + 256 ∧ Committed s p ∧
        (slotAt s.ring p).fCt ≠ atPos (BitVec.ofNat 32 p) ∧ ∀ b, t.view.Marked p b → s.view.Marked p b) : Joint t := by
  have hsince : ∀ r : Receiver, r.since t.ring = r.since s.ring := fun r => by
    unfold Receiver.since Receiver.recorded
    rw [howners]
  refine ⟨hcore, hlen, hepoch.trans h.epoch, hrc, by rw [hconn]; exact hmarks, hflags, hplain, ?_, ?_, ?_, ?_, ?_,
    ?_, ?_, ?_⟩
  · rw [hrecvs, hconn]; exact h.own
  · rw [hrecvs]; exact h.one
  · rw [hrecvs, hconn]; exact h.owner
  · rw [hconn, howners]; exact h.table
  · rw [hrecvs]
    intro i b hi hb
    rw [hsince]
    exact hfloor _ _ (h.floor i b hi hb)
  · rw [hrecvs]
    intro i b m hb hm
    exact hguard i b m hb hm (h.guard i b m hb hm)
  · rw [hrecvs]; exact hplace
  · rw [hrecvs]
    intro p h1 h2 h3 h4 i b hi hb hm
    obtain ⟨g1, g2, g3, g4, g5⟩ := hfreed p h1 h2 h3 h4
    exact h.freed p g1 g2 g3 g4 i b hi hb (g5 b hm)

/-! ## The claim loop -/

section Steps
variable [DecidableEq ω] {w : ω}

theorem view_writers {q : WPc} (hp : q.pending = (s.writers w).pending) :
    State.view { s with writers := Function.update s.writers w q } = s.view.load w q.loaded := by
  have hex : (∃ v, (Function.update s.writers w q v).pending = true) ↔ ∃ v, (s.writers v).pending = true :=
    exists_congr fun v => by rw [view_update (F := WPc.pending) hp]
  simp only [State.view, View.load, View.mk.injEq, true_and]
  refine ⟨?_, funext fun v => ?_⟩
  · by_cases hs : ∃ v, (s.writers v).pending = true
    · rw [if_pos (hex.mpr hs), if_pos hs]
    · rw [if_neg (mt hex.mp hs), if_neg hs]
  · by_cases hv : v = w
    · subst hv
      simp
    · simp [hv]

theorem committed_update {q : WPc} (hp : q.won = (s.writers w).won) (p : Nat) :
    Committed { s with writers := Function.update s.writers w q } p ↔ Committed s p := by
  simp only [Committed, view_update (F := WPc.won) hp]

/-- The commit index a writer of the claim loop works from at its next place is the one there is, or the one it had. -/
def Reloads (s : State ω ι) (w : ω) (pc : WPc) : Prop :=
  ∀ cc ct, pc.loaded = some (cc, some ct) → ct = s.view.index ∨ (s.writers w).loaded = some (cc, some ct)

omit [DecidableEq ω] in
theorem reloads_of_none {pc : WPc} (h : pc.loaded = none) : Reloads s w pc := by
  intro cc ct ho
  rw [h] at ho
  cases ho

omit [DecidableEq ω] in
theorem reloads_of_same {pc : WPc} (h : pc.loaded = (s.writers w).loaded) : Reloads s w pc := by
  intro cc ct ho
  rw [h] at ho
  exact Or.inr ho

theorem Joint.plain_update {pc : WPc} (h : Joint s) (hp : pc.Plain s.ring) (v : ω) :
    (Function.update s.writers w pc v).Plain s.ring :=
  forall_update hp (fun v _ => h.plain v) v

theorem Joint.move {pc : WPc} (h : Joint s) (hcore : Core { s with writers := Function.update s.writers w pc })
    (hold : (s.writers w).at = none) (hat : pc.at = none) (hp : pc.Plain s.ring) (hl : Reloads s w pc) :
    Joint { s with writers := Function.update s.writers w pc } := by
  have hview := view_writers (s := s) (w := w) (q := pc) (by rw [WPc.pending_of_at hat, WPc.pending_of_at hold])
  have hcom := committed_update (s := s) (w := w) (q := pc) (by rw [WPc.won_of_at hat, WPc.won_of_at hold])
  refine h.writer hcore h.len rfl rfl rfl rfl h.rc h.marks (fun x c hx => ?_) ?_ (fun b σ hf => ?_)
    (fun i b m _ _ hg => ?_) (fun i => ?_) fun p h1 h2 h3 h4 => ?_
  · rw [hcom]
    exact h.flags x c hx
  · exact h.plain_update hp
  · rw [hview]
    refine hf.load fun cc ct hx hb => ?_
    rcases hl cc ct hx with rfl | hold
    · exact hf.le
    · exact hf.loop w cc ct hold hb
  · rw [hview]
    exact hg.load
  · exact (h.place i).mono (Nat.le_refl _) (fun _ => rfl) (fun p hp => (hcom p).mpr hp)
      (fun _ _ => ⟨rfl, fun _ hb => hb⟩)
      fun _ _ hk => hk
  · rw [hview] at h1 h2
    exact ⟨h1, h2, (hcom p).mp h3, h4, fun b hb => by rw [hview] at hb; exact hb⟩

end Steps

end ThothIpc.Channel
