import ThothIpc.Lib.Bits

/-!
# The two words of a channel slot

`rc_` packs the unread marks (low 32 bits), a generation that every update moves on by one (24 bits) and the epoch (top
byte). `f_ct_` is the commit flag: `!pos` once position `pos` is committed, `pos + 256` once it is released, 0 at first.

* `incRc`, `incMask`, `stamp`, `unmark` : the updates of `rc_`;
* `marks`, `gen` : its fields (`marks_stamp`, `gen_stamp`, `marks_unmark`, `gen_unmark`);
* `words_fresh` : fewer than 2^24 updates never bring a value of `rc_` back;
* `atPos`, `freeFlag`, `Freed` : the values of the flag.
-/

namespace ThothIpc.Channel

/-- `RC_MASK`: the marks. -/
def rcMask : BitVec 64 := 0x00000000ffffffff#64

/-- `CH_EP_MASK`: the marks and the generation. -/
def epMask : BitVec 64 := 0x00ffffffffffffff#64

/-- `CH_EP_INCR`: one epoch. -/
def epIncr : BitVec 64 := 0x0100000000000000#64

/-- `CH_IC_MASK`: everything but the generation. -/
def icMask : BitVec 64 := 0xff000000ffffffff#64

/-- `CH_IC_INCR`: one generation. -/
def icIncr : BitVec 64 := 0x0000000100000000#64

def incRc (rc : BitVec 64) : BitVec 64 := (rc &&& icMask) ||| ((rc + icIncr) &&& ~~~icMask)

def incMask (rc : BitVec 64) : BitVec 64 := incRc rc &&& ~~~rcMask

/-- What a claim writes over `rc`: the marks of the connected receivers, under the writer's epoch. -/
def stamp (epoch rc : BitVec 64) (cc : BitVec 32) : BitVec 64 := incMask (epoch ||| (rc &&& epMask)) ||| cc.setWidth 64

/-- What a release writes over `rc`: the mark `bit` is taken off. -/
def unmark (rc : BitVec 64) (bit : BitVec 32) : BitVec 64 := incRc rc &&& ~~~(bit.setWidth 64)

def marks (rc : BitVec 64) : BitVec 32 := rc.setWidth 32

def gen (rc : BitVec 64) : BitVec 24 := rc.extractLsb' 32 24

/-! ## Bit by bit -/

theorem getLsbD_epMask (i : Nat) : epMask.getLsbD i = decide (i < 56) := by
  by_cases h : i < 64
  · have : ∀ j : Fin 64, epMask.getLsbD j = decide (j.val < 56) := by decide
    exact this ⟨i, h⟩
  · rw [BitVec.getLsbD_of_ge _ _ (by omega)]
    simp [show ¬ i < 56 by omega]

theorem getLsbD_rcMask (i : Nat) : rcMask.getLsbD i = decide (i < 32) := by
  by_cases h : i < 64
  · have : ∀ j : Fin 64, rcMask.getLsbD j = decide (j.val < 32) := by decide
    exact this ⟨i, h⟩
  · rw [BitVec.getLsbD_of_ge _ _ (by omega)]
    simp [show ¬ i < 32 by omega]

theorem getLsbD_icMask (i : Nat) : icMask.getLsbD i = decide (i < 32 ∨ 56 ≤ i ∧ i < 64) := by
  by_cases h : i < 64
  · have : ∀ j : Fin 64, icMask.getLsbD j = decide (j.val < 32 ∨ 56 ≤ j.val ∧ j.val < 64) := by decide
    exact this ⟨i, h⟩
  · rw [BitVec.getLsbD_of_ge _ _ (by omega)]
    simp [show ¬ i < 32 by omega, h]

theorem getLsbD_incRc (rc : BitVec 64) (i : Nat) :
    (incRc rc).getLsbD i = if 32 ≤ i ∧ i < 56 then (rc + icIncr).getLsbD i else rc.getLsbD i := by
  simp only [incRc, BitVec.getLsbD_or, BitVec.getLsbD_and, BitVec.getLsbD_not, getLsbD_icMask]
  by_cases h64 : i < 64
  · by_cases hg : 32 ≤ i ∧ i < 56
    · simp [hg, h64, show ¬ i < 32 by omega, show ¬ 56 ≤ i by omega]
    · have : i < 32 ∨ 56 ≤ i ∧ i < 64 := by omega
      simp [hg, this]
  · simp [BitVec.getLsbD_of_ge _ i (show 64 ≤ i by omega), show ¬ i < 56 by omega]

theorem gen_add_icIncr (rc : BitVec 64) : gen (rc + icIncr) = gen rc + 1#24 := by
  refine BitVec.eq_of_toNat_eq ?_
  rw [gen, gen, BitVec.extractLsb'_toNat, BitVec.toNat_add, BitVec.toNat_add, BitVec.extractLsb'_toNat, icIncr,
    BitVec.toNat_ofNat, BitVec.toNat_ofNat]
  simp only [Nat.shiftRight_eq_div_pow, Nat.reducePow, Nat.reduceMod]
  omega

theorem getLsbD_gen (rc : BitVec 64) (i : Nat) : (gen rc).getLsbD i = (decide (i < 24) && rc.getLsbD (32 + i)) := by
  rw [gen, BitVec.getLsbD_extractLsb']

theorem getLsbD_marks (rc : BitVec 64) (i : Nat) : (marks rc).getLsbD i = (decide (i < 32) && rc.getLsbD i) := by
  rw [marks, BitVec.getLsbD_setWidth]

/-! ## The updates -/

theorem gen_incRc (rc : BitVec 64) : gen (incRc rc) = gen rc + 1#24 := by
  rw [← gen_add_icIncr]
  refine BitVec.eq_of_getLsbD_eq fun i hi => ?_
  rw [getLsbD_gen, getLsbD_gen, getLsbD_incRc, if_pos (by omega)]

theorem gen_congr {x y : BitVec 64} (h : ∀ i, 32 ≤ i → i < 56 → x.getLsbD i = y.getLsbD i) : gen x = gen y := by
  refine BitVec.eq_of_getLsbD_eq fun i hi => ?_
  rw [getLsbD_gen, getLsbD_gen, h (32 + i) (by omega) (by omega)]

theorem gen_unmark (rc : BitVec 64) (bit : BitVec 32) : gen (unmark rc bit) = gen rc + 1#24 := by
  rw [← gen_incRc]
  refine gen_congr fun i h1 h2 => ?_
  rw [unmark, BitVec.getLsbD_and, BitVec.getLsbD_not, Bits.getLsbD_zeroExtend, BitVec.getLsbD_of_ge bit i h1]
  simp [show i < 64 by omega]

theorem marks_unmark (rc : BitVec 64) (bit : BitVec 32) : marks (unmark rc bit) = marks rc &&& ~~~bit := by
  refine BitVec.eq_of_getLsbD_eq fun i hi => ?_
  rw [getLsbD_marks, unmark, BitVec.getLsbD_and, BitVec.getLsbD_and, getLsbD_incRc, if_neg (by omega), getLsbD_marks,
    BitVec.getLsbD_not, BitVec.getLsbD_not, Bits.getLsbD_zeroExtend]
  simp [hi, show i < 64 by omega]

theorem epoch_unmark (rc : BitVec 64) (bit : BitVec 32) : unmark rc bit &&& ~~~epMask = rc &&& ~~~epMask := by
  refine BitVec.eq_of_getLsbD_eq fun i hi => ?_
  rw [BitVec.getLsbD_and, BitVec.getLsbD_and, BitVec.getLsbD_not, getLsbD_epMask]
  by_cases h : i < 56
  · simp [h]
  · rw [unmark, BitVec.getLsbD_and, BitVec.getLsbD_not, Bits.getLsbD_zeroExtend, BitVec.getLsbD_of_ge bit i (by omega),
      getLsbD_incRc, if_neg (by omega)]
    simp [hi]

theorem marks_stamp (epoch rc : BitVec 64) (cc : BitVec 32) : marks (stamp epoch rc cc) = cc := by
  refine BitVec.eq_of_getLsbD_eq fun i hi => ?_
  rw [getLsbD_marks, stamp, incMask, BitVec.getLsbD_or, BitVec.getLsbD_and, BitVec.getLsbD_not, getLsbD_rcMask,
    Bits.getLsbD_zeroExtend]
  simp [hi]

/-- An epoch is in the top byte. -/
def IsEpoch (e : BitVec 64) : Prop := ∀ i < 56, e.getLsbD i = false

theorem gen_stamp {epoch : BitVec 64} (h : IsEpoch epoch) (rc : BitVec 64) (cc : BitVec 32) :
    gen (stamp epoch rc cc) = gen rc + 1#24 := by
  have h1 : gen (stamp epoch rc cc) = gen (incRc (epoch ||| (rc &&& epMask))) := by
    refine gen_congr fun i h1 h2 => ?_
    rw [stamp, incMask, BitVec.getLsbD_or, BitVec.getLsbD_and, BitVec.getLsbD_not, getLsbD_rcMask,
      Bits.getLsbD_zeroExtend, BitVec.getLsbD_of_ge cc i h1]
    simp [show ¬ i < 32 by omega, show i < 64 by omega]
  have h2 : gen (epoch ||| (rc &&& epMask)) = gen rc := by
    refine gen_congr fun i h1 h2 => ?_
    rw [BitVec.getLsbD_or, BitVec.getLsbD_and, getLsbD_epMask, h i h2]
    simp [h2]
  rw [h1, gen_incRc, h2]

theorem epoch_stamp {epoch : BitVec 64} (h : IsEpoch epoch) (rc : BitVec 64) (cc : BitVec 32) :
    stamp epoch rc cc &&& ~~~epMask = epoch := by
  refine BitVec.eq_of_getLsbD_eq fun i hi => ?_
  rw [BitVec.getLsbD_and, BitVec.getLsbD_not, getLsbD_epMask]
  by_cases h56 : i < 56
  · simp [h56, h i h56]
  · rw [stamp, incMask, BitVec.getLsbD_or, BitVec.getLsbD_and, BitVec.getLsbD_not, getLsbD_rcMask,
      Bits.getLsbD_zeroExtend,
      BitVec.getLsbD_of_ge cc i (by omega), getLsbD_incRc, if_neg (by omega), BitVec.getLsbD_or, BitVec.getLsbD_and,
      getLsbD_epMask]
    simp [hi, h56, show ¬ i < 32 by omega]

/-! ## Sequences of updates -/

/-- A release of one mark by its reader or of a stale one, or a claim. -/
inductive Update where
  | release (bit : Fin 32)
  | claim (epoch : BitVec 8) (cc : BitVec 32)

def Update.apply (rc : BitVec 64) : Update → BitVec 64
  | release bit => unmark rc (BitVec.twoPow 32 bit)
  | claim epoch cc => stamp (epoch.setWidth 64 <<< 56) rc cc

/-- The values of `rc_`, the first one included. -/
def words (rc : BitVec 64) (us : List Update) : List (BitVec 64) := us.scanl Update.apply rc

theorem isEpoch_shiftLeft (e : BitVec 8) : IsEpoch (e.setWidth 64 <<< 56) := by
  intro i hi
  simp [hi]

theorem Update.gen_apply (rc : BitVec 64) (u : Update) : gen (u.apply rc) = gen rc + 1#24 := by
  cases u with
  | release bit => exact gen_unmark rc _
  | claim epoch cc => exact gen_stamp (isEpoch_shiftLeft epoch) rc cc

theorem gen_of_mem_words {w : BitVec 64} {us : List Update} {rc : BitVec 64} (h : w ∈ words rc us) :
    ∃ i ≤ us.length, gen w = gen rc + BitVec.ofNat 24 i := by
  induction us generalizing rc with
  | nil =>
    rw [words, List.scanl_nil, List.mem_singleton] at h
    exact ⟨0, le_rfl, by rw [h]; simp⟩
  | cons u us ih =>
    rw [words, List.scanl_cons, List.mem_cons] at h
    obtain rfl | h := h
    · exact ⟨0, Nat.zero_le _, by simp⟩
    · obtain ⟨i, hi, hgen⟩ := ih h
      refine ⟨i + 1, Nat.succ_le_succ hi, ?_⟩
      rw [hgen, Update.gen_apply, BitVec.add_assoc, BitVec.ofNat_add, BitVec.add_comm 1#24]

/-- **No value of `rc_` comes back** within 2^24 - 1 updates; a release keeps the epoch and the other marks, and a claim
sets the given ones. -/
theorem words_fresh (rc : BitVec 64) (us : List Update) (h : us.length < 2 ^ 24) :
    (words rc us).Nodup ∧
    (∀ w bit, (Update.release bit).apply w &&& ~~~epMask = w &&& ~~~epMask ∧
      marks ((Update.release bit).apply w) = marks w &&& ~~~BitVec.twoPow 32 bit) ∧
    ∀ w epoch cc, (Update.claim epoch cc).apply w &&& ~~~epMask = epoch.setWidth 64 <<< 56 ∧
      marks ((Update.claim epoch cc).apply w) = cc := by
  refine ⟨?_, fun w bit => ⟨epoch_unmark w _, marks_unmark w _⟩,
    fun w epoch cc => ⟨epoch_stamp (isEpoch_shiftLeft epoch) w cc, marks_stamp _ w cc⟩⟩
  induction us generalizing rc with
  | nil => exact List.nodup_singleton rc
  | cons u us ih =>
    rw [List.length_cons] at h
    rw [words, List.scanl_cons, List.nodup_cons]
    refine ⟨fun hmem => ?_, ih _ (by omega)⟩
    -- a later word has another generation
    obtain ⟨i, hi, hgen⟩ := gen_of_mem_words hmem
    rw [Update.gen_apply] at hgen
    have hnat := congrArg BitVec.toNat hgen
    have hlt := (gen rc).isLt
    simp only [BitVec.toNat_add, BitVec.toNat_ofNat] at hnat
    omega

theorem words_fresh_two : (words 0 [.claim 1 3, .release 0]).Nodup := (words_fresh 0 _ (by decide)).1

/-! ## The commit flag -/

/-- `!pos`: position `pos` is committed. -/
def atPos (pos : BitVec 32) : BitVec 64 := ~~~(pos.setWidth 64)

/-- The last reader of position `cur` releases its slot with this. -/
def freeFlag (cur : BitVec 32) : BitVec 64 := (cur + 1).setWidth 64 + 255#64

/-- `release_mark` releases the slot of position `pos` with this. -/
def relFlag (pos : BitVec 32) : BitVec 64 := pos.setWidth 64 + 256#64

/-- `committed` of `release_stale`: the flag is some `!pos`. -/
def committed (fl : BitVec 64) : Bool := fl >>> 32 == 0xffffffff#64

/-- The flag says that position `p` is released: the slot is free for position `p + 256`, or, where the addition has
carried out of 32 bits, for nobody. -/
structure Freed (p : Nat) (fl : BitVec 64) : Prop where
  low : fl.setWidth 32 = BitVec.ofNat 32 (p + 256)
  ne : fl ≠ 0
  high : fl.toNat < 2 ^ 33

theorem toNat_atPos (pos : BitVec 32) : (atPos pos).toNat = 2 ^ 64 - 1 - pos.toNat := by
  rw [atPos, BitVec.toNat_not, BitVec.toNat_setWidth, Nat.mod_eq_of_lt (by have := pos.isLt; omega)]

theorem atPos_inj {p q : BitVec 32} (h : atPos p = atPos q) : p = q := by
  have h' := congrArg BitVec.toNat h
  rw [toNat_atPos, toNat_atPos] at h'
  have hp := p.isLt
  have hq := q.isLt
  exact BitVec.eq_of_toNat_eq (by omega)

theorem atPos_ne_zero (p : BitVec 32) : atPos p ≠ 0 := by
  intro h
  have h' := congrArg BitVec.toNat h
  rw [toNat_atPos] at h'
  have hp := p.isLt
  simp at h'
  omega

theorem not_freed_atPos {n : Nat} {p : BitVec 32} (h : Freed n (atPos p)) : False := by
  have h1 := h.high
  rw [toNat_atPos] at h1
  have hp := p.isLt
  omega

theorem freed_of_toNat {p : Nat} {fl : BitVec 64} (hlow : fl.toNat % 2 ^ 32 = (p + 256) % 2 ^ 32) (h0 : 0 < fl.toNat)
    (hhigh : fl.toNat < 2 ^ 33) : Freed p fl := by
  refine ⟨BitVec.eq_of_toNat_eq ?_, ?_, hhigh⟩
  · rw [BitVec.toNat_setWidth, BitVec.toNat_ofNat, hlow]
  · rintro rfl
    exact absurd h0 (by decide)

theorem freed_freeFlag (p : Nat) : Freed p (freeFlag (BitVec.ofNat 32 p)) := by
  have h1 : (freeFlag (BitVec.ofNat 32 p)).toNat = (p + 1) % 2 ^ 32 + 255 := by
    rw [freeFlag, BitVec.toNat_add, BitVec.toNat_setWidth, Bits.ofNat_add_one, BitVec.toNat_ofNat, BitVec.toNat_ofNat]
    omega
  exact freed_of_toNat (by omega) (by omega) (by omega)

theorem freed_relFlag (p : Nat) : Freed p (relFlag (BitVec.ofNat 32 p)) := by
  have h1 : (relFlag (BitVec.ofNat 32 p)).toNat = p % 2 ^ 32 + 256 := by
    rw [relFlag, BitVec.toNat_add, BitVec.toNat_setWidth, BitVec.toNat_ofNat, BitVec.toNat_ofNat]
    omega
  exact freed_of_toNat (by omega) (by omega) (by omega)

theorem Freed.eq_of_setWidth {p : Nat} {c : BitVec 32} (h : Freed p (c.setWidth 64)) :
    c = BitVec.ofNat 32 (p + 256) := by
  rw [← h.low]
  refine BitVec.eq_of_toNat_eq ?_
  rw [BitVec.toNat_setWidth, BitVec.toNat_setWidth]
  have := c.isLt
  omega

theorem atPos_ne_setWidth (p c : BitVec 32) : atPos p ≠ c.setWidth 64 := by
  intro h
  have h' := congrArg BitVec.toNat h
  rw [toNat_atPos, BitVec.toNat_setWidth] at h'
  have hp := p.isLt
  have hc := c.isLt
  omega

end ThothIpc.Channel
