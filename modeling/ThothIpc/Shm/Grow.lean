import ThothIpc.Shm.Model

/-!
# Growing shared memory

Any number of handles of one name are acquired, grown, written through and dropped, each operation as a whole. The
counter of a handle stands at the end of its own mapping, so handles of different sizes use different counters.

* `State`, `State.step` : the handles and the store;
* `even` : an operation that succeeds leaves all live handles with one mapped size;
* `grow_counts` : under `even` the name is unlinked exactly when the last handle is dropped.
-/

namespace ThothIpc.Shm.Grow
open Steps

structure State (η : Type) where
  store : Store
  handles : η → Option Handle

/-- The operations; `write` is a write of the user to a word of the handle's region. -/
inductive Act (η : Type) where
  | acquire (h : η) (userSize : Nat) (mode : Mode) (fault : Option Call)
  | grow (h : η) (newUserSize : Nat) (fault : Option Call)
  | drop (h : η)
  | write (h : η) (i : Nat) (v : BitVec 32)
  deriving DecidableEq, Repr

variable {η : Type}

section Step

variable [DecidableEq η]

def State.set (s : State η) (store : Store) (h : η) (g : Option Handle) : State η :=
    ⟨store, Function.update s.handles h g⟩

def State.step (P : Platform) (s : State η) : Act η → Option (State η)
  | .acquire h userSize mode fault =>
    match s.handles h with
    | none => let r := acquire P s.store userSize mode fault; some (s.set r.1 h r.2.toOption)
    | some _ => none
  | .grow h newUserSize fault =>
    match s.handles h with
    | none => none
    | some g =>
      match grow P s.store g newUserSize fault with
      | (st, .ok g') => some (s.set st h (some g'))
      | (st, .error _) => some { s with store := st }
  | .drop h =>
    match s.handles h with
    | none => none
    | some g => some (s.set (release s.store g) h none)
  | .write h i v =>
    match s.handles h with
    | none => none
    | some g => if 4 * i < g.userSize then some { s with store := s.store.setWord g.obj i v } else none

end Step

/-- A handle that is acquired has the mapped size of every other, one that grows is the only one, no size wraps, and
there are less than `i32::MAX` handles. -/
def even (P : Platform) (s : State η) : Act η → Prop
  | .acquire _ userSize mode fault => (acquire P s.store userSize mode fault).2.toOption.isSome → Fits userSize ∧
      ∀ k g, s.handles k = some g → g.size = calcSize userSize ∧ s.store.word g.obj (accOf g.size) ≠ 0x7fffffff
  | .grow h newUserSize fault => ∀ g, s.handles h = some g → g.userSize < newUserSize →
      (grow P s.store g newUserSize fault).2.toOption.isSome → Fits newUserSize ∧
        (g.size = calcSize newUserSize ∨ ∀ k, k ≠ h → s.handles k = none)
  | .drop _ => True
  | .write _ _ _ => True

/-! ## The invariant -/

/-- All handles map the object that the name is bound to, with one size; the counter of that size is their number, and
nothing is stored behind it. -/
structure Inv (s : State η) : Prop where
  bound : ∀ h g, s.handles h = some g → s.store.name = some g.obj
  room : ∀ h g, s.handles h = some g → 0 < g.userSize ∧ Fits g.userSize ∧ g.size = calcSize g.userSize
  same : ∀ h g k g', s.handles h = some g → s.handles k = some g' → g.size = g'.size
  count : ∃ L : Finset η, (∀ h, h ∈ L ↔ s.handles h ≠ none) ∧ L.card < 2 ^ 31 ∧
    ∀ h g, s.handles h = some g → s.store.word g.obj (accOf g.size) = BitVec.ofNat 32 L.card
  blank : ∀ o, s.store.name = some o → ∀ j, (∀ h g, s.handles h = some g → accOf g.size < j) → s.store.word o j = 0

namespace Inv

variable {s : State η} {st : Store}

theorem store (h : Inv s) (hs : s.store.Same st) : Inv { s with store := st } := by
  refine ⟨?_, h.room, h.same, ?_, ?_⟩
  · intro k g hk
    exact hs.name.trans (h.bound k g hk)
  · obtain ⟨L, hL, hc, hw⟩ := h.count
    exact ⟨L, hL, hc, fun k g hk => (hs.word _ _).trans (hw k g hk)⟩
  · intro o ho j hj
    rw [hs.word]
    exact h.blank o (hs.name.symm.trans ho) j hj

theorem opens {mode : Mode} (h : Inv s) (hs : Opens s.store st mode) : Inv { s with store := st } := by
  cases hs with
  | same hs => exact h.store hs
  | new hm hn hs hx hw =>
    have hnone : ∀ k g, s.handles k ≠ some g := fun k g hk => absurd (hn.symm.trans (h.bound k g hk)) nofun
    refine ⟨?_, h.room, h.same, ?_, ?_⟩
    · exact fun k g hk => absurd hk (hnone k g)
    · obtain ⟨L, hL, hc, -⟩ := h.count
      exact ⟨L, hL, hc, fun k g hk => absurd hk (hnone k g)⟩
    · intro o ho j _
      obtain rfl := Option.some.inj (hs.symm.trans ho)
      rw [hw, if_pos rfl]

theorem counter (h : Inv s) {o n : Nat} (ho : s.store.name = some o)
    (hn : ∀ k g, s.handles k = some g → g.size = n ∧ s.store.word g.obj (accOf g.size) ≠ 0x7fffffff) :
    ∃ L : Finset η, (∀ h, h ∈ L ↔ s.handles h ≠ none) ∧ L.card + 1 < 2 ^ 31 ∧
      s.store.word o (accOf n) = BitVec.ofNat 32 L.card := by
  obtain ⟨L, hL, hc, hw⟩ := h.count
  refine ⟨L, hL, ?_⟩
  rcases L.eq_empty_or_nonempty with rfl | ⟨k, hk⟩
  · refine ⟨by norm_num, h.blank o ho _ fun k g hk => ?_⟩
    exact absurd ((hL k).mpr (by rw [hk]; exact nofun)) (Finset.notMem_empty k)
  · obtain ⟨g, hg⟩ := Option.ne_none_iff_exists'.mp ((hL k).mp hk)
    obtain ⟨hsz, hmax⟩ := hn k g hg
    have hobj : g.obj = o := Option.some.inj ((h.bound k g hg).symm.trans ho)
    have hword := hw k g hg
    rw [hword] at hmax
    rw [hsz, hobj] at hword
    refine ⟨?_, hword⟩
    by_contra hlt
    have : L.card = 2 ^ 31 - 1 := by omega
    exact hmax (by rw [this]; rfl)

theorem of_level {o n : Nat} {k : η} (ho : s.store.name = some o) (hk : s.handles k ≠ none)
    (hg : ∀ i g, s.handles i = some g → g.obj = o ∧ g.size = n ∧ 0 < g.userSize ∧ Fits g.userSize ∧
    g.size = calcSize g.userSize)
    {L : Finset η} (hL : ∀ i, i ∈ L ↔ s.handles i ≠ none) (hc : L.card < 2 ^ 31)
    (hw : s.store.word o (accOf n) = BitVec.ofNat 32 L.card) (hb : ∀ j, accOf n < j → s.store.word o j = 0) : Inv s := by
  refine ⟨?_, ?_, ?_, ⟨L, hL, hc, ?_⟩, ?_⟩
  · intro i g hi
    rw [(hg i g hi).1]
    exact ho
  · intro i g hi
    exact (hg i g hi).2.2
  · intro i g j g' hi hj
    exact (hg i g hi).2.1.trans (hg j g' hj).2.1.symm
  · intro i g hi
    obtain ⟨hobj, hsz, -⟩ := hg i g hi
    rw [hobj, hsz]
    exact hw
  · intro p hp j hj
    obtain rfl : p = o := Option.some.inj (hp.symm.trans ho)
    obtain ⟨g, hkg⟩ := Option.ne_none_iff_exists'.mp hk
    refine hb j ?_
    rw [← (hg k g hkg).2.1]
    exact hj k g hkg

theorem level (h : Inv s) {k : η} {g : Handle} (hk : s.handles k = some g) : ∀ i g', s.handles i = some g' →
    g'.obj = g.obj ∧ g'.size = g.size ∧ 0 < g'.userSize ∧ Fits g'.userSize ∧ g'.size = calcSize g'.userSize := by
  intro i g' hi
  exact ⟨Option.some.inj ((h.bound i g' hi).symm.trans (h.bound k g hk)), h.same i g' k g hi hk, h.room i g' hi⟩

theorem blank_of (h : Inv s) {k : η} {g : Handle} (hk : s.handles k = some g) {j : Nat} (hj : accOf g.size < j) :
    s.store.word g.obj j = 0 := by
  refine h.blank g.obj (h.bound k g hk) j fun i g' hi => ?_
  rw [h.same i g' k g hi hk]
  exact hj

theorem accOf_lt (h : Inv s) {k : η} {g : Handle} {i : Nat} (hk : s.handles k = some g) (hi : 4 * i < g.userSize) :
    i < accOf g.size := by
  obtain ⟨hpos, hf, hsz⟩ := h.room k g hk
  rw [hsz, hf.calcSize_eq hpos]
  unfold accOf
  omega

theorem below (h : Inv s) {k : η} {g : Handle} (hk : s.handles k = some g) (hn : st.name = s.store.name)
    (hst : ∀ j, accOf g.size ≤ j → st.word g.obj j = s.store.word g.obj j) : Inv { s with store := st } := by
  obtain ⟨L, hL, hc, hw⟩ := h.count
  refine of_level (hn.trans (h.bound k g hk)) (by rw [hk]; exact nofun) (h.level hk) hL hc ?_ ?_
  · exact (hst _ le_rfl).trans (hw k g hk)
  · intro j hj
    exact (hst j hj.le).trans (h.blank_of hk hj)

theorem written (h : Inv s) {k : η} {g : Handle} {i : Nat} {v : BitVec 32} (hk : s.handles k = some g)
    (hi : 4 * i < g.userSize) :
    Inv { s with store := s.store.setWord g.obj i v } := by
  refine h.below hk rfl fun j hj => ?_
  rw [Store.word_setWord, if_neg fun he => ((h.accOf_lt hk hi).trans_le hj).ne' he.2]

theorem zeroFilled (h : Inv s) {k : η} {g : Handle} (hk : s.handles k = some g) :
    Inv { s with store := s.store.zeroFill g.obj g.userSize } := by
  refine h.below hk rfl fun j hj => ?_
  unfold Store.zeroFill
  rw [Store.word_setObj, if_pos rfl]
  exact if_neg fun hlt => absurd (h.accOf_lt hk hlt) (not_lt.mpr hj)

variable [DecidableEq η]

theorem handles_cases {x : Option Handle} {k i : η} {g : Handle} (h : (s.set st k x).handles i = some g) :
    (i = k ∧ x = some g) ∨ (i ≠ k ∧ s.handles i = some g) := by
  simp only [State.set, Function.update_apply] at h
  split_ifs at h with hi
  · exact Or.inl ⟨hi, h⟩
  · exact Or.inr ⟨hi, h⟩

theorem handles_self {x : Option Handle} {k : η} : (s.set st k x).handles k = x := Function.update_self _ _ _

theorem mem_set {x : Option Handle} {k i : η} :
    (s.set st k x).handles i ≠ none ↔ (i = k ∧ x ≠ none) ∨ (i ≠ k ∧ s.handles i ≠ none) := by
  simp only [State.set, Function.update_apply]
  split_ifs with hi
  · simp [hi]
  · simp [hi]

theorem acquired (h : Inv s) {k : η} {o n : Nat} {v : BitVec 32} (hk : s.handles k = none) (ho : s.store.name = some o)
    (hn : 0 < n) (hf : Fits n)
    (hl : ∀ i g, s.handles i = some g → g.size = calcSize n ∧ s.store.word g.obj (accOf g.size) ≠ 0x7fffffff) :
    Inv (s.set (s.store.fetchAdd o (accOf (calcSize n)) 1) k (some ⟨o, calcSize n, n, v⟩)) := by
  obtain ⟨L, hL, hc, hw⟩ := h.counter ho hl
  have hkL : k ∉ L := fun hm => (hL k).mp hm hk
  refine of_level (L := insert k L) (n := calcSize n) (k := k) ho (by rw [handles_self]; exact nofun) ?_ ?_ ?_ ?_ ?_
  · intro i g hi
    rcases handles_cases hi with ⟨-, hg⟩ | ⟨-, hg⟩
    · obtain rfl := Option.some.inj hg
      exact ⟨rfl, rfl, hn, hf, rfl⟩
    · exact ⟨Option.some.inj ((h.bound i g hg).symm.trans ho), (hl i g hg).1, h.room i g hg⟩
  · intro i
    rw [mem_set, Finset.mem_insert, hL]
    rcases eq_or_ne i k with rfl | hi
    · simp
    · simp [hi]
  · rw [Finset.card_insert_of_notMem hkL]
    exact hc
  · show (s.store.fetchAdd o _ 1).word _ _ = _
    rw [Store.word_fetchAdd, if_pos ⟨rfl, rfl⟩, hw, Finset.card_insert_of_notMem hkL, BitVec.ofNat_add]
    rfl
  · intro j hj
    show (s.store.fetchAdd o _ 1).word _ _ = _
    rw [Store.word_fetchAdd, if_neg fun he => hj.ne' he.2]
    refine h.blank o ho j fun i g hi => ?_
    rw [(hl i g hi).1]
    exact hj

/-- A handle that grows within its mapped size, and counts on the same counter twice for a moment. -/
theorem regrown (h : Inv s) {k : η} {g : Handle} {n : Nat} {v : BitVec 32} (hk : s.handles k = some g)
    (hn : 0 < n) (hf : Fits n) (hl : g.size = calcSize n) :
    Inv (s.set ((s.store.fetchAdd g.obj (accOf (calcSize n)) 1).fetchAdd g.obj (accOf g.size) (-1)) k
      (some ⟨g.obj, calcSize n, n, v⟩)) := by
  obtain ⟨L, hL, hc, hw⟩ := h.count
  have hword : ∀ p j, ((s.store.fetchAdd g.obj (accOf (calcSize n)) 1).fetchAdd g.obj (accOf g.size) (-1)).word p j =
      s.store.word p j := by
    intro p j
    simp only [hl, Store.word_fetchAdd, true_and, if_true]
    split_ifs with he
    · rw [he.1, he.2]
      exact add_neg_cancel_right _ _
    · rfl
  refine of_level (L := L) (n := g.size) (k := k) (h.bound k g hk) (by rw [handles_self]; exact nofun) ?_ ?_ hc ?_ ?_
  · intro i g' hi
    rcases handles_cases hi with ⟨-, hg⟩ | ⟨-, hg⟩
    · obtain rfl := Option.some.inj hg
      exact ⟨rfl, hl.symm, hn, hf, rfl⟩
    · exact h.level hk i g' hg
  · intro i
    rw [mem_set, hL]
    rcases eq_or_ne i k with rfl | hi
    · simp [hk]
    · simp [hi]
  · exact (hword _ _).trans (hw k g hk)
  · intro j hj
    exact (hword _ _).trans (h.blank_of hk hj)

theorem grown (h : Inv s) {k : η} {g : Handle} {n : Nat} {v : BitVec 32} (hk : s.handles k = some g)
    (hn : g.userSize < n) (hf : Fits n) (hne : g.size ≠ calcSize n) (hl : ∀ i, i ≠ k → s.handles i = none) :
    Inv (s.set ((s.store.fetchAdd g.obj (accOf (calcSize n)) 1).fetchAdd g.obj (accOf g.size) (-1)) k
      (some ⟨g.obj, calcSize n, n, v⟩)) := by
  have hpos : 0 < n := Nat.zero_lt_of_lt hn
  have hlt : accOf g.size < accOf (calcSize n) := by
    obtain ⟨hgpos, hgf, hgsz⟩ := h.room k g hk
    have hsz : g.size = (g.userSize - 1) / 4 * 4 + 8 := hgsz.trans (hgf.calcSize_eq hgpos)
    have hnsz : calcSize n = (n - 1) / 4 * 4 + 8 := hf.calcSize_eq hpos
    unfold accOf
    omega
  refine of_level (L := {k}) (n := calcSize n) (k := k) (h.bound k g hk)
    (by rw [handles_self]; exact nofun) ?_ ?_ ?_ ?_ ?_
  · intro i g' hi
    rcases handles_cases hi with ⟨-, hg⟩ | ⟨hik, hg⟩
    · obtain rfl := Option.some.inj hg
      exact ⟨rfl, rfl, hpos, hf, rfl⟩
    · rw [hl i hik] at hg
      exact absurd hg nofun
  · intro i
    rw [mem_set, Finset.mem_singleton]
    rcases eq_or_ne i k with rfl | hi
    · simp
    · simp [hi, hl i hi]
  · rw [Finset.card_singleton]
    norm_num
  · show ((s.store.fetchAdd g.obj _ 1).fetchAdd g.obj _ (-1)).word _ _ = _
    rw [Store.word_fetchAdd, if_neg fun he => hlt.ne' he.2, Store.word_fetchAdd, if_pos ⟨rfl, rfl⟩, h.blank_of hk hlt]
    rfl
  · intro j hj
    show ((s.store.fetchAdd g.obj _ 1).fetchAdd g.obj _ (-1)).word _ _ = _
    rw [Store.word_fetchAdd, if_neg fun he => (hlt.trans hj).ne' he.2, Store.word_fetchAdd, if_neg fun he => hj.ne' he.2]
    exact h.blank_of hk (hlt.trans hj)

/-- The counter says that a handle is the last one exactly if it is. -/
theorem lastRef_iff_sole (h : Inv s) {k : η} {g : Handle} (hk : s.handles k = some g) :
    lastRef s.store g = true ↔ ∀ i, i ≠ k → s.handles i = none := by
  obtain ⟨L, hL, hc, hw⟩ := h.count
  have hkL : k ∈ L := (hL k).mpr (by rw [hk]; exact nofun)
  rw [lastRef_iff (hw k g hk) hc, Finset.card_le_one_iff]
  constructor
  · intro hone i hi
    by_contra hsome
    exact hi (hone ((hL i).mpr hsome) hkL)
  · intro hnone i j hi hj
    have hall : ∀ i, i ∈ L → i = k := fun i hi => by
      by_contra hik
      exact (hL i).mp hi (hnone i hik)
    rw [hall i hi, hall j hj]

theorem dropped (h : Inv s) {k : η} {g : Handle} (hk : s.handles k = some g) :
    Inv (s.set (release s.store g) k none) := by
  obtain ⟨L, hL, hc, hw⟩ := h.count
  have hkL : k ∈ L := (hL k).mpr (by rw [hk]; exact nofun)
  by_cases hlast : ∀ i, i ≠ k → s.handles i = none
  · -- the last handle: the name is unlinked
    have hnone : ∀ i g', (s.set (release s.store g) k none).handles i ≠ some g' := by
      intro i g' hi
      rcases handles_cases hi with ⟨-, hx⟩ | ⟨hik, hg⟩
      · exact absurd hx nofun
      · rw [hlast i hik] at hg
        exact absurd hg nofun
    refine ⟨?_, ?_, ?_, ⟨∅, ?_, by norm_num, ?_⟩, ?_⟩
    · exact fun i g' hi => absurd hi (hnone i g')
    · exact fun i g' hi => absurd hi (hnone i g')
    · exact fun i g' j g'' hi => absurd hi (hnone i g')
    · intro i
      rw [mem_set]
      rcases eq_or_ne i k with rfl | hi
      · simp
      · simp [hi, hlast i hi]
    · exact fun i g' hi => absurd hi (hnone i g')
    · intro o ho
      rw [State.set, release_name, if_pos ((h.lastRef_iff_sole hk).mpr hlast)] at ho
      exact absurd ho nofun
  · push Not at hlast
    obtain ⟨i, hik, hi⟩ := hlast
    have hnot : ¬lastRef s.store g = true := by
      rw [h.lastRef_iff_sole hk]
      exact fun hall => hi (hall i hik)
    have hname : (release s.store g).name = some g.obj := by
      rw [release_name, if_neg hnot]
      exact h.bound k g hk
    have hcard : (L.erase k).card + 1 = L.card := Finset.card_erase_add_one hkL
    refine of_level (L := L.erase k) (n := g.size) (k := i) hname (mem_set.mpr (Or.inr ⟨hik, hi⟩)) ?_ ?_ (by omega) ?_ ?_
    · intro j g' hj
      rcases handles_cases hj with ⟨-, hx⟩ | ⟨-, hg⟩
      · exact absurd hx nofun
      · exact h.level hk j g' hg
    · intro j
      rw [mem_set, Finset.mem_erase, hL]
      simp
    · show (release s.store g).word _ _ = _
      rw [release_word, Store.word_fetchAdd, if_pos ⟨rfl, rfl⟩, hw k g hk, ← hcard, BitVec.ofNat_add]
      exact add_neg_cancel_right _ _
    · intro j hj
      show (release s.store g).word _ _ = _
      rw [release_word, Store.word_fetchAdd, if_neg fun he => hj.ne' he.2]
      exact h.blank_of hk hj

theorem acquire {P : Platform} {k : η} {n : Nat} {mode : Mode} {fault : Option Call} (h : Inv s)
    (hok : even P s (.acquire k n mode fault)) (hk : s.handles k = none) :
    Inv (s.set (acquire P s.store n mode fault).1 k (acquire P s.store n mode fault).2.toOption) := by
  simp only [even] at hok
  rcases hr : Shm.acquire P s.store n mode fault with ⟨st, r⟩
  rw [hr] at hok
  obtain ⟨s₁, hopen, ⟨rfl, e, rfl⟩ | ⟨o, ho, -, hn, rfl, rfl⟩⟩ := acquire_spec hr
  · rw [show s.set _ k (Except.error e : Except Err Handle).toOption = { s with store := _ } by
      rw [State.set, Function.update_eq_self_iff.mpr hk.symm]]
    exact h.opens hopen
  · obtain ⟨hf, hl⟩ := hok rfl
    refine (h.opens hopen).acquired hk ho hn hf fun i g hi => ?_
    cases hopen with
    | same hsame => exact ⟨(hl i g hi).1, by rw [hsame.word]; exact (hl i g hi).2⟩
    | new hm hnone hs hx hw => exact absurd (hnone.symm.trans (h.bound i g hi)) nofun

theorem grow {P : Platform} {k : η} {g g' : Handle} {n : Nat} {fault : Option Call} (h : Inv s)
    (hok : even P s (.grow k n fault)) (hk : s.handles k = some g) (hr : grow P s.store g n fault = (st, .ok g')) :
    Inv (s.set st k (some g')) := by
  rcases grow_spec hr with ⟨-, rfl, he⟩ | ⟨hlt, s₁, hsame, ⟨-, e, he⟩ | ⟨o, ho, -, rfl, he⟩⟩
  · obtain rfl := Except.ok.inj he
    rw [State.set, Function.update_eq_self_iff.mpr hk.symm]
    exact h
  · exact absurd he nofun
  · obtain rfl := Except.ok.inj he
    obtain rfl : o = g.obj := Option.some.inj (ho.symm.trans (h.bound k g hk))
    obtain ⟨hf, hl⟩ := hok g hk hlt (by rw [hr]; rfl)
    by_cases hsz : g.size = calcSize n
    · exact (h.store hsame).regrown hk (Nat.zero_lt_of_lt hlt) hf hsz
    · exact (h.store hsame).grown hk hlt hf hsz (hl.resolve_left hsz)

theorem step {P : Platform} {s' : State η} {a : Act η} (h : Inv s) (hok : even P s a) (hs : s.step P a = some s') :
    Inv s' := by
  cases a with
  | acquire k n mode fault =>
    simp only [State.step] at hs
    split at hs
    case h_2 => exact absurd hs nofun
    case h_1 hk =>
      obtain rfl := Option.some.inj hs
      exact h.acquire hok hk
  | grow k n fault =>
    simp only [State.step] at hs
    split at hs
    case h_1 => exact absurd hs nofun
    case h_2 g hk =>
      split at hs
      case h_1 st g' hr =>
        obtain rfl := Option.some.inj hs
        exact h.grow hok hk hr
      case h_2 st e hr =>
        obtain rfl := Option.some.inj hs
        rcases grow_spec hr with ⟨-, -, he⟩ | ⟨-, s₁, hsame, ⟨rfl, -⟩ | ⟨o, -, -, -, he⟩⟩
        · exact absurd he nofun
        · exact h.store hsame
        · exact absurd he nofun
  | drop k =>
    simp only [State.step] at hs
    split at hs
    case h_1 => exact absurd hs nofun
    case h_2 g hk =>
      obtain rfl := Option.some.inj hs
      exact h.dropped hk
  | write k i v =>
    simp only [State.step] at hs
    split at hs
    case h_1 => exact absurd hs nofun
    case h_2 g hk =>
      split_ifs at hs with hi
      obtain rfl := Option.some.inj hs
      exact h.written hk hi

end Inv

/-! ## Runs -/

structure State.New (s : State η) : Prop where
  name : s.store.name = none
  handles : ∀ h, s.handles h = none

theorem State.New.inv {s : State η} (h : s.New) : Inv s := by
  have hnone : ∀ k g, s.handles k ≠ some g := by
    intro k g hk
    rw [h.handles] at hk
    exact absurd hk nofun
  refine ⟨?_, ?_, ?_, ⟨∅, ?_, by norm_num, ?_⟩, ?_⟩
  · exact fun k g hk => absurd hk (hnone k g)
  · exact fun k g hk => absurd hk (hnone k g)
  · exact fun k g k' g' hk => absurd hk (hnone k g)
  · simp [h.handles]
  · exact fun k g hk => absurd hk (hnone k g)
  · intro o ho
    rw [h.name] at ho
    exact absurd ho nofun

variable [DecidableEq η]

theorem name_kept {P : Platform} {s s' : State η} {a : Act η} (hs : s.step P a = some s') (ha : ∀ h, a ≠ .drop h)
    (hn : s.store.name ≠ none) : s'.store.name = s.store.name := by
  cases a with
  | acquire k n mode fault =>
    simp only [State.step] at hs
    split at hs
    case h_2 => exact absurd hs nofun
    case h_1 hk =>
      obtain rfl := Option.some.inj hs
      rcases hr : acquire P s.store n mode fault with ⟨st, r⟩
      obtain ⟨s₁, hopen, hst⟩ := acquire_spec hr
      have hs₁ : s₁.name = s.store.name := by
        cases hopen with
        | same hsame => exact hsame.name
        | new hm hnone hs hx hw => exact absurd hnone hn
      rcases hst with ⟨rfl, -⟩ | ⟨o, -, -, -, rfl, -⟩
      · exact hs₁
      · exact hs₁
  | grow k n fault =>
    simp only [State.step] at hs
    split at hs
    case h_1 => exact absurd hs nofun
    case h_2 g hk =>
      have hst : ∀ st r, grow P s.store g n fault = (st, r) → st.name = s.store.name := by
        intro st r hr
        rcases grow_spec hr with ⟨-, rfl, -⟩ | ⟨-, s₁, hsame, ⟨rfl, -⟩ | ⟨o, -, -, rfl, -⟩⟩
        · rfl
        · exact hsame.name
        · exact hsame.name
      split at hs
      case h_1 st g' hr =>
        obtain rfl := Option.some.inj hs
        exact hst st _ hr
      case h_2 st e hr =>
        obtain rfl := Option.some.inj hs
        exact hst st _ hr
  | drop k => exact absurd rfl (ha k)
  | write k i v =>
    simp only [State.step] at hs
    split at hs
    case h_1 => exact absurd hs nofun
    case h_2 g hk =>
      split_ifs at hs
      obtain rfl := Option.some.inj hs
      rfl

/-- A word below the counter that all handles have is changed by a write only. -/
theorem word_kept {P : Platform} {s s' : State η} {a : Act η} (h : Inv s) (hok : even P s a) (hs : s.step P a = some s')
    (ha : ∀ k i v, a ≠ .write k i v) {k : η} {g : Handle} (hk : s.handles k = some g) {i : Nat} (hi : i < accOf g.size) :
    s'.store.word g.obj i = s.store.word g.obj i := by
  cases a with
  | acquire k' n mode fault =>
    simp only [State.step] at hs
    split at hs
    case h_2 => exact absurd hs nofun
    case h_1 hk' =>
      obtain rfl := Option.some.inj hs
      simp only [even] at hok
      rcases hr : acquire P s.store n mode fault with ⟨st, r⟩
      rw [hr] at hok
      obtain ⟨s₁, hopen, hst⟩ := acquire_spec hr
      have hs₁ : s₁.word g.obj i = s.store.word g.obj i := by
        cases hopen with
        | same hsame => exact hsame.word _ _
        | new hm hnone hs hx hw => exact absurd (hnone.symm.trans (h.bound k g hk)) nofun
      rcases hst with ⟨rfl, -⟩ | ⟨o, -, -, -, rfl, rfl⟩
      · exact hs₁
      · have hsz : g.size = calcSize n := ((hok rfl).2 k g hk).1
        show (s₁.fetchAdd o _ 1).word g.obj i = _
        rw [Store.word_fetchAdd, if_neg fun he => hi.ne (by rw [hsz]; exact he.2)]
        exact hs₁
  | grow k' n fault =>
    simp only [State.step] at hs
    split at hs
    case h_1 => exact absurd hs nofun
    case h_2 g' hk' =>
      have hsz : g.size = g'.size := h.same k g k' g' hk hk'
      have hst : ∀ st r, grow P s.store g' n fault = (st, r) → st.word g.obj i = s.store.word g.obj i := by
        intro st r hr
        rcases grow_spec hr with ⟨-, rfl, -⟩ | ⟨hlt, s₁, hsame, ⟨rfl, -⟩ | ⟨o, -, -, rfl, rfl⟩⟩
        · rfl
        · exact hsame.word _ _
        · have hf : Fits n := (hok g' hk' hlt (by rw [hr]; rfl)).1
          obtain ⟨hpos, hf', hsz'⟩ := h.room k' g' hk'
          have hle : accOf g.size ≤ accOf (calcSize n) := by
            rw [hsz, hsz', hf'.calcSize_eq hpos, hf.calcSize_eq (hpos.trans hlt)]
            unfold accOf
            omega
          rw [Store.word_fetchAdd, if_neg fun he => hi.ne (by rw [hsz]; exact he.2), Store.word_fetchAdd,
            if_neg fun he => (hi.trans_le hle).ne he.2]
          exact hsame.word _ _
      split at hs
      case h_1 st g' hr =>
        obtain rfl := Option.some.inj hs
        exact hst st _ hr
      case h_2 st e hr =>
        obtain rfl := Option.some.inj hs
        exact hst st _ hr
  | drop k' =>
    simp only [State.step] at hs
    split at hs
    case h_1 => exact absurd hs nofun
    case h_2 g' hk' =>
      obtain rfl := Option.some.inj hs
      have hsz : g.size = g'.size := h.same k g k' g' hk hk'
      show (release s.store g').word g.obj i = _
      rw [release_word, Store.word_fetchAdd, if_neg fun he => hi.ne (by rw [hsz]; exact he.2)]
  | write k' j v => exact absurd rfl (ha k' j v)

/-- **Growing keeps the reference count right.** While a handle is live the name is bound to its object; a drop unbinds
it exactly if no other is live; no operation changes a word of a live handle's region. -/
theorem grow_counts {P : Platform} {s₀ s : State η} {acts : List (Act η)} (h₀ : s₀.New)
    (hr : Run (State.step P) (even P) s₀ acts s) :
    (∀ h g, s.handles h = some g → s.store.name = some g.obj) ∧
      (∀ h s', s.step P (.drop h) = some s' → (s'.store.name = none ↔ ∀ k, k ≠ h → s.handles k = none)) ∧
      (∀ a s', s.step P a = some s' → (∀ h, a ≠ .drop h) → s.store.name ≠ none → s'.store.name = s.store.name) ∧
      (∀ a s', even P s a → s.step P a = some s' → (∀ h i v, a ≠ .write h i v) →
        ∀ k g, s.handles k = some g → ∀ i, 4 * i < g.userSize → s'.store.word g.obj i = s.store.word g.obj i) ∧
      ∀ h g k g', s.handles h = some g → s.handles k = some g' → g.obj = g'.obj ∧ g.userSize ≤ 4 * accOf g'.size := by
  have hinv : Inv s := hr.inv Inv h₀.inv fun _ _ _ hu hok hst => hu.step hok hst
  refine ⟨hinv.bound, ?_, ?_, ?_, ?_⟩
  · intro k s' hs
    simp only [State.step] at hs
    split at hs
    case h_1 => exact absurd hs nofun
    case h_2 g hk =>
      obtain rfl := Option.some.inj hs
      rw [← hinv.lastRef_iff_sole hk]
      show (release s.store g).name = none ↔ _
      rw [release_name, hinv.bound k g hk]
      split_ifs with hl
      · simp [hl]
      · simp [hl]
  · exact fun a s' hs ha hn => name_kept hs ha hn
  · exact fun a s' hok hs ha k g hk i hi => word_kept hinv hok hs ha hk (hinv.accOf_lt hk hi)
  · intro k g k' g' hk hk'
    refine ⟨(hinv.level hk' k g hk).1, ?_⟩
    obtain ⟨hpos, hf, hsz⟩ := hinv.room k g hk
    rw [← hinv.same k g k' g' hk hk', hsz, hf.calcSize_eq hpos]
    unfold accOf
    omega

instance [Fintype η] (P : Platform) (s : State η) (a : Act η) : Decidable (even P s a) := by
  unfold even
  split <;> infer_instance

/-- No object, and two handles to be. -/
def fresh : State (Fin 2) := ⟨⟨none, fun _ => ⟨0, fun _ => 0⟩, 0⟩, fun _ => none⟩

theorem fresh_new : fresh.New := ⟨rfl, fun _ => rfl⟩

/-- The only handle grows, another is acquired with the new size, and the first is dropped: the name stays bound until
the second is dropped. -/
theorem grow_counts_sole : ∃ s, Run (State.step linux) (even linux) fresh
    [.acquire 0 4 .createOrOpen none, .write 0 0 7, .grow 0 12 none, .acquire 1 12 .createOrOpen none, .drop 0] s ∧
      s.handles 1 = some ⟨0, 16, 12, 1⟩ ∧ s.store.name = some 0 ∧
      ∀ s', s.step linux (.drop 1) = some s' → s'.store.name = none := by
  refine exists_run_imp (fun s => s.handles 0 = none ∧ s.handles 1 = some ⟨0, 16, 12, 1⟩) (by decide +kernel)
    fun s hrun hx => ?_
  obtain ⟨h0, h1⟩ := hx
  obtain ⟨hname, hdrop, -⟩ := grow_counts fresh_new hrun
  refine ⟨h1, hname 1 _ h1, fun s' hs => (hdrop 1 s' hs).mpr fun k hk => ?_⟩
  obtain rfl : k = 0 := by omega
  exact h0

/-- **Handles of different sizes use different counters.** Handle 0 grows, handle 1 does not. Its counter, in the region
of handle 0, says that it is the last. -/
theorem unlinked_while_grown : ∃ s s', Run (State.step linux) (fun _ _ => True) fresh
    [.acquire 0 4 .createOrOpen none, .acquire 1 4 .createOrOpen none, .grow 0 12 none] s ∧
      s.step linux (.drop 1) = some s' ∧ s.handles 0 = some ⟨0, 16, 12, 0⟩ ∧ s'.handles 0 = some ⟨0, 16, 12, 0⟩ ∧
      s.store.word 0 1 = 1 ∧ s'.store.word 0 1 = 0 ∧ s'.store.name = none := by
  obtain ⟨s, hrun, hx⟩ := exists_run (State.step linux) (fun _ _ => True) fresh
    [.acquire 0 4 .createOrOpen none, .acquire 1 4 .createOrOpen none, .grow 0 12 none]
    (fun s => (decide (s.handles 0 = some ⟨0, 16, 12, 0⟩ ∧ s.store.word 0 1 = 1),
      (s.step linux (.drop 1)).map fun (t : State (Fin 2)) =>
        decide (t.handles 0 = some ⟨0, 16, 12, 0⟩ ∧ t.store.word 0 1 = 0 ∧ t.store.name = none)))
    (x := (true, some true)) (by decide +kernel)
  simp only [Prod.mk.injEq, Option.map_eq_some_iff, decide_eq_true_eq] at hx
  obtain ⟨⟨h0, hw⟩, s', hs', h0', hw', hn⟩ := hx
  exact ⟨s, s', hrun, hs', h0, h0', hw, hw', hn⟩

end ThothIpc.Shm.Grow
