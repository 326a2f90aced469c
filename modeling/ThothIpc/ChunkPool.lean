import ThothIpc.Cpp.Pool
import ThothIpc.Lib.Run

/-!
# The chunk pool of three ports

The pool of chunk ids, byte for byte: `ChunkInfo` of `chunk_storage.rs`, `id_pool` of `utility/id_pool.h`, and the
functions of `chunk.zig` on the same bytes. And `recycle_storage`, by which the readers of a chunk give it back.

* `Pool` : the bytes `next_`, `cursor_` and `prepared_`; `Pool.view` : the pool of `Cpp.IdPool` that they stand for;
* `Port.prepare`, `Port.acquire`, `Port.release` : the operations as each port has them; an access outside of `next_`,
  which the C++ and the Zig code do not check for, is `none`;
* `free_list` : the ids that are not held form a list, and the three ports agree on every byte;
* `Rust.recycleStorage`, `Cpp.recycleStorage` : the two updates of the readers' mask;
* `recycle_agrees`, `recycle_differs` : they agree if every reader on the mask is connected.
-/

namespace ThothIpc.ChunkPool
open Function

open Message (maxCount)
open Cpp (IdPool Chain)
open Steps (Run exec exists_run exists_run_imp)

/-- `next_`, `cursor_` and `prepared_`. -/
structure Pool where
  next : Fin maxCount → BitVec 8
  cursor : BitVec 8
  prepared : BitVec 8
  deriving DecidableEq

def Pool.zero : Pool := ⟨fun _ => 0, 0, 0⟩

/-! ## The operations -/

namespace Rust

def prepare (p : Pool) : Pool :=
  let p := if p.prepared = 0 ∧ p.cursor = 0 ∧ ∀ i, p.next i = 0 then
      { p with next := fun i => BitVec.ofNat 8 (i + 1) } else p
  { p with prepared := 1 }

def acquire (p : Pool) : Int × Pool :=
  if h : p.cursor.toNat < maxCount then (p.cursor.toNat, { p with cursor := p.next ⟨p.cursor.toNat, h⟩ }) else (-1, p)

def release (p : Pool) (id : Int) : Pool :=
  if h : 0 ≤ id ∧ id.toNat < maxCount then
    { p with next := update p.next ⟨id.toNat, h.2⟩ p.cursor, cursor := BitVec.ofInt 8 id }
  else p

end Rust

namespace Cxx

/-- The loop `i = next_[i] = (i + 1)`. -/
def init (p : Pool) : Pool :=
  (List.finRange maxCount).foldl (fun p i => { p with next := update p.next i (BitVec.ofNat 8 (i + 1)) }) p

/-- `memcmp` with a pool in static storage, which is zero. -/
def invalid (p : Pool) : Bool := p = Pool.zero

def prepare (p : Pool) : Pool :=
  { if p.prepared = 0 ∧ invalid p then init p else p with prepared := 1 }

def acquire (p : Pool) : Option (Int × Pool) :=
  if p.cursor.toNat = maxCount then some (-1, p)
  else if h : p.cursor.toNat < maxCount then
    some (p.cursor.toNat, { p with cursor := p.next ⟨p.cursor.toNat, h⟩ })
  else none

def release (p : Pool) (id : Int) : Option (Bool × Pool) :=
  if id < 0 then some (false, p)
  else if h : id.toNat < maxCount then
    some (true, { p with next := update p.next ⟨id.toNat, h⟩ p.cursor, cursor := BitVec.ofInt 8 id })
  else none

end Cxx

namespace Zig

/-- `untouched`: the loop over the links is left at the first that is not 0. -/
def untouched (p : Pool) : Bool :=
  if p.prepared = 0 ∧ p.cursor = 0 then ((List.finRange maxCount).find? fun i => p.next i ≠ 0).isNone else false

def poolPrepare (p : Pool) : Pool :=
  let p := if untouched p then { p with next := fun i => BitVec.ofNat 8 (i + 1) } else p
  { p with prepared := 1 }

def poolAcquire (p : Pool) : Int × Pool :=
  if h : p.cursor.toNat < maxCount then (p.cursor.toNat, { p with cursor := p.next ⟨p.cursor.toNat, h⟩ }) else (-1, p)

def poolRelease (p : Pool) (id : Nat) : Option Pool :=
  if h : id < maxCount then
    some { p with next := update p.next ⟨id, h⟩ p.cursor, cursor := BitVec.ofNat 8 id }
  else none

end Zig

inductive Port where
  | rust
  | cpp
  | zig
  deriving DecidableEq, Repr

def Port.prepare : Port → Pool → Pool
  | .rust => Rust.prepare
  | .cpp => Cxx.prepare
  | .zig => Zig.poolPrepare

def Port.acquire : Port → Pool → Option (Int × Pool)
  | .rust => fun p => some (Rust.acquire p)
  | .cpp => Cxx.acquire
  | .zig => fun p => some (Zig.poolAcquire p)

def Port.release : Port → Pool → Int → Option Pool
  | .rust => fun p id => some (Rust.release p id)
  | .cpp => fun p id => (Cxx.release p id).map Prod.snd
  | .zig => fun p id => Zig.poolRelease p id.toNat

/-! ## Sequences of operations -/

inductive Op where
  | prepare
  | acquire
  | release (id : Int)
  deriving DecidableEq, Repr

/-- The pool, whether it was prepared, which ids are held, and the ids that were returned. -/
structure State where
  pool : Pool
  ready : Bool
  held : Fin maxCount → Bool
  out : List Int
  deriving DecidableEq

def start : State := ⟨.zero, false, fun _ => false, []⟩

/-- The ids that are held when `id` becomes held or free. -/
def mark (held : Fin maxCount → Bool) (id : Int) (b : Bool) : Fin maxCount → Bool :=
  fun i => if (i.val : Int) = id then b else held i

def Port.step (port : Port) (s : State) : Op → Option State
  | .prepare => some { s with pool := port.prepare s.pool, ready := true }
  | .acquire => (port.acquire s.pool).map fun r =>
    { s with pool := r.2, held := mark s.held r.1 true, out := s.out ++ [r.1] }
  | .release id => (port.release s.pool id).map fun p => { s with pool := p, held := mark s.held id false }

/-- There was a `prepare` before an `acquire`, and only an id that is held is released. -/
def proper (s : State) : Op → Prop
  | .prepare => True
  | .acquire => s.ready = true
  | .release id => ∃ i, id = (i.val : Int) ∧ s.held i = true

instance (s : State) : (op : Op) → Decidable (proper s op)
  | .prepare => inferInstanceAs (Decidable True)
  | .acquire => inferInstanceAs (Decidable (_ = true))
  | .release id => inferInstanceAs (Decidable (∃ i : Fin maxCount, id = (i.val : Int) ∧ s.held i = true))

/-- The pool that the bytes stand for. -/
def Pool.view (p : Pool) : IdPool :=
  ⟨fun i => if h : i < maxCount then (p.next ⟨i, h⟩).toNat else 0, p.cursor.toNat, p.prepared ≠ 0⟩

/-! ## The ports agree -/

theorem Cxx.foldl_links (l : List (Fin maxCount)) (p : Pool) :
    l.foldl (fun p i => { p with next := update p.next i (BitVec.ofNat 8 (i + 1)) }) p =
      { p with next := fun i => if i ∈ l then BitVec.ofNat 8 (i + 1) else p.next i } := by
  induction l generalizing p with
  | nil => simp
  | cons j l ih =>
    rw [List.foldl_cons, ih]
    congr 1
    funext i
    by_cases hi : i = j
    · subst hi
      simp
    · simp [hi]

theorem Cxx.init_eq (p : Pool) : Cxx.init p = { p with next := fun i => BitVec.ofNat 8 (i + 1) } := by
  rw [Cxx.init, Cxx.foldl_links]
  simp

theorem prepare_eq (port : Port) (p : Pool) : port.prepare p = Rust.prepare p := by
  cases port with
  | rust => rfl
  | cpp =>
    show Cxx.prepare p = _
    unfold Cxx.prepare Rust.prepare Cxx.invalid
    by_cases h : p = .zero
    · subst h
      rw [if_pos ⟨rfl, decide_eq_true rfl⟩, Cxx.init_eq, if_pos ⟨rfl, rfl, fun _ => rfl⟩]
    · rw [if_neg (by rintro ⟨-, h0⟩; exact h (of_decide_eq_true h0)), if_neg]
      rintro ⟨hp, hc, hn⟩
      refine h ?_
      obtain ⟨next, cursor, prepared⟩ := p
      obtain rfl : prepared = 0 := hp
      obtain rfl : cursor = 0 := hc
      obtain rfl : next = fun _ => 0 := funext hn
      rfl
  | zig =>
    show Zig.poolPrepare p = _
    unfold Zig.poolPrepare Rust.prepare Zig.untouched
    have hfind : (((List.finRange maxCount).find? fun i => p.next i ≠ 0).isNone = true) ↔ ∀ i, p.next i = 0 := by
      rw [Option.isNone_iff_eq_none, List.find?_eq_none]
      simp
    by_cases hz : p.prepared = 0 ∧ p.cursor = 0
    · rw [if_pos hz]
      by_cases hn : ∀ i, p.next i = 0
      · rw [if_pos (hfind.mpr hn), if_pos ⟨hz.1, hz.2, hn⟩]
      · rw [if_neg (fun h => hn (hfind.mp h)), if_neg (fun h => hn h.2.2)]
    · rw [if_neg hz, if_neg Bool.false_ne_true, if_neg (fun h => hz ⟨h.1, h.2.1⟩)]

theorem acquire_eq (port : Port) {p : Pool} (hp : p.cursor.toNat ≤ maxCount) :
    port.acquire p = some (Rust.acquire p) := by
  cases port with
  | rust | zig => rfl
  | cpp =>
    show Cxx.acquire p = _
    unfold Cxx.acquire Rust.acquire
    split
    · rename_i h
      rw [dif_neg (by omega)]
    · rw [dif_pos (by omega), dif_pos (by omega)]

theorem release_eq (port : Port) (p : Pool) (i : Fin maxCount) : port.release p i.val =
    some { p with next := update p.next i p.cursor, cursor := BitVec.ofNat 8 i } := by
  have hi : (i.val : Int).toNat < maxCount := i.isLt
  have hneg : ¬(i.val : Int) < 0 := by omega
  cases port with
  | rust => exact congrArg some (dif_pos ⟨Int.natCast_nonneg _, hi⟩)
  | cpp =>
    show (Cxx.release p i.val).map Prod.snd = _
    unfold Cxx.release
    rw [if_neg hneg, dif_pos hi]
    rfl
  | zig => exact dif_pos hi

/-! ## The free list -/

theorem view_prepare_zero : (Rust.prepare .zero).view = IdPool.zero.prepare := by
  rw [Rust.prepare, if_pos ⟨rfl, rfl, fun _ => rfl⟩, IdPool.prepare, if_pos (by decide)]
  show (⟨_, 0, true⟩ : IdPool) = ⟨_, 0, true⟩
  congr 1
  funext i
  show (if h : i < maxCount then (BitVec.ofNat 8 (i + 1)).toNat else 0) = if i < maxCount then i + 1 else 0
  split
  · rename_i h
    rw [BitVec.toNat_ofNat, Nat.mod_eq_of_lt (Nat.lt_of_le_of_lt h (by decide))]
  · rfl

theorem prepare_of_prepared {p : Pool} (h : p.prepared = 1) : Rust.prepare p = p := by
  have hne : p.prepared ≠ 0 := by
    rw [h]
    decide
  rw [Rust.prepare, if_neg (fun hz => hne hz.1), ← h]

theorem view_prepared {p : Pool} (h : p.prepared = 1) : p.view.prepare = p.view :=
  IdPool.prepare_of_prepared (decide_eq_true (by rw [h]; decide))

theorem view_acquire {p : Pool} (h : p.cursor.toNat < maxCount) :
    (Rust.acquire p).1 = p.cursor.toNat ∧ p.view.acquire = (some p.cursor.toNat, (Rust.acquire p).2.view) ∧
      (Rust.acquire p).2.prepared = p.prepared := by
  have hne : p.view.cursor ≠ maxCount := Nat.ne_of_lt h
  rw [Rust.acquire, dif_pos h, IdPool.acquire, if_neg hne]
  refine ⟨rfl, ?_, rfl⟩
  show (some _, (⟨_, p.view.next p.cursor.toNat, _⟩ : IdPool)) = _
  rw [show p.view.next p.cursor.toNat = (p.next ⟨p.cursor.toNat, h⟩).toNat from dif_pos h]
  rfl

theorem view_release (p : Pool) (i : Fin maxCount) :
    Pool.view { p with next := update p.next i p.cursor, cursor := BitVec.ofNat 8 i } =
      p.view.release i := by
  have hi : (BitVec.ofNat 8 i).toNat = i.val := by
    rw [BitVec.toNat_ofNat, Nat.mod_eq_of_lt (Nat.lt_trans i.isLt (by decide))]
  show (⟨_, (BitVec.ofNat 8 i).toNat, _⟩ : IdPool) = ⟨_, i, _⟩
  rw [hi]
  congr 1
  funext j
  by_cases hj : j = i.val
  · subst hj
    rw [update_self, dif_pos i.isLt]
    exact congrArg BitVec.toNat (update_self i p.cursor p.next)
  · rw [update_of_ne hj]
    show (if h : j < maxCount then _ else _) = if h : j < maxCount then _ else _
    split
    · exact congrArg BitVec.toNat (update_of_ne (fun he => hj (congrArg Fin.val he)) p.cursor p.next)
    · rfl

/-- The ids that are not held, as a property of numbers. -/
def State.Free (s : State) (id : Nat) : Prop := ∃ i : Fin maxCount, i.val = id ∧ s.held i = false

/-- Before the first `prepare` the pool is all-zero and nothing is held; from then on it has the ids that are not. -/
structure Inv (s : State) : Prop where
  fresh : s.ready = false → s.pool = .zero ∧ ∀ i, s.held i = false
  prepared : s.ready = true → s.pool.prepared = 1
  holds : s.ready = true → s.pool.view.Holds s.Free

namespace Inv

variable {s s' : State} {port : Port}

theorem start : Inv start := ⟨fun _ => ⟨rfl, fun _ => rfl⟩, nofun, nofun⟩

theorem chain (h : Inv s) (hr : s.ready = true) : ∃ l : List Nat, l.Nodup ∧
    Chain s.pool.view.next s.pool.view.cursor l ∧ ∀ i : Fin maxCount, i.val ∈ l ↔ s.held i = false := by
  obtain ⟨l, hnd, hch, hmem⟩ := (h.holds hr).chain
  rw [view_prepared (h.prepared hr)] at hch
  refine ⟨l, hnd, hch, fun i => (hmem i).trans ⟨?_, fun hf => ⟨i.isLt, i, rfl, hf⟩⟩⟩
  rintro ⟨-, j, hj, hf⟩
  rwa [Fin.ext hj] at hf

theorem prepare (h : Inv s) : Inv { s with pool := Rust.prepare s.pool, ready := true } := by
  refine ⟨nofun, fun _ => rfl, fun _ => ?_⟩
  cases hr : s.ready with
  | true =>
    rw [prepare_of_prepared (h.prepared hr)]
    exact h.holds hr
  | false =>
    obtain ⟨hz, hfree⟩ := h.fresh hr
    rw [hz, view_prepare_zero]
    exact IdPool.holds_zero.prepare.congr fun id hid => ⟨fun _ => trivial, fun _ => ⟨⟨id, hid⟩, rfl, hfree _⟩⟩

theorem acquire_some (h : Inv s) (hr : s.ready = true) (hc : s.pool.cursor.toNat < maxCount) :
    s.held ⟨s.pool.cursor.toNat, hc⟩ = false ∧ ∀ out, Inv { s with
      pool := (Rust.acquire s.pool).2, held := mark s.held s.pool.cursor.toNat true, out := out } := by
  obtain ⟨-, hview, hprep⟩ := view_acquire hc
  have hp := h.prepared hr
  have hacq : s.pool.view.prepare.acquire = _ := (congrArg IdPool.acquire (view_prepared hp)).trans hview
  obtain ⟨-, ⟨i, hi, hfree⟩, -, hholds⟩ := (h.holds hr).acquire (congrArg Prod.fst hacq)
  obtain rfl : i = ⟨s.pool.cursor.toNat, hc⟩ := Fin.ext hi
  refine ⟨hfree, fun out => ⟨fun hf => absurd (hr.symm.trans hf) nofun, fun _ => hprep.trans hp, fun _ => ?_⟩⟩
  rw [hacq] at hholds
  refine hholds.congr fun id hid => ?_
  constructor
  · rintro ⟨j, rfl, hj⟩
    simp only [mark, Int.natCast_inj] at hj
    split at hj
    · cases hj
    · exact ⟨⟨j, rfl, hj⟩, ‹_›⟩
  · rintro ⟨⟨j, rfl, hj⟩, hne⟩
    refine ⟨j, rfl, ?_⟩
    simp only [mark, Int.natCast_inj]
    rw [if_neg hne, hj]

theorem acquire_none (h : Inv s) (hr : s.ready = true) (hc : ¬s.pool.cursor.toNat < maxCount) :
    s.pool.cursor.toNat = maxCount ∧ ∀ i, s.held i = true := by
  obtain ⟨l, -, hch, hmem⟩ := h.chain hr
  cases l with
  | nil => exact ⟨hch, fun i => by simpa using (hmem i).not.mp List.not_mem_nil⟩
  | cons id l =>
    obtain ⟨hcur, hlt, -⟩ := hch
    rw [← hcur] at hlt
    exact absurd hlt hc

theorem release (h : Inv s) {i : Fin maxCount} (hi : s.held i = true) : Inv { s with
    pool := { s.pool with next := update s.pool.next i s.pool.cursor, cursor := BitVec.ofNat 8 i }
    held := mark s.held i.val false } := by
  have hr : s.ready = true := by
    by_contra hr
    rw [(h.fresh (by simpa using hr)).2 i] at hi
    cases hi
  refine ⟨fun hf => absurd (hr.symm.trans hf) nofun, fun _ => h.prepared hr, fun _ => ?_⟩
  have hnot : ¬s.Free i := by
    rintro ⟨j, hj, hf⟩
    rw [Fin.ext hj, hi] at hf
    cases hf
  rw [view_release]
  refine ((h.holds hr).release i.isLt hnot).2.congr fun id hid => ?_
  constructor
  · rintro ⟨j, rfl, hj⟩
    simp only [mark, Int.natCast_inj] at hj
    split at hj
    · exact .inr ‹_›
    · exact .inl ⟨j, rfl, hj⟩
  · rintro (⟨j, rfl, hj⟩ | rfl)
    · refine ⟨j, rfl, ?_⟩
      simp only [mark]
      split
      · rfl
      · exact hj
    · exact ⟨i, rfl, if_pos rfl⟩

theorem cursor_le (h : Inv s) (hr : s.ready = true) : s.pool.cursor.toNat ≤ maxCount := by
  by_cases hc : s.pool.cursor.toNat < maxCount
  · exact hc.le
  · exact (h.acquire_none hr hc).1.le

theorem agree (h : Inv s) {op : Op} (hok : proper s op) (port : Port) : port.step s op = Port.rust.step s op := by
  cases op with
  | prepare =>
    simp only [Port.step, prepare_eq port]
    rfl
  | acquire =>
    simp only [Port.step, acquire_eq port (h.cursor_le hok)]
    rfl
  | release id =>
    obtain ⟨i, rfl, -⟩ := hok
    simp only [Port.step, release_eq]

theorem step (h : Inv s) {op : Op} (hok : proper s op) (hst : Port.rust.step s op = some s') : Inv s' := by
  cases op with
  | prepare =>
    cases hst
    exact h.prepare
  | acquire =>
    simp only [Port.step, acquire_eq .rust (h.cursor_le hok), Option.map_some, Option.some.injEq] at hst
    subst hst
    by_cases hc : s.pool.cursor.toNat < maxCount
    · have := (h.acquire_some hok hc).2 (s.out ++ [(Rust.acquire s.pool).1])
      rwa [← (view_acquire hc).1] at this
    · rw [Rust.acquire, dif_neg hc]
      have hmark : mark s.held (-1) true = s.held := funext fun i => if_neg (by omega)
      dsimp only
      rw [hmark]
      exact ⟨h.fresh, h.prepared, h.holds⟩
  | release id =>
    obtain ⟨i, rfl, hi⟩ := hok
    simp only [Port.step, release_eq, Option.map_some, Option.some.injEq] at hst
    subst hst
    exact h.release hi

end Inv

/-- **The free list.** Once the pool is prepared, the ids that are not held are a list from `cursor_` on that ends at
32; `acquire` returns one of them, and -1 exactly if all are held. The C++ and the Zig pool come to the same bytes and
ids. -/
theorem free_list {ops : List Op} {s : State} (hrun : Run Port.rust.step proper start ops s) :
    (s.ready = true →
      (∃ l : List Nat, l.Nodup ∧ Chain s.pool.view.next s.pool.view.cursor l ∧
        ∀ i : Fin maxCount, i.val ∈ l ↔ s.held i = false) ∧
      ((Rust.acquire s.pool).1 = -1 ↔ ∀ i, s.held i = true) ∧
      ((Rust.acquire s.pool).1 ≠ -1 → ∃ i : Fin maxCount, (Rust.acquire s.pool).1 = i.val ∧ s.held i = false) ∧
      Rust.prepare s.pool = s.pool) ∧
    (s.ready = false → ∀ i, s.held i = false) ∧
    ∀ port : Port, Run port.step proper start ops s := by
  have hinv := hrun.inv Inv Inv.start fun t op u h hok hst => h.step hok hst
  refine ⟨fun hr => ?_, fun hr => (hinv.fresh hr).2, fun port => ?_⟩
  · refine ⟨hinv.chain hr, ?_⟩
    by_cases hc : s.pool.cursor.toNat < maxCount
    · have hid := (view_acquire hc).1
      have hfree := (hinv.acquire_some hr hc).1
      refine ⟨⟨fun hneg => ?_, fun hall => ?_⟩, fun _ => ⟨_, hid, hfree⟩, prepare_of_prepared (hinv.prepared hr)⟩
      · rw [hid] at hneg
        omega
      · rw [hall] at hfree
        cases hfree
    · have hid : (Rust.acquire s.pool).1 = -1 := by rw [Rust.acquire, dif_neg hc]
      exact ⟨⟨fun _ => (hinv.acquire_none hr hc).2, fun _ => hid⟩, fun hne => absurd hid hne,
        prepare_of_prepared (hinv.prepared hr)⟩
  · exact (hrun.transfer Inv Inv.start fun t op u h hok hst => ⟨(h.agree hok port).trans hst, h.step hok hst⟩).1

theorem free_list_two : ∃ s, Run Port.rust.step proper start [.prepare, .acquire, .acquire, .release 0] s ∧
    s.out = [0, 1] ∧ (∃ l : List Nat, l.Nodup ∧ Chain s.pool.view.next s.pool.view.cursor l ∧
      ∀ i : Fin maxCount, i.val ∈ l ↔ s.held i = false) ∧
    Run Port.zig.step proper start [.prepare, .acquire, .acquire, .release 0] s := by
  refine exists_run_imp (fun s => s.ready = true ∧ s.out = [0, 1]) (by decide +kernel) fun s hrun hs => ?_
  obtain ⟨hlist, -, hports⟩ := free_list hrun
  exact ⟨hs.2, (hlist hs.1).1, hports .zig⟩

/-! ## Recycling a chunk -/

/-- The mask of a chunk's readers, the pool that its id came from, and for each call whether it released the id. -/
structure Chunk where
  conns : BitVec 32
  pool : Pool
  log : List Bool
  deriving DecidableEq

/-- The mask is exchanged until that succeeds, so the update is one step; the release comes after it, under the pool's
lock. -/
def Rust.recycleStorage (id : Int) (c : Chunk) (connId : BitVec 32) : Chunk :=
  if 0 ≤ id ∧ id.toNat < maxCount then
    let nxt := c.conns &&& ~~~connId
    { conns := nxt, pool := if nxt = 0 then Rust.release c.pool id else c.pool, log := c.log ++ [decide (nxt = 0)] }
  else c

/-- `sub_rc`, for a broadcast: the new mask, and whether that was the last reader. -/
def Cxx.subRc (conns currConns connId : BitVec 32) : BitVec 32 × Bool :=
  let lastConns := currConns &&& ~~~connId
  (conns &&& lastConns, conns &&& lastConns = 0)

def Cxx.recycleStorage (id : Int) (c : Chunk) (currConns connId : BitVec 32) : Option Chunk :=
  if id < 0 then some c
  else
    let r := Cxx.subRc c.conns currConns connId
    if r.2 then (Cxx.release c.pool id).map fun p => ⟨r.1, p.2, c.log ++ [true]⟩
    else some ⟨r.1, c.pool, c.log ++ [false]⟩

/-- A call: the connections that are there, and the reader. -/
structure Call where
  currConns : BitVec 32
  connId : BitVec 32
  deriving DecidableEq, Repr

def Rust.step (i : Fin maxCount) (c : Chunk) (a : Call) : Option Chunk := some (Rust.recycleStorage i.val c a.connId)

def Cxx.step (i : Fin maxCount) (c : Chunk) (a : Call) : Option Chunk :=
  Cxx.recycleStorage i.val c a.currConns a.connId

/-- Every other reader that is still on the mask is connected. -/
def connected (c : Chunk) (a : Call) : Prop := c.conns &&& ~~~a.connId &&& ~~~a.currConns = 0

instance (c : Chunk) (a : Call) : Decidable (connected c a) := inferInstanceAs (Decidable (_ = _))

/-- The two masks are the same exactly if every other reader on the mask is connected. -/
theorem mask_eq_iff (m cur id : BitVec 32) :
    m &&& ~~~id = m &&& (cur &&& ~~~id) ↔ m &&& ~~~id &&& ~~~cur = 0 := by
  have hbool : ∀ a b c : Bool, (a && !c) = (a && (b && !c)) ↔ (a && !c && !b) = false := by decide
  rw [BitVec.eq_of_getLsbD_eq_iff, BitVec.eq_of_getLsbD_eq_iff]
  refine forall₂_congr fun i hi => ?_
  simp only [BitVec.getLsbD_and, BitVec.getLsbD_not, hi, decide_true, Bool.true_and, BitVec.ofNat_eq_ofNat,
    BitVec.getLsbD_zero]
  exact hbool ..

theorem Rust.recycleStorage_of_fin (i : Fin maxCount) (c : Chunk) (connId : BitVec 32) :
    Rust.recycleStorage i.val c connId =
      ⟨c.conns &&& ~~~connId, if c.conns &&& ~~~connId = 0 then Rust.release c.pool i.val else c.pool,
        c.log ++ [decide (c.conns &&& ~~~connId = 0)]⟩ :=
  if_pos ⟨Int.natCast_nonneg _, i.isLt⟩

theorem recycle_step {i : Fin maxCount} {c : Chunk} {a : Call} (h : connected c a) :
    Cxx.step i c a = Rust.step i c a := by
  rw [Cxx.step, Cxx.recycleStorage, if_neg (by omega), Rust.step, Rust.recycleStorage_of_fin, Cxx.subRc,
    ← (mask_eq_iff c.conns a.currConns a.connId).mpr h]
  generalize c.conns &&& ~~~a.connId = nxt
  dsimp only
  by_cases hz : nxt = 0
  · have hrel : (Cxx.release c.pool i.val).map Prod.snd = some (Rust.release c.pool i.val) :=
      (release_eq .cpp c.pool i).trans (release_eq .rust c.pool i).symm
    obtain ⟨r, hr, hpool⟩ := Option.map_eq_some_iff.mp hrel
    rw [if_pos (decide_eq_true hz), if_pos hz, decide_eq_true hz, hr, ← hpool]
    rfl
  · rw [if_neg (fun hd => hz (of_decide_eq_true hd)), if_neg hz, decide_eq_false hz]

/-- **The two ports recycle alike, as long as the readers stay connected**: if at each call every other reader on the
mask is connected, mask and pool are the same. -/
theorem recycle_agrees {i : Fin maxCount} {c t : Chunk} {calls : List Call}
    (hrun : Run (Rust.step i) connected c calls t) : Run (Cxx.step i) connected c calls t :=
  (hrun.transfer (fun _ => True) trivial fun _ _ _ _ hok hst => ⟨(recycle_step hok).trans hst, trivial⟩).1

/-- A pool that has handed out the id 0. -/
def Pool.one : Pool := (Rust.acquire (Rust.prepare .zero)).2

theorem recycle_agrees_two : ∃ t, Run (Cxx.step ⟨0, by decide⟩) connected ⟨3, .one, []⟩ [⟨3, 1⟩, ⟨3, 2⟩] t ∧
    t.conns = 0 ∧ t.log = [false, true] := by
  obtain ⟨t, hrun, ht⟩ := exists_run (Rust.step ⟨0, by decide⟩) connected ⟨3, .one, []⟩ [⟨3, 1⟩, ⟨3, 2⟩]
    (fun t => (t.conns, t.log)) (x := (0, [false, true])) (by decide +kernel)
  exact ⟨t, recycle_agrees hrun, congrArg Prod.fst ht, congrArg Prod.snd ht⟩

/-- **The mark of a reader that has gone stays.** No call by other readers takes it off in the Rust port, and none
releases the chunk. -/
theorem gone_reader_kept {i : Fin maxCount} {c t : Chunk} {calls : List Call} {b : Nat}
    (hrun : Run (Rust.step i) (fun _ a => a.connId.getLsbD b = false) c calls t) (hb : c.conns.getLsbD b = true) :
    t.conns.getLsbD b = true ∧ t.pool = c.pool := by
  refine hrun.inv (fun t => t.conns.getLsbD b = true ∧ t.pool = c.pool) ⟨hb, rfl⟩ fun t a u ht hok hst => ?_
  cases hst
  have hkeep : (t.conns &&& ~~~a.connId).getLsbD b = true := by
    rw [BitVec.getLsbD_and, BitVec.getLsbD_not, ht.1, hok]
    simpa using BitVec.lt_of_getLsbD ht.1
  rw [Rust.recycleStorage_of_fin, if_neg (by intro hz; rw [hz] at hkeep; simp at hkeep)]
  exact ⟨hkeep, ht.2⟩

/-- **The ports differ when a reader has gone.** The last connected reader recycles the chunk: the C++ port releases the
id; in the Rust port the mark of the reader that has gone is left. -/
theorem recycle_differs :
    (Cxx.recycleStorage 0 ⟨3, .one, []⟩ 1 1).map (fun c => (c.conns, c.log)) = some (0, [true]) ∧
    (Rust.recycleStorage 0 ⟨3, .one, []⟩ 1).conns = 2 ∧ (Rust.recycleStorage 0 ⟨3, .one, []⟩ 1).log = [false] ∧
    (Rust.recycleStorage 0 ⟨3, .one, []⟩ 1).pool = .one := by
  decide +kernel

end ThothIpc.ChunkPool
