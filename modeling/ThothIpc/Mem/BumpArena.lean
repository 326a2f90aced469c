import ThothIpc.Lib.Region
import ThothIpc.Lib.Run

/-!
# The bump arena

`BumpArena.swift`: chunks from the system, of which the newest one is filled from its front on. The offset in the chunk
is rounded up to the alignment, not the address.

* `Chunk.tryAlloc`, `State.allocate`, `State.reset`; `none` is a trap, of an addition that overflows or a failed check;
* `sound` : the system gives memory in steps of 16 bytes that is not in use;
* `arena_safe` : results are in one chunk and disjoint, and aligned exactly if their chunk is;
* `arena_misaligned` : a result in a chunk at 16, for the alignment 32.
-/

namespace ThothIpc.Mem.BumpArena
open Regions Steps

/-- Addition of `Int`, which traps. -/
def add (x y : Nat) : Option Nat := if x + y < 2 ^ 63 then some (x + y) else none

structure Chunk where
  base : Nat
  capacity : Nat
  used : Nat
  deriving DecidableEq

/-- The chunk and the pointer, or `nil`. -/
def Chunk.tryAlloc (c : Chunk) (byteCount alignment : Nat) : Option (Option (Chunk × Nat)) := do
  let _ ← add c.used alignment
  let aligned := roundUp c.used alignment
  let used ← add aligned byteCount
  return if used ≤ c.capacity then some ({ c with used }, c.base + aligned) else none

/-- The chunks are listed from the newest one on. -/
structure State where
  chunks : List Chunk
  defaultCapacity : Nat
  /-- What was allocated since the last `reset`. -/
  results : List Region
  deriving DecidableEq

def State.init (capacity : Int) (base : Nat) : State :=
  let defaultCapacity := (max capacity 64).toNat
  ⟨[⟨base, defaultCapacity, 0⟩], defaultCapacity, []⟩

namespace State

def give (s : State) (chunks : List Chunk) (p byteCount : Nat) : State × Nat :=
  ({ s with chunks, results := ⟨p, byteCount⟩ :: s.results }, p)

/-- `base` is where the system puts a new chunk. -/
def allocate (s : State) (byteCount alignment base : Nat) : Option (State × Nat) :=
  if byteCount = 0 ∨ alignment = 0 ∨ alignment &&& (alignment - 1) ≠ 0 then none
  else
    match s.chunks with
    | [] => none
    | c :: chunks => do
      match ← c.tryAlloc byteCount alignment with
      | some (c, p) => return s.give (c :: chunks) p byteCount
      | none =>
        let least ← add byteCount alignment
        match ← (Chunk.mk base (max s.defaultCapacity least) 0).tryAlloc byteCount alignment with
        | some (fresh, p) => return s.give (fresh :: c :: chunks) p byteCount
        | none => none

/-- The first chunk is kept. -/
def reset (s : State) : State :=
  { s with chunks := s.chunks.getLast?.toList.map fun c => { c with used := 0 }, results := [] }

end State

inductive Act where
  | allocate (byteCount alignment base : Nat)
  | reset

def State.step (s : State) : Act → Option State
  | .allocate byteCount alignment base => (s.allocate byteCount alignment base).map Prod.fst
  | .reset => some s.reset

def Chunk.block (c : Chunk) : Region := ⟨c.base, c.capacity⟩

/-- Memory for a new chunk begins at a multiple of 16 and is not in use. -/
def sound (s : State) : Act → Prop
  | .allocate byteCount alignment base => 16 ∣ base ∧
      ∀ c ∈ s.chunks, (Region.mk base (max s.defaultCapacity (byteCount + alignment))).Apart c.block
  | .reset => True

/-! ## One chunk -/

theorem add_some {x y z : Nat} (h : add x y = some z) : x + y < 2 ^ 63 ∧ z = x + y := by
  unfold add at h
  split at h <;> cases h
  exact ⟨‹_›, rfl⟩

theorem Chunk.tryAlloc_some {c c' : Chunk} {n k p : Nat} (h : c.tryAlloc n (2 ^ k) = some (some (c', p))) :
    c'.block = c.block ∧ c.base + c.used ≤ p ∧ p + n = c.base + c'.used ∧ c'.used ≤ c.capacity ∧
      (2 ^ k ∣ p ↔ 2 ^ k ∣ c.base) := by
  simp only [tryAlloc, Option.bind_eq_bind, Option.bind_eq_some_iff, Option.pure_def, Option.some.injEq] at h
  obtain ⟨_, hadd, used, hused, h⟩ := h
  have hfit := (add_some hadd).1
  have hround : c.used + 2 ^ k ≤ 2 ^ 64 := by omega
  have hle := le_roundUp hround
  obtain ⟨-, rfl⟩ := add_some hused
  split at h <;> cases h
  exact ⟨rfl, by omega, by dsimp only; omega, ‹_›, (Nat.dvd_add_iff_left (dvd_roundUp hround)).symm⟩

theorem Chunk.tryAlloc_fresh (base : Nat) {cap n k : Nat} (h : n + 2 ^ k < 2 ^ 63) (hcap : n + 2 ^ k ≤ cap) :
    ∃ r, (Chunk.mk base cap 0).tryAlloc n (2 ^ k) = some (some r) := by
  have hpos := Nat.two_pow_pos k
  have hzero : roundUp 0 (2 ^ k) = 0 := by
    rw [roundUp_eq (by omega), Nat.zero_add, Nat.div_eq_of_lt (Nat.sub_one_lt hpos.ne'), Nat.zero_mul]
  simp only [tryAlloc, add, hzero, Nat.zero_add]
  rw [if_pos (by omega), if_pos (by omega)]
  exact ⟨_, congrArg some (if_pos (by omega))⟩

theorem State.allocate_some {s t : State} {n a base p : Nat} (h : s.allocate n a base = some (t, p)) :
    n ≠ 0 ∧ (∃ k, a = 2 ^ k) ∧ ∃ c chunks c', s.chunks = c :: chunks ∧
      (c.tryAlloc n a = some (some (c', p)) ∧ t = (s.give (c' :: chunks) p n).1 ∨
        (Chunk.mk base (max s.defaultCapacity (n + a)) 0).tryAlloc n a = some (some (c', p)) ∧
          t = (s.give (c' :: c :: chunks) p n).1) := by
  unfold allocate at h
  split at h
  · cases h
  rename_i hpre
  simp only [not_or, ne_eq, not_not] at hpre
  obtain ⟨hn, ha, hand⟩ := hpre
  refine ⟨hn, (Nat.and_sub_one_eq_zero_iff_isPowerOfTwo ha).mp hand, ?_⟩
  split at h
  · cases h
  rename_i c chunks hc
  obtain ⟨r, hr, h⟩ := Option.bind_eq_some_iff.mp h
  cases r with
  | some r =>
    cases h
    exact ⟨c, chunks, _, hc, Or.inl ⟨hr, rfl⟩⟩
  | none =>
    obtain ⟨least, hleast, h⟩ := Option.bind_eq_some_iff.mp h
    obtain ⟨-, rfl⟩ := add_some hleast
    obtain ⟨r, hr, h⟩ := Option.bind_eq_some_iff.mp h
    cases r with
    | none => cases h
    | some r =>
      cases h
      exact ⟨c, chunks, _, hc, Or.inr ⟨hr, rfl⟩⟩

theorem State.allocate_fresh {s : State} {n k base : Nat} {c : Chunk} (hn : n ≠ 0) (hc : s.chunks.head? = some c)
    (hnil : c.tryAlloc n (2 ^ k) = some none) (hfit : n + 2 ^ k < 2 ^ 63) :
    ∃ r, s.allocate n (2 ^ k) base = some r := by
  have hpos := Nat.two_pow_pos k
  have hand : 2 ^ k &&& (2 ^ k - 1) = 0 := (Nat.and_sub_one_eq_zero_iff_isPowerOfTwo hpos.ne').mpr ⟨k, rfl⟩
  obtain ⟨chunks, hchunks⟩ := List.head?_eq_some_iff.mp hc
  obtain ⟨r, hr⟩ := Chunk.tryAlloc_fresh base hfit (le_max_right s.defaultCapacity _)
  unfold allocate
  rw [if_neg (by simp [hn, hand]), hchunks]
  exact ⟨_, by simp only [hnil, add, if_pos hfit, hr, Option.bind_eq_bind, Option.bind_some]; rfl⟩

/-! ## The invariant -/

/-- The newest chunk is the head of the list, and free from `used` on. -/
structure Inv (s : State) (c : Chunk) (chunks : List Chunk) : Prop where
  chunks : s.chunks = c :: chunks
  used : c.used ≤ c.capacity
  carved : Carved (s.chunks.map Chunk.block) s.results ⟨c.base + c.used, c.capacity - c.used⟩
  base : ∀ c ∈ s.chunks, 16 ∣ c.base

namespace Inv

variable {s : State} {c : Chunk} {chunks : List Chunk}

theorem single {d : Nat} (h : 16 ∣ c.base) (h0 : c.used = 0) : Inv ⟨[c], d, []⟩ c [] := by
  refine ⟨rfl, by omega, ⟨List.pairwise_singleton _ _, nofun, .nil, Or.inr ⟨_, .head _, ?_, ?_⟩, nofun⟩, ?_⟩
  · exact Nat.le_add_right _ _
  · dsimp only [Chunk.block]
    omega
  · rintro _ (_ | ⟨_, ⟨⟩⟩)
    exact h

theorem reset (h : Inv s c chunks) : ∃ c', Inv s.reset c' [] := by
  have hne : s.chunks ≠ [] := by rw [h.chunks]; exact List.cons_ne_nil _ _
  unfold State.reset
  rw [List.getLast?_eq_some_getLast hne]
  exact ⟨{ s.chunks.getLast hne with used := 0 }, single (h.base (s.chunks.getLast hne) (List.getLast_mem hne)) rfl⟩

theorem take {c' : Chunk} {n k p : Nat} (h : Inv s c chunks) (hn : n ≠ 0)
    (ht : c.tryAlloc n (2 ^ k) = some (some (c', p))) : Inv (s.give (c' :: chunks) p n).1 c' chunks := by
  obtain ⟨hblock, hle, hend, hused, -⟩ := Chunk.tryAlloc_some ht
  obtain ⟨hbase, hcap⟩ : c'.base = c.base ∧ c'.capacity = c.capacity := Region.mk.inj hblock
  have hblocks : (c' :: chunks).map Chunk.block = s.chunks.map Chunk.block := by
    rw [h.chunks, List.map_cons, List.map_cons, hblock]
  refine ⟨rfl, hcap ▸ hused, ?_, fun x hx => ?_⟩
  · change Carved ((c' :: chunks).map Chunk.block) _ _
    rw [hblocks]
    refine h.carved.take (Nat.pos_of_ne_zero hn) ⟨hle, ?_⟩ ⟨?_, ?_⟩ (Or.inl ?_)
    all_goals
      dsimp only
      omega
  · rcases hx with _ | ⟨_, hx⟩
    · rw [hbase]
      exact h.base c (by rw [h.chunks]; exact .head _)
    · exact h.base x (by rw [h.chunks]; exact .tail _ hx)

theorem fresh {base cap : Nat} (h : Inv s c chunks) (hbase : 16 ∣ base)
    (hapart : ∀ x ∈ s.chunks, (Region.mk base cap).Apart x.block) :
    Inv { s with chunks := ⟨base, cap, 0⟩ :: s.chunks } ⟨base, cap, 0⟩ s.chunks := by
  refine ⟨rfl, Nat.zero_le _, h.carved.grow (fun b hb => ?_) ⟨le_rfl, le_rfl⟩, fun x hx => ?_⟩
  · obtain ⟨x, hx, rfl⟩ := List.mem_map.mp hb
    exact hapart x hx
  · rcases hx with _ | ⟨_, hx⟩
    · exact hbase
    · exact h.base x hx

/-- **A call of `allocate`**: what it returns is in the newest chunk, and aligned as this is. -/
theorem allocate {n a base p : Nat} {t : State} (h : Inv s c chunks) (hs : sound s (.allocate n a base))
    (hst : s.allocate n a base = some (t, p)) :
    ∃ c' chunks', Inv t c' chunks' ∧ t.results = ⟨p, n⟩ :: s.results ∧ (Region.mk p n).Within c'.block ∧
      (a ∣ p ↔ a ∣ c'.base) := by
  obtain ⟨hn, ⟨k, rfl⟩, c₀, chunks₀, c', hc, hr⟩ := State.allocate_some hst
  obtain ⟨rfl, rfl⟩ := List.cons.inj (h.chunks.symm.trans hc)
  have hwithin : ∀ {x : Chunk}, x.tryAlloc n (2 ^ k) = some (some (c', p)) →
      (Region.mk p n).Within c'.block ∧ (2 ^ k ∣ p ↔ 2 ^ k ∣ c'.base) := by
    intro x hx
    obtain ⟨hblock, hle, hend, hused, hdvd⟩ := Chunk.tryAlloc_some hx
    obtain ⟨hbase, hcap⟩ := Region.mk.inj hblock
    rw [hblock, hbase]
    exact ⟨⟨by dsimp only [Chunk.block]; omega, by dsimp only [Chunk.block]; omega⟩, hdvd⟩
  obtain ⟨ht, rfl⟩ | ⟨ht, rfl⟩ := hr
  · exact ⟨c', chunks, h.take hn ht, rfl, hwithin ht⟩
  · have hf := (h.fresh hs.1 hs.2).take hn ht
    rw [hc] at hf
    exact ⟨c', c :: chunks, hf, rfl, hwithin ht⟩

theorem step {a : Act} {t : State} (h : Inv s c chunks) (hs : sound s a) (hst : s.step a = some t) :
    ∃ c' chunks', Inv t c' chunks' := by
  cases a with
  | allocate n a base =>
    obtain ⟨⟨t, p⟩, hr, rfl⟩ := Option.map_eq_some_iff.mp hst
    obtain ⟨c', chunks', h', -⟩ := h.allocate hs hr
    exact ⟨c', chunks', h'⟩
  | reset =>
    cases hst
    obtain ⟨c', h'⟩ := h.reset
    exact ⟨c', [], h'⟩

end Inv

/-- **The bump arena.** The results since the last `reset` are in one chunk each and apart. The next one is aligned
exactly if its chunk is; a call that needs a new chunk gets it, unless `byteCount + alignment` overflows. -/
theorem arena_safe {capacity : Int} {base : Nat} (hbase : 16 ∣ base) {acts : List Act} {s : State}
    (h : Run State.step sound (State.init capacity base) acts s) :
    (∀ r ∈ s.results, ∃ b ∈ s.chunks.map Chunk.block, r.Within b) ∧
    s.results.Pairwise Region.Apart ∧
    (∀ n a base t p, sound s (.allocate n a base) → s.allocate n a base = some (t, p) →
      t.results = ⟨p, n⟩ :: s.results ∧ (a ∣ 16 → a ∣ p) ∧
      ∃ c ∈ t.chunks, (Region.mk p n).Within c.block ∧ (a ∣ p ↔ a ∣ c.base)) ∧
    ∀ n a base c, n ≠ 0 → (∃ k, a = 2 ^ k) → s.chunks.head? = some c → c.tryAlloc n a = some none →
      n + a < 2 ^ 63 → ∃ r, s.allocate n a base = some r := by
  obtain ⟨c, chunks, hinv⟩ := h.inv (fun s => ∃ c chunks, Inv s c chunks) ⟨_, [], Inv.single hbase rfl⟩
    fun _ _ _ ⟨_, _, hi⟩ hs hst => hi.step hs hst
  refine ⟨hinv.carved.inside, hinv.carved.disjoint, fun n a base t p hs hst => ?_, ?_⟩
  · obtain ⟨c', chunks', h', hresults, hin, hdvd⟩ := hinv.allocate hs hst
    have hmem : c' ∈ t.chunks := by rw [h'.chunks]; exact .head _
    exact ⟨hresults, fun h16 => hdvd.mpr (h16.trans (h'.base c' hmem)), c', hmem, hin, hdvd⟩
  · rintro n _ base c' hn ⟨k, rfl⟩ hc hnil hfit
    exact State.allocate_fresh hn hc hnil hfit

theorem run_one {n a : Nat} {t : State} {p : Nat} (h : (State.init 64 16).allocate n a 96 = some (t, p)) :
    Run State.step sound (State.init 64 16) [.allocate n a 96] t := by
  refine Run.one ⟨by decide, ?_⟩ (by rw [State.step, h]; rfl)
  rintro c (_ | ⟨_, ⟨⟩⟩)
  exact Or.inr (show 16 + 64 ≤ 96 by decide)

theorem arena_safe_one : ∃ s, Run State.step sound (State.init 64 16) [.allocate 60 8 96] s ∧
    s.results = [⟨16, 60⟩] ∧ ∃ b ∈ s.chunks.map Chunk.block, (Region.mk 16 60).Within b := by
  have hrun := run_one (n := 60) (a := 8) (t := ⟨[⟨16, 64, 60⟩], 64, [⟨16, 60⟩]⟩) (p := 16) (by decide +kernel)
  exact ⟨_, hrun, rfl, (arena_safe (by decide) hrun).1 _ (.head _)⟩

/-- **A result that is not aligned**, in a chunk that begins at 16. -/
theorem arena_misaligned : ∃ t, Run State.step sound (State.init 64 16) [.allocate 1 32 96] t ∧
    (State.init 64 16).allocate 1 32 96 = some (t, 16) ∧ ¬ 32 ∣ 16 := by
  have h : (State.init 64 16).allocate 1 32 96 = some (⟨[⟨16, 64, 1⟩], 64, [⟨16, 1⟩]⟩, 16) := by decide +kernel
  exact ⟨_, run_one h, h, by decide⟩

end ThothIpc.Mem.BumpArena
