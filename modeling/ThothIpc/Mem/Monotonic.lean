import ThothIpc.Lib.Region
import ThothIpc.Lib.Run

/-!
# The monotonic buffer resource

`monotonic_buffer_resource.cpp`: memory is cut off a buffer from its front on. When it does not suffice, a node comes
from the upstream resource, with a header of 16 bytes, and `release` returns all nodes.

* `State.allocate`, `State.release`, with the answer of the upstream resource given;
* `sound` : the upstream resource answers with null or with memory in steps of 16 bytes that is not in use;
* `Inv` : the results are cut out of the initial buffer and the bodies of the nodes;
* `monotonic_safe` : results are aligned and disjoint, and every node is returned once.

Addresses and sizes are natural numbers, as no sum of them overflows; null is 0.
-/

namespace ThothIpc.Mem.Monotonic
open Regions Steps

/-- How a resource is made: with the size of its first node, or with a buffer. -/
inductive Init where
  | size (n : Nat)
  | buffer (b : Region) (null : b.start = 0 → b.size = 0)

def Init.initialBuffer : Init → Nat
  | size _ => 0
  | buffer b _ => b.start

def Init.initialSize : Init → Nat
  | size n => n
  | buffer b _ => b.size

structure State where
  freeList : List Region
  head : Nat
  tail : Nat
  nextSize : Nat
  /-- What was allocated since the last `release`. -/
  results : List Region
  /-- The calls of the upstream resource. -/
  taken : List Region
  returned : List Region

def nextBufferSize (size : Nat) : Nat := size * 3 % 2 ^ 64 / 2

def State.start : Init → State
  | .size n => ⟨[], 0, 0, n, [], [], []⟩
  | .buffer b _ => ⟨[], b.start, b.start + b.size, nextBufferSize b.size, [], [], []⟩

def sizeofNode : Nat := 16

/-- `std::align`: the first aligned address, and what is left from there on. -/
def align (alignment bytes p s : Nat) : Option (Nat × Nat) :=
  let pad := (alignment - p % alignment) % alignment
  if s < pad + bytes then none else some (p + pad, s - pad)

namespace State

def release (init : Init) (s : State) : State :=
  let s := { s with freeList := [], returned := s.returned ++ s.freeList, results := [], head := init.initialBuffer }
  if s.head ≠ 0 then
    { s with tail := s.head + init.initialSize, nextSize := nextBufferSize init.initialSize }
  else { s with tail := 0, nextSize := init.initialSize }

/-- The node that `make_node` asks for, at address `a`. -/
def node (s : State) (bytes alignment a : Nat) : Region :=
  ⟨a, roundUp sizeofNode alignment + max s.nextSize bytes⟩

def give (s : State) (p bytes : Nat) : State × Option Nat :=
  ({ s with head := p + bytes, results := ⟨p, bytes⟩ :: s.results }, some p)

def allocate (s : State) (bytes alignment : Nat) (upstream : Option Nat) : State × Option Nat :=
  if bytes = 0 then (s, none)
  else
    match align alignment bytes s.head (s.tail - s.head) with
    | some (p, _) => s.give p bytes
    | none =>
      match upstream with
      | none => ({ s with nextSize := max s.nextSize bytes }, none)
      | some a =>
        let n := s.node bytes alignment a
        let s := { s with
          freeList := n :: s.freeList
          taken := n :: s.taken
          nextSize := nextBufferSize (max s.nextSize bytes) }
        match align alignment bytes (a + sizeofNode) (n.size - sizeofNode) with
        | none => (s, none)
        | some (p, left) => { s with tail := p + left }.give p bytes

end State

inductive Act where
  | allocate (bytes alignment : Nat) (upstream : Option Nat)
  | release

def State.step (init : Init) (s : State) : Act → Option State
  | .allocate bytes alignment upstream => some (s.allocate bytes alignment upstream).1
  | .release => some (s.release init)

/-- The initial buffer, if there is one. -/
def Init.blocks (init : Init) : List Region :=
  if init.initialBuffer = 0 then [] else [⟨init.initialBuffer, init.initialSize⟩]

/-- The alignment is a power of two, and the upstream resource gives memory that is not in use. -/
def sound (init : Init) (s : State) : Act → Prop
  | .allocate bytes alignment upstream => (∃ k < 64, alignment = 2 ^ k) ∧
      ∀ a, upstream = some a → 16 ∣ a ∧ ∀ b ∈ s.freeList ++ init.blocks, (s.node bytes alignment a).Apart b
  | .release => True

/-- A node after its header. -/
def body (n : Region) : Region := ⟨n.start + sizeofNode, n.size - sizeofNode⟩

def State.blocks (init : Init) (s : State) : List Region := s.freeList.map body ++ init.blocks

/-! ## Alignment -/

theorem align_some {alignment bytes p s q left : Nat} (ha : 0 < alignment)
    (h : align alignment bytes p s = some (q, left)) :
    p ≤ q ∧ alignment ∣ q ∧ q + left = p + s ∧ bytes ≤ left := by
  simp only [align] at h
  split at h <;> cases h
  rename_i hfit
  have hlt := Nat.mod_lt p ha
  have hdvd : alignment ∣ p + (alignment - p % alignment) % alignment := by
    rw [Nat.dvd_iff_mod_eq_zero, Nat.add_mod_mod, ← Nat.add_sub_assoc hlt.le, Nat.add_comm,
      Nat.add_sub_assoc (Nat.mod_le p alignment), Nat.add_mod_left, ← Nat.dvd_iff_mod_eq_zero]
    exact Nat.dvd_sub_mod p
  exact ⟨Nat.le_add_right _ _, hdvd, by omega, by omega⟩

theorem align_none {alignment bytes p s : Nat} (h : align alignment bytes p s = none) :
    s < (alignment - p % alignment) % alignment + bytes := by
  by_contra hfit
  rw [align, if_neg hfit] at h
  cases h

/-- The padding in a new node has room in its header, which is rounded up for it. -/
theorem pad_le {a k : Nat} (ha : 16 ∣ a) (hk : k < 64) :
    (2 ^ k - (a + 16) % 2 ^ k) % 2 ^ k + 16 ≤ roundUp 16 (2 ^ k) := by
  have hfit : 16 + 2 ^ k ≤ 2 ^ 64 := by
    have := Nat.pow_le_pow_right (show 0 < 2 by decide) (show k ≤ 63 by omega)
    omega
  have hle := le_roundUp hfit
  rcases Nat.lt_or_ge k 5 with hlt | hge
  · -- the alignment divides 16, and no padding is needed
    have hdvd : 2 ^ k ∣ a + 16 := by
      have : 2 ^ k ∣ 16 := Nat.pow_dvd_pow 2 (show k ≤ 4 by omega)
      exact (this.trans ha).add this
    rw [Nat.mod_eq_zero_of_dvd hdvd, Nat.sub_zero, Nat.mod_self]
    omega
  · -- 16 divides the alignment, and the padding is a multiple of 16 below it
    obtain ⟨m, hm⟩ : 16 ∣ 2 ^ k := Nat.pow_dvd_pow 2 (show 4 ≤ k by omega)
    have hround : 2 ^ k ≤ roundUp 16 (2 ^ k) := Nat.le_of_dvd (by omega) (dvd_roundUp hfit)
    have hpos : 0 < 2 ^ k := Nat.two_pow_pos k
    have hpad := Nat.mod_lt (2 ^ k - (a + 16) % 2 ^ k) hpos
    have hdvd : 16 ∣ (2 ^ k - (a + 16) % 2 ^ k) % 2 ^ k := by
      have h16 : 16 ∣ 2 ^ k := ⟨m, hm⟩
      rw [Nat.dvd_mod_iff h16]
      exact Nat.dvd_sub h16 ((Nat.dvd_mod_iff h16).mpr (ha.add (dvd_refl 16)))
    omega

/-! ## The invariant -/

structure Inv (init : Init) (s : State) : Prop where
  order : s.head ≤ s.tail
  carved : Carved (s.blocks init) s.results ⟨s.head, s.tail - s.head⟩
  header : ∀ n ∈ s.freeList, sizeofNode ≤ n.size
  balance : (s.returned ++ s.freeList).Perm s.taken

namespace Inv

variable {init : Init} {s : State}

theorem fresh {rest : Region} (h : init.initialBuffer ≠ 0 → rest.Within ⟨init.initialBuffer, init.initialSize⟩)
    (h0 : init.initialBuffer = 0 → rest.size = 0) : Carved init.blocks [] rest := by
  unfold Init.blocks
  split
  · exact ⟨.nil, nofun, .nil, Or.inl (h0 ‹_›), nofun⟩
  · exact ⟨List.pairwise_singleton _ _, nofun, .nil, Or.inr ⟨_, .head _, h ‹_›⟩, nofun⟩

theorem start : Inv init (State.start init) := by
  cases init with
  | size n =>
    have hfresh : Carved (Init.size n).blocks [] ⟨0, 0⟩ := fresh (fun h => absurd rfl h) fun _ => rfl
    exact ⟨le_rfl, hfresh, nofun, .refl _⟩
  | buffer b null =>
    refine ⟨Nat.le_add_right _ _, fresh (fun _ => ⟨le_rfl, ?_⟩) fun h => ?_, nofun, .refl _⟩
    · change b.start + (b.start + b.size - b.start) ≤ b.start + b.size
      omega
    · change b.start + b.size - b.start = 0
      rw [null h, Nat.add_zero, Nat.sub_self]

theorem release (h : Inv init s) : Inv init (s.release init) := by
  unfold State.release
  dsimp only
  split
  · refine ⟨Nat.le_add_right _ _, fresh (fun _ => ⟨le_rfl, ?_⟩) fun h => absurd h ‹_›, nofun, ?_⟩
    · dsimp only
      omega
    · rw [List.append_nil]
      exact h.balance
  · rename_i h0
    rw [ne_eq, not_not] at h0
    refine ⟨h0.le, fresh (fun h => absurd h0 h) fun _ => Nat.zero_sub _, nofun, ?_⟩
    rw [List.append_nil]
    exact h.balance

theorem give {alignment bytes p l : Nat} (h : Inv init s) (ha : 0 < alignment) (hb : bytes ≠ 0)
    (hp : align alignment bytes s.head (s.tail - s.head) = some (p, l)) : Inv init (s.give p bytes).1 := by
  obtain ⟨hle, -, hend, hfit⟩ := align_some ha hp
  have horder := h.order
  refine ⟨?_, h.carved.take (Nat.pos_of_ne_zero hb) ⟨hle, ?_⟩ ⟨?_, ?_⟩ (Or.inl le_rfl), h.header, h.balance⟩
  all_goals
    dsimp only [State.give]
    omega

theorem size_node {bytes alignment a : Nat} (hs : sound init s (.allocate bytes alignment (some a))) :
    sizeofNode ≤ (s.node bytes alignment a).size := by
  obtain ⟨⟨k, hk, rfl⟩, hup⟩ := hs
  have hpad := pad_le (hup a rfl).1 hk
  change 16 ≤ roundUp 16 (2 ^ k) + _
  omega

theorem node {bytes alignment a : Nat} (h : Inv init s) (hs : sound init s (.allocate bytes alignment (some a))) :
    Inv init { s with
      freeList := s.node bytes alignment a :: s.freeList
      taken := s.node bytes alignment a :: s.taken
      nextSize := nextBufferSize (max s.nextSize bytes)
      head := a + sizeofNode
      tail := a + (s.node bytes alignment a).size } := by
  have hheader := size_node hs
  have hapart := (hs.2 a rfl).2
  have hbody : ∀ {n : Region}, sizeofNode ≤ n.size → (body n).Within n := fun hn =>
    ⟨Nat.le_add_right _ _, by dsimp only [body]; omega⟩
  refine ⟨Nat.add_le_add_left hheader a, h.carved.grow (fun c hc => ?_) ⟨le_rfl, ?_⟩, ?_, ?_⟩
  · obtain hc | hc := List.mem_append.mp hc
    · obtain ⟨n, hn, rfl⟩ := List.mem_map.mp hc
      exact (hapart n (List.mem_append_left _ hn)).within (hbody hheader) (hbody (h.header n hn))
    · exact (hapart c (List.mem_append_right _ hc)).within (hbody hheader) ⟨le_rfl, le_rfl⟩
  · dsimp only [body, State.node] at hheader ⊢
    omega
  · rintro n (_ | ⟨_, hn⟩)
    · exact hheader
    · exact h.header n hn
  · exact List.perm_middle.trans (h.balance.cons _)

/-- **A call of `allocate`**, and what it returns. -/
theorem allocate {bytes alignment : Nat} {upstream : Option Nat} (h : Inv init s)
    (hs : sound init s (.allocate bytes alignment upstream)) :
    Inv init (s.allocate bytes alignment upstream).1 ∧
      match (s.allocate bytes alignment upstream).2 with
      | some p => alignment ∣ p ∧ (s.allocate bytes alignment upstream).1.results = ⟨p, bytes⟩ :: s.results
      | none => bytes = 0 ∨ upstream = none := by
  have hpos : 0 < alignment := by
    obtain ⟨⟨k, -, rfl⟩, -⟩ := hs
    exact Nat.two_pow_pos k
  unfold State.allocate
  split
  · exact ⟨h, Or.inl ‹_›⟩
  · rename_i hb
    split
    · rename_i p left hp
      exact ⟨h.give hpos hb hp, (align_some hpos hp).2.1, rfl⟩
    · cases upstream with
      | none => exact ⟨⟨h.order, h.carved, h.header, h.balance⟩, Or.inr rfl⟩
      | some a =>
        have hn := h.node hs
        have hheader := size_node hs
        dsimp only
        split
        · rename_i hnone
          obtain ⟨⟨k, hk, rfl⟩, hup⟩ := hs
          have hpad := pad_le (hup a rfl).1 hk
          have hlt := align_none hnone
          simp only [sizeofNode, State.node] at hlt
          omega
        · rename_i p left hp
          obtain ⟨-, hdvd, hend, -⟩ := align_some hpos hp
          have hgive := hn.give (p := p) (l := left) hpos hb (by rw [Nat.add_sub_add_left]; exact hp)
          rw [show p + left = a + (s.node bytes alignment a).size by omega]
          exact ⟨hgive, hdvd, rfl⟩

theorem step {a : Act} {t : State} (h : Inv init s) (hs : sound init s a) (hst : s.step init a = some t) :
    Inv init t := by
  cases a with
  | allocate bytes alignment upstream =>
    cases hst
    exact (h.allocate hs).1
  | release =>
    cases hst
    exact h.release

end Inv

/-- **The monotonic buffer resource.** The results since the last `release` are in the initial buffer or one node, and
apart; the next one is aligned, and null only for size 0 or without a node; `release` returns every node once. -/
theorem monotonic_safe {init : Init} {acts : List Act} {s : State}
    (h : Run (State.step init) (sound init) (State.start init) acts s) :
    (∀ r ∈ s.results, ∃ b ∈ s.freeList.map body ++ init.blocks, r.Within b) ∧
    s.results.Pairwise Region.Apart ∧
    (∀ bytes alignment upstream, sound init s (.allocate bytes alignment upstream) →
      match s.allocate bytes alignment upstream with
      | (t, some p) => alignment ∣ p ∧ t.results = ⟨p, bytes⟩ :: s.results
      | (_, none) => bytes = 0 ∨ upstream = none) ∧
    (s.release init).returned.Perm (s.release init).taken := by
  have hinv := h.inv (Inv init) Inv.start fun _ _ _ hi hs hst => hi.step hs hst
  refine ⟨hinv.carved.inside, hinv.carved.disjoint, fun bytes alignment upstream hs => ?_, ?_⟩
  · have hcall := (hinv.allocate hs).2
    rcases hr : s.allocate bytes alignment upstream with ⟨t, _ | p⟩
    · rw [hr] at hcall
      exact hcall
    · rw [hr] at hcall
      exact hcall
  · have hempty : (s.release init).freeList = [] := by
      unfold State.release
      dsimp only
      split <;> rfl
    have hbalance := hinv.release.balance
    rwa [hempty, List.append_nil] at hbalance

theorem monotonic_safe_sixteen : ∃ s, Run (State.step (.size 8)) (sound (.size 8)) (State.start (.size 8))
      [.allocate 8 32 (some 16)] s ∧ s.results = [⟨32, 8⟩] ∧
    (s.release (.size 8)).returned.Perm (s.release (.size 8)).taken := by
  have hrun : Run (State.step (.size 8)) (sound (.size 8)) (State.start (.size 8)) [.allocate 8 32 (some 16)]
      ((State.start (.size 8)).allocate 8 32 (some 16)).1 := by
    refine Run.snoc .nil ⟨⟨5, by decide, rfl⟩, ?_⟩ rfl
    rintro _ ⟨⟩
    exact ⟨dvd_rfl, nofun⟩
  exact ⟨_, hrun, by decide +kernel, (monotonic_safe hrun).2.2.2⟩

end ThothIpc.Mem.Monotonic
