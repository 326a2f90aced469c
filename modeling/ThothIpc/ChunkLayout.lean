import ThothIpc.Lib.Region
import ThothIpc.Message.Receive

/-!
# The layout of the chunk storage

`chunk_storage.rs`, `msg_layout.h` and `chunk.zig`: the shared memory for chunks of one size has the id pool, 40 bytes,
and then the chunks. A chunk is the word with its readers, padded to the header, and the payload.

* `Rust.calcChunkSize`, `Cxx.calcChunkSize`, `Zig.calcChunkSize` : the chunk size for a message;
* `chunkConnsPtr`, `chunkPayloadPtr`, `shmSize` : where the parts are, from the base on;
* `chunk_windows` : the three ports agree, and the chunks are apart from each other and from the pool.
-/

namespace ThothIpc.ChunkLayout
open Regions
open Message (maxCount chunkAlign)

/-- `alignof(std::max_align_t)`, by the platform. -/
inductive MaxAlign where
  | eight
  | sixteen

def MaxAlign.log2 : MaxAlign → Nat
  | eight => 3
  | sixteen => 4

/-- `chunk_header_size` as it was generated for Rust and Zig. -/
def MaxAlign.chunkHeader : MaxAlign → Nat
  | eight => 8
  | sixteen => 16

variable (al : MaxAlign)

def Rust.calcChunkSize (size : Nat) : Nat :=
  let x := al.chunkHeader + size
  (if x % chunkAlign > 0 then x / chunkAlign + 1 else x / chunkAlign) * chunkAlign

namespace Cxx

def makeAlign (align size : Nat) : Nat := roundUp size align

def alignChunkSize (size : Nat) : Nat := ((size - 1) / chunkAlign + 1) * chunkAlign

def chunkHeaderSize : Nat := makeAlign (2 ^ al.log2) 4

def calcChunkSize (size : Nat) : Nat := makeAlign (2 ^ al.log2) (alignChunkSize (chunkHeaderSize al + size))

end Cxx

def Zig.calcChunkSize (size : Nat) : Nat := (al.chunkHeader + size + chunkAlign - 1) / chunkAlign * chunkAlign

/-- `sizeof(chunk_info_t)`. -/
def chunkInfoSize : Nat := 40

def shmSize (chunkSize : Nat) : Nat := chunkInfoSize + maxCount * chunkSize

def chunkConnsPtr (base chunkSize id : Nat) : Nat := base + chunkInfoSize + chunkSize * id

def chunkPayloadPtr (base chunkSize id : Nat) : Nat := base + chunkInfoSize + chunkSize * id + al.chunkHeader

/-- `chunk_info_t::at`. -/
def Cxx.at (base chunkSize : Nat) (id : Int) : Option Nat :=
  if id < 0 then none else some (base + chunkInfoSize + chunkSize * id.toNat)

/-- From the header word to the last byte of a payload of `size` bytes. -/
def window (base chunkSize size id : Nat) : Region :=
  ⟨chunkConnsPtr base chunkSize id, chunkPayloadPtr al base chunkSize id + size - chunkConnsPtr base chunkSize id⟩

/-! ## Sizes -/

theorem zig_eq (size : Nat) : Zig.calcChunkSize al size = Rust.calcChunkSize al size := by
  unfold Zig.calcChunkSize Rust.calcChunkSize
  dsimp only
  split <;> simp only [chunkAlign] at * <;> omega

theorem chunkHeaderSize_eq : Cxx.chunkHeaderSize al = al.chunkHeader := by
  cases al <;> decide

theorem cxx_eq {size : Nat} (h : Rust.calcChunkSize al size < 2 ^ 64) :
    Cxx.calcChunkSize al size = Rust.calcChunkSize al size := by
  have hround : Cxx.alignChunkSize (al.chunkHeader + size) = Rust.calcChunkSize al size := by
    have hpos : 0 < al.chunkHeader := by cases al <;> decide
    simp only [← zig_eq, Cxx.alignChunkSize, Zig.calcChunkSize, chunkAlign]
    omega
  have hdvd : 1024 ∣ Rust.calcChunkSize al size := Nat.dvd_mul_left _ _
  rw [Cxx.calcChunkSize, chunkHeaderSize_eq, hround, Cxx.makeAlign]
  cases al <;> rw [roundUp_eq (by simp only [MaxAlign.log2]; omega)] <;> simp only [MaxAlign.log2] <;> omega

theorem header_add_le (size : Nat) : al.chunkHeader + size ≤ Rust.calcChunkSize al size := by
  simp only [← zig_eq, Zig.calcChunkSize, chunkAlign]
  omega

/-! ## Windows -/

theorem window_within {size cs : Nat} (base id : Nat) (h : al.chunkHeader + size ≤ cs) :
    (window al base cs size id).Within ⟨base + chunkInfoSize + cs * id, cs⟩ := by
  simp only [Region.Within, window, chunkConnsPtr, chunkPayloadPtr]
  omega

theorem chunk_apart {base cs i j : Nat} (h : i ≠ j) :
    (Region.mk (base + chunkInfoSize + cs * i) cs).Apart ⟨base + chunkInfoSize + cs * j, cs⟩ := by
  simp only [Region.Apart, Nat.add_assoc, ← Nat.mul_succ, Nat.add_le_add_iff_left]
  rcases Nat.lt_or_gt_of_ne h with h | h
  · exact Or.inl (Nat.mul_le_mul_left cs h)
  · exact Or.inr (Nat.mul_le_mul_left cs h)

/-- **Chunks do not overlap.** The chunk size is the same in the three ports, aligned, with room for header and message;
the 32 windows are behind the pool, within the memory, and apart. -/
theorem chunk_windows {a : Nat} (h : Rust.calcChunkSize al a < 2 ^ 64) :
    Cxx.calcChunkSize al a = Rust.calcChunkSize al a ∧ Zig.calcChunkSize al a = Rust.calcChunkSize al a ∧
    chunkAlign ∣ Rust.calcChunkSize al a ∧ al.chunkHeader + a ≤ Rust.calcChunkSize al a ∧
    ∀ base b, Rust.calcChunkSize al b = Rust.calcChunkSize al a →
      (∀ i : Fin maxCount,
        (window al base (Rust.calcChunkSize al b) b i).Apart ⟨base, chunkInfoSize⟩ ∧
        (window al base (Rust.calcChunkSize al b) b i).Within ⟨base, shmSize (Rust.calcChunkSize al a)⟩ ∧
        Cxx.at base (Cxx.calcChunkSize al a) i = some (window al base (Rust.calcChunkSize al b) b i).start ∧
        chunkPayloadPtr al base (Rust.calcChunkSize al b) i = chunkPayloadPtr al base (Rust.calcChunkSize al a) i) ∧
      ∀ i j : Fin maxCount, i ≠ j →
        (window al base (Rust.calcChunkSize al a) a i).Apart (window al base (Rust.calcChunkSize al b) b j) := by
  refine ⟨cxx_eq al h, zig_eq al a, Nat.dvd_mul_left _ _, header_add_le al a, fun base b hb => ⟨fun i => ?_, ?_⟩⟩
  · have hin := window_within al base i (hb ▸ header_add_le al b)
    rw [cxx_eq al h, hb]
    refine ⟨Or.inr ?_, ⟨?_, hin.2.trans ?_⟩, ?_, rfl⟩
    · exact (Nat.le_add_right _ _).trans hin.1
    · exact (Nat.le_add_right _ _).trans ((Nat.le_add_right _ _).trans hin.1)
    · dsimp only [shmSize]
      have := Nat.mul_le_mul_left (Rust.calcChunkSize al a) i.isLt
      rw [Nat.mul_succ] at this
      rw [Nat.mul_comm maxCount]
      omega
    · exact if_neg (by omega)
  · intro i j hij
    rw [hb]
    exact (chunk_apart (Fin.val_ne_of_ne hij)).within (window_within al base i (header_add_le al a))
      (window_within al base j (hb ▸ header_add_le al b))

theorem chunk_windows_kilo : Cxx.calcChunkSize .sixteen 1008 = 1024 :=
  (chunk_windows .sixteen (a := 1008) (by decide)).1.trans (by decide)

end ThothIpc.ChunkLayout
