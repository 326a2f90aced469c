import ThothIpc.Lib.Run

/-!
# Named shared memory

`posix.rs`: a shared memory object has a name, a size and its bytes; a handle maps the first `size` bytes of an object,
the user's region and behind it, in the last four of them, a reference counter. `acquire` creates or opens the object,
sizes or waits for it, maps it and increments the counter; dropping a handle decrements it and unlinks the name if it
was the last.

* `calcSize`, `accOf` : the layout;
* `Store` : the objects and what the name is bound to; `openExcl`, `openOld`, `ftruncate`, `unlink`, `fetchAdd` : the
  system calls and the counter updates;
* `acquire`, `grow`, `release` : the operations, each as a whole;
* `acquire_spec`, `grow_spec` : what they do to the store.

There is one name, so the checks of the name itself are left out. `usize` arithmetic wraps. Memory is a sequence of
32-bit words: the user's region starts at a word boundary and is rounded up to one.
-/

namespace ThothIpc.Shm
open Function

/-! ## Layout -/

def align : Nat := 4

/-- `calc_size`: the user's region rounded up, and a counter behind it. -/
def calcSize (userSize : Nat) : Nat :=
  let aligned := (((userSize + (2 ^ 64 - 1)) % 2 ^ 64 / align + 1) * align) % 2 ^ 64
  (aligned + 4) % 2 ^ 64

/-- `acc_of`: the word that is the counter of a mapping of `totalSize` bytes. -/
def accOf (totalSize : Nat) : Nat := (totalSize - 4) / 4

/-- The size has room for the user's region and the counter: it does not wrap. -/
def Fits (userSize : Nat) : Prop := userSize + 4 ≤ calcSize userSize

instance (n : Nat) : Decidable (Fits n) := inferInstanceAs (Decidable (_ ≤ _))

/-! ## Objects -/

structure Obj where
  size : Nat
  word : Nat → BitVec 32

/-- The objects, the next of them, and the one that the name is bound to. -/
structure Store where
  name : Option Nat
  obj : Nat → Obj
  next : Nat

/-- What the platform determines: whether an object can be resized (`can_grow`), and the size of a page. -/
structure Platform where
  canGrow : Bool
  page : Nat

def linux : Platform := ⟨true, 4096⟩

inductive Errno where
  | eexist
  | enoent
  | einval
  | other
  deriving DecidableEq, Repr

/-- How an operation fails; `bus` is an access outside the object. -/
inductive Err where
  | sizeZero
  | os (e : Errno)
  | unsupported
  | bus
  deriving DecidableEq, Repr

/-- The texts of the errors that the code makes itself. -/
def Err.text : Err → Option String
  | sizeZero => some "size is 0"
  | unsupported => some ("shared memory growth is unsupported on this platform: POSIX shm " ++
      "objects cannot be resized (XNU allows exactly one sizing ftruncate); size segments up front or chunk payloads")
  | os _ => none
  | bus => none

inductive Mode where
  | create
  | open
  | createOrOpen
  deriving DecidableEq, Repr

/-- The system calls that may fail for want of a resource. -/
inductive Call where
  | shmOpen
  | fstat
  | ftruncate
  | mmap
  deriving DecidableEq, Repr

/-- `PlatformShm`: the object that is mapped, the mapped size, the user's, and the counter before the increment. -/
structure Handle where
  obj : Nat
  size : Nat
  userSize : Nat
  prevRef : BitVec 32
  deriving DecidableEq, Repr

namespace Store

def setObj (s : Store) (o : Nat) (b : Obj) : Store := { s with obj := update s.obj o b }

def word (s : Store) (o i : Nat) : BitVec 32 := (s.obj o).word i

def setWord (s : Store) (o i : Nat) (v : BitVec 32) : Store :=
  s.setObj o { s.obj o with word := update (s.obj o).word i v }

/-- `fetch_add`, and `fetch_sub` with a negative amount. -/
def fetchAdd (s : Store) (o i : Nat) (d : BitVec 32) : Store := s.setWord o i (s.word o i + d)

/-- The first bytes of the object, in whole words, are filled with zeros. -/
def zeroFill (s : Store) (o size : Nat) : Store :=
  s.setObj o { s.obj o with word := fun i => if 4 * i < size then 0 else s.word o i }

/-- `shm_open` with `O_CREAT | O_EXCL`; a new object is empty. -/
def openExcl (s : Store) : Except Errno (Store × Nat) :=
  match s.name with
  | some _ => .error .eexist
  | none => .ok ({ s with name := some s.next, obj := update s.obj s.next ⟨0, fun _ => 0⟩, next := s.next + 1 }, s.next)

/-- `shm_open` without `O_CREAT`. -/
def openOld (s : Store) : Except Errno Nat :=
  match s.name with
  | some o => .ok o
  | none => .error .enoent

/-- `shm_unlink`; it does not matter whether the name is bound. -/
def unlink (s : Store) : Store := { s with name := none }

/-- `ftruncate`: what is cut off is lost. Where objects cannot be resized only an empty one gets a size. -/
def ftruncate (P : Platform) (s : Store) (o n : Nat) : Except Errno Store :=
  if P.canGrow ∨ (s.obj o).size = 0 then
    .ok (s.setObj o ⟨n, fun i => if (s.obj o).size ≤ n ∨ 4 * i < n then s.word o i else 0⟩)
  else .error .einval

def ftruncateToSize (P : Platform) (s : Store) (o totalSize : Nat) (fault : Option Call) : Except Errno Store :=
  if fault = some .ftruncate then .error .other
  else match s.ftruncate P o totalSize with
    | .ok s => .ok s
    | .error e => if totalSize ≤ (s.obj o).size then .ok s else .error e

/-- Whether the mapping reaches beyond the pages of the object. -/
def outside (P : Platform) (s : Store) (o totalSize : Nat) : Bool :=
  decide (((s.obj o).size + P.page - 1) / P.page * P.page < totalSize)

end Store

/-! ## The operations -/

/-- How `acquire` opens the object, and whether it has to size it. -/
def openMode (s : Store) : Mode → Except Errno (Store × Nat × Bool)
  | .create => s.openExcl.map fun r => (r.1, r.2, true)
  | .open => s.openOld.map fun o => (s, o, false)
  | .createOrOpen =>
    match s.openExcl with
    | .ok (s, o) => .ok (s, o, true)
    | .error .eexist => s.openOld.map fun o => (s, o, false)
    | .error e => .error e

/-- How `acquire` sizes the object: the creator does, and so does an opener that has waited for the size in vain. -/
def sizeMode (P : Platform) (s : Store) (o totalSize : Nat) (created : Bool) (mode : Mode) (fault : Option Call) :
    Except Errno Store :=
  if created then s.ftruncateToSize P o totalSize fault
  else if mode = .createOrOpen ∧ (s.obj o).size < totalSize then s.ftruncateToSize P o totalSize fault
  else .ok s

def mmapAndFinish (P : Platform) (s : Store) (o totalSize userSize : Nat) (fault : Option Call) :
    Store × Except Err Handle :=
  if fault = some .mmap then (s, .error (.os .other))
  else if totalSize = 0 then (s, .error (.os .einval))
  else if s.outside P o totalSize then (s, .error .bus)
  else (s.fetchAdd o (accOf totalSize) 1, .ok ⟨o, totalSize, userSize, s.word o (accOf totalSize)⟩)

/-- `acquire`; `fault` is the system call that fails, if one does. -/
def acquire (P : Platform) (s : Store) (userSize : Nat) (mode : Mode) (fault : Option Call) :
    Store × Except Err Handle :=
  if userSize = 0 then (s, .error .sizeZero)
  else if fault = some .shmOpen then (s, .error (.os .other))
  else match openMode s mode with
    | .error e => (s, .error (.os e))
    | .ok (s, o, created) =>
      match sizeMode P s o (calcSize userSize) created mode fault with
      | .error e => (s, .error (.os e))
      | .ok s => mmapAndFinish P s o (calcSize userSize) userSize fault

def lastRef (s : Store) (h : Handle) : Bool := (s.word h.obj (accOf h.size)).sle 1

/-- `release_mapping`. -/
def release (s : Store) (h : Handle) : Store :=
  let s' := s.fetchAdd h.obj (accOf h.size) (-1)
  if lastRef s h then s'.unlink else s'

/-- How `grow` sizes the object: it never shrinks it. -/
def sizeGrown (P : Platform) (s : Store) (o totalSize : Nat) (fault : Option Call) : Except Errno Store :=
  if fault = some .fstat then .error .other
  else if (s.obj o).size < totalSize then s.ftruncateToSize P o totalSize fault
  else .ok s

/-- `grow`: the object that the name is bound to is resized and mapped, and the counter moves. -/
def grow (P : Platform) (s : Store) (h : Handle) (newUserSize : Nat) (fault : Option Call) : Store × Except Err Handle :=
  if newUserSize ≤ h.userSize then (s, .ok h)
  else if P.canGrow = false then (s, .error .unsupported)
  else if fault = some .shmOpen then (s, .error (.os .other))
  else match s.openOld with
    | .error e => (s, .error (.os e))
    | .ok o =>
      match sizeGrown P s o (calcSize newUserSize) fault with
      | .error e => (s, .error (.os e))
      | .ok s =>
        match mmapAndFinish P s o (calcSize newUserSize) newUserSize fault with
        | (s, .error e) => (s, .error e)
        | (s, .ok h') => (s.fetchAdd h.obj (accOf h.size) (-1), .ok h')

/-! ## What they do to the store -/

theorem Fits.calcSize_eq {n : Nat} (h : Fits n) (hn : 0 < n) : calcSize n = (n - 1) / 4 * 4 + 8 := by
  unfold Fits calcSize align at *
  dsimp only at h ⊢
  omega

namespace Store

variable {P : Platform} {s s₁ : Store} {o i : Nat}

@[simp] theorem fetchAdd_name {d : BitVec 32} : (s.fetchAdd o i d).name = s.name := rfl

theorem word_setObj {b : Obj} (p j : Nat) : (s.setObj o b).word p j = if p = o then b.word j else s.word p j := by
  show (update s.obj o b p).word j = _
  rw [update_apply]
  split_ifs
  · rfl
  · rfl

theorem word_setWord {v : BitVec 32} (p j : Nat) :
    (s.setWord o i v).word p j = if p = o ∧ j = i then v else s.word p j := by
  unfold setWord
  rw [word_setObj]
  by_cases hp : p = o
  · subst hp
    simp only [if_true, true_and]
    exact update_apply _ _ _ _
  · rw [if_neg hp, if_neg fun h => hp h.1]

theorem word_fetchAdd {d : BitVec 32} (p j : Nat) :
    (s.fetchAdd o i d).word p j = if p = o ∧ j = i then s.word o i + d else s.word p j := word_setWord p j

/-- The two stores differ in the sizes of objects only. -/
structure Same (s s₁ : Store) : Prop where
  name : s₁.name = s.name
  next : s₁.next = s.next
  word : ∀ p j, s₁.word p j = s.word p j

theorem Same.refl (s : Store) : Same s s := ⟨rfl, rfl, fun _ _ => rfl⟩

/-- Sizing cuts off nothing. -/
def Uncut (s : Store) (o n : Nat) : Prop := (s.obj o).size ≤ n ∨ ∀ j, n ≤ 4 * j → s.word o j = 0

theorem ftruncate_same {n : Nat} (h : s.ftruncate P o n = .ok s₁) (hn : s.Uncut o n) : Same s s₁ := by
  unfold ftruncate at h
  split_ifs at h
  obtain rfl := Except.ok.inj h
  refine ⟨rfl, rfl, fun p j => ?_⟩
  rw [word_setObj]
  dsimp only
  split_ifs with hp hj
  · rw [hp]
  · push Not at hj
    rw [hp, hn.resolve_left (not_le.mpr hj.1) j hj.2]
  · rfl

theorem ftruncateToSize_same {n : Nat} {fault : Option Call} (h : s.ftruncateToSize P o n fault = .ok s₁)
    (hn : s.Uncut o n) : Same s s₁ := by
  unfold ftruncateToSize at h
  split at h
  · exact absurd h nofun
  split at h
  case h_1 hf =>
    obtain rfl := Except.ok.inj h
    exact ftruncate_same hf hn
  case h_2 =>
    split_ifs at h
    obtain rfl := Except.ok.inj h
    exact .refl s

end Store

/-- What opening and sizing do: nothing but to sizes, or a new and empty object. -/
inductive Opens (s s₁ : Store) (mode : Mode) : Prop
  | same (h : s.Same s₁)
  | new (hm : mode ≠ .open) (hn : s.name = none) (hs : s₁.name = some s.next) (hx : s₁.next = s.next + 1)
      (hw : ∀ p j, s₁.word p j = if p = s.next then 0 else s.word p j)

section Spec

variable {P : Platform} {s s₁ s' : Store} {o n : Nat} {mode : Mode} {fault : Option Call}

theorem openExcl_spec (mode : Mode) (hm : mode ≠ .open) (h : s.openExcl = .ok (s₁, o)) :
    Opens s s₁ mode ∧ s₁.name = some o ∧ (s₁.obj o).size = 0 := by
  unfold Store.openExcl at h
  split at h
  · exact absurd h nofun
  · rename_i hn
    obtain ⟨rfl, rfl⟩ := Prod.mk.inj (Except.ok.inj h)
    have hw : ∀ p j, (update s.obj s.next ⟨0, fun _ => 0⟩ p).word j = if p = s.next then 0 else s.word p j := by
      intro p j
      rw [update_apply]
      split_ifs
      · rfl
      · rfl
    refine ⟨.new hm hn rfl rfl hw, rfl, ?_⟩
    show (update s.obj s.next _ s.next).size = 0
    rw [update_self]

theorem openOld_spec (h : s.openOld = .ok o) : s.name = some o := by
  unfold Store.openOld at h
  split at h
  · rename_i hn
    rw [hn, Except.ok.inj h]
  · exact absurd h nofun

theorem openMode_spec {created : Bool} (h : openMode s mode = .ok (s₁, o, created)) :
    Opens s s₁ mode ∧ s₁.name = some o ∧ (created = true → (s₁.obj o).size = 0) := by
  unfold openMode at h
  split at h
  case h_1 =>
    rcases he : s.openExcl with e | ⟨t, p⟩
    · rw [he] at h
      exact absurd h nofun
    · rw [he] at h
      cases h
      obtain ⟨ho, hn, hz⟩ := openExcl_spec .create nofun he
      exact ⟨ho, hn, fun _ => hz⟩
  case h_2 =>
    rcases he : s.openOld with e | p
    · rw [he] at h
      exact absurd h nofun
    · rw [he] at h
      cases h
      exact ⟨.same (.refl s), openOld_spec he, nofun⟩
  case h_3 =>
    split at h
    case h_1 t p he =>
      cases h
      obtain ⟨ho, hn, hz⟩ := openExcl_spec .createOrOpen nofun he
      exact ⟨ho, hn, fun _ => hz⟩
    case h_2 =>
      rcases he : s.openOld with e | p
      · rw [he] at h
        exact absurd h nofun
      · rw [he] at h
        cases h
        exact ⟨.same (.refl s), openOld_spec he, nofun⟩
    case h_3 => exact absurd h nofun

theorem Opens.sized (h : Opens s s₁ mode) (hs : s₁.Same s') : Opens s s' mode := by
  cases h with
  | same h => exact .same ⟨hs.name.trans h.name, hs.next.trans h.next, fun p j => (hs.word p j).trans (h.word p j)⟩
  | new hm hn hx hnx hw =>
    exact .new hm hn (hs.name.trans hx) (hs.next.trans hnx) fun p j => (hs.word p j).trans (hw p j)

theorem sizeMode_same {created : Bool} (h : sizeMode P s o n created mode fault = .ok s₁)
    (hc : created = true → (s.obj o).size = 0) : s.Same s₁ := by
  unfold sizeMode at h
  split_ifs at h with hcr hm
  · exact Store.ftruncateToSize_same h (Or.inl (by rw [hc hcr]; exact Nat.zero_le n))
  · exact Store.ftruncateToSize_same h (Or.inl hm.2.le)
  · obtain rfl := Except.ok.inj h
    exact .refl s

theorem mmapAndFinish_spec {userSize : Nat} {r : Except Err Handle}
    (h : mmapAndFinish P s o n userSize fault = (s', r)) : (s' = s ∧ ∃ e, r = .error e) ∨
      (0 < n ∧ s' = s.fetchAdd o (accOf n) 1 ∧ r = .ok ⟨o, n, userSize, s.word o (accOf n)⟩) := by
  unfold mmapAndFinish at h
  split_ifs at h with hf hn hp
  · obtain ⟨rfl, rfl⟩ := Prod.mk.inj h
    exact Or.inl ⟨rfl, _, rfl⟩
  · obtain ⟨rfl, rfl⟩ := Prod.mk.inj h
    exact Or.inl ⟨rfl, _, rfl⟩
  · obtain ⟨rfl, rfl⟩ := Prod.mk.inj h
    exact Or.inl ⟨rfl, _, rfl⟩
  · obtain ⟨rfl, rfl⟩ := Prod.mk.inj h
    exact Or.inr ⟨Nat.pos_of_ne_zero hn, rfl, rfl⟩

/-- **`acquire`**: it opens or creates the object, and then fails or increments the counter. -/
theorem acquire_spec {userSize : Nat} {r : Except Err Handle} (h : acquire P s userSize mode fault = (s', r)) :
    ∃ s₁, Opens s s₁ mode ∧ ((s' = s₁ ∧ ∃ e, r = .error e) ∨ ∃ o, s₁.name = some o ∧ 0 < calcSize userSize ∧
    0 < userSize ∧ s' = s₁.fetchAdd o (accOf (calcSize userSize)) 1 ∧
      r = .ok ⟨o, calcSize userSize, userSize, s₁.word o (accOf (calcSize userSize))⟩) := by
  unfold acquire at h
  split_ifs at h with hu hf
  · obtain ⟨rfl, rfl⟩ := Prod.mk.inj h
    exact ⟨s, .same (.refl s), Or.inl ⟨rfl, _, rfl⟩⟩
  · obtain ⟨rfl, rfl⟩ := Prod.mk.inj h
    exact ⟨s, .same (.refl s), Or.inl ⟨rfl, _, rfl⟩⟩
  split at h
  case h_1 =>
    obtain ⟨rfl, rfl⟩ := Prod.mk.inj h
    exact ⟨s, .same (.refl s), Or.inl ⟨rfl, _, rfl⟩⟩
  case h_2 s₁ o created ho =>
    obtain ⟨hopen, hname, hnew⟩ := openMode_spec ho
    split at h
    case h_1 =>
      obtain ⟨rfl, rfl⟩ := Prod.mk.inj h
      exact ⟨s₁, hopen, Or.inl ⟨rfl, _, rfl⟩⟩
    case h_2 s₂ hsz =>
      have hsame : s₁.Same s₂ := sizeMode_same hsz hnew
      have hopen₂ : Opens s s₂ mode := hopen.sized hsame
      rcases mmapAndFinish_spec h with ⟨rfl, he⟩ | ⟨hn, hs', hr⟩
      · exact ⟨_, hopen₂, Or.inl ⟨rfl, he⟩⟩
      · exact ⟨s₂, hopen₂, Or.inr ⟨o, hsame.name.trans hname, hn, Nat.pos_of_ne_zero hu, hs', hr⟩⟩

/-- **`grow`**: nothing to do, or it fails, or the counter of the new size is incremented and that of the old one
decremented. -/
theorem grow_spec {g : Handle} {userSize : Nat} {r : Except Err Handle} (h : grow P s g userSize fault = (s', r)) :
    (userSize ≤ g.userSize ∧ s' = s ∧ r = .ok g) ∨ g.userSize < userSize ∧ ∃ s₁, s.Same s₁ ∧
    ((s' = s₁ ∧ ∃ e, r = .error e) ∨ ∃ o, s.name = some o ∧ 0 < calcSize userSize ∧
        s' = (s₁.fetchAdd o (accOf (calcSize userSize)) 1).fetchAdd g.obj (accOf g.size) (-1) ∧
        r = .ok ⟨o, calcSize userSize, userSize, s₁.word o (accOf (calcSize userSize))⟩) := by
  unfold grow at h
  split_ifs at h with hu hg hf
  · obtain ⟨rfl, rfl⟩ := Prod.mk.inj h
    exact Or.inl ⟨hu, rfl, rfl⟩
  · obtain ⟨rfl, rfl⟩ := Prod.mk.inj h
    exact Or.inr ⟨not_le.mp hu, s, .refl s, Or.inl ⟨rfl, _, rfl⟩⟩
  · obtain ⟨rfl, rfl⟩ := Prod.mk.inj h
    exact Or.inr ⟨not_le.mp hu, s, .refl s, Or.inl ⟨rfl, _, rfl⟩⟩
  refine Or.inr ⟨not_le.mp hu, ?_⟩
  split at h
  case h_1 =>
    obtain ⟨rfl, rfl⟩ := Prod.mk.inj h
    exact ⟨s, .refl s, Or.inl ⟨rfl, _, rfl⟩⟩
  case h_2 o ho =>
    have hname : s.name = some o := openOld_spec ho
    split at h
    case h_1 =>
      obtain ⟨rfl, rfl⟩ := Prod.mk.inj h
      exact ⟨s, .refl s, Or.inl ⟨rfl, _, rfl⟩⟩
    case h_2 s₁ hsz =>
      have hsame : s.Same s₁ := by
        unfold sizeGrown at hsz
        split_ifs at hsz with hfs hlt
        · exact Store.ftruncateToSize_same hsz (Or.inl hlt.le)
        · obtain rfl := Except.ok.inj hsz
          exact .refl s
      refine ⟨s₁, hsame, ?_⟩
      split at h
      case h_1 s₂ e hm =>
        obtain ⟨rfl, rfl⟩ := Prod.mk.inj h
        rcases mmapAndFinish_spec hm with ⟨hs, -⟩ | ⟨-, -, hr⟩
        · exact Or.inl ⟨hs, _, rfl⟩
        · exact absurd hr nofun
      case h_2 s₂ g' hm =>
        obtain ⟨rfl, rfl⟩ := Prod.mk.inj h
        rcases mmapAndFinish_spec hm with ⟨-, e, hr⟩ | ⟨hn, rfl, hr⟩
        · exact absurd hr nofun
        · exact Or.inr ⟨o, hname, hn, rfl, hr⟩

theorem lastRef_iff {g : Handle} {n : Nat} (hw : s.word g.obj (accOf g.size) = BitVec.ofNat 32 n) (hn : n < 2 ^ 31) :
    lastRef s g = true ↔ n ≤ 1 := by
  unfold lastRef
  rw [hw, BitVec.sle_iff_toInt_le, BitVec.toInt_ofNat', show (1 : BitVec 32).toInt = 1 from rfl]
  rw [Int.bmod_eq_of_le (by omega) (by omega)]
  omega

theorem release_name {g : Handle} : (release s g).name = if lastRef s g then none else s.name := by
  unfold release
  dsimp only
  split_ifs <;> rfl

theorem release_word {g : Handle} (p j : Nat) :
    (release s g).word p j = (s.fetchAdd g.obj (accOf g.size) (-1)).word p j := by
  unfold release
  dsimp only
  split_ifs <;> rfl

end Spec

end ThothIpc.Shm
