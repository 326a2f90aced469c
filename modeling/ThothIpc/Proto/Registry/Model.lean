import ThothIpc.Lib.Keyed

/-!
# The service registry

`service_registry.rs`. A registry is 32 entries in shared memory, each operation runs under its lock. An entry has a
name and two channel names in fields of 64 bytes, and the pid of its process. Entries of dead processes stay until an
operation comes across them.

* `copyStr`, `strOf` : a string into a field and back, `stored` : both; `stored_eq` : what fits comes back;
* `register`, `unregister`, `find`, `findAll`, `list`, `gc`, `clear` : the operations, over what `is_pid_alive` answers;
* `register_cases`, `unregister_cases`, `findLoop_spec`, `sweeps_reaped` : what each can do to the entries.
-/

namespace ThothIpc.ServiceRegistry
open Keyed

def maxServices : Nat := 32

def maxNameLen : Nat := 64

/-! ## Strings in fields -/

/-- `[u8; MAX_NAME_LEN]`. -/
abbrev Field := { bs : List UInt8 // bs.length = maxNameLen }

def zeros : Field := ⟨List.replicate maxNameLen 0, List.length_replicate⟩

def bytes (s : String) : List UInt8 := s.toUTF8.data.toList

def copyStr (dst : Field) (src : String) : Field :=
  let len := min (bytes src).length (maxNameLen - 1)
  ⟨(bytes src).take len ++ 0 :: dst.val.drop (len + 1), by
    have hd := dst.property
    simp only [maxNameLen, List.length_append, List.length_take, List.length_cons, List.length_drop, len] at hd ⊢
    omega⟩

/-- The bytes before the first 0, if they are UTF-8: `name_str`, `control_channel_str` and `reply_channel_str`. -/
def strOf (field : Field) : String :=
  let stop := field.val.findIdx (· == 0)
  (String.fromUTF8? ⟨(field.val.take stop).toArray⟩).getD ""

/-- What is read back of a string that was copied to an empty field. -/
def stored (s : String) : String := strOf (copyStr zeros s)

/-- The string and a terminating 0 fit into a field, and the 0 is the first. -/
def fits (s : String) : Prop := (bytes s).length < maxNameLen ∧ 0 ∉ bytes s

instance (s : String) : Decidable (fits s) := inferInstanceAs (Decidable (_ ∧ _))

theorem fromUTF8_bytes (s : String) : String.fromUTF8? ⟨(bytes s).toArray⟩ = some s := by
  have h : (⟨(bytes s).toArray⟩ : ByteArray) = s.toByteArray := rfl
  rw [h, String.fromUTF8?, dif_pos s.isValidUTF8]
  rfl

theorem copyStr_val {s : String} (h : (bytes s).length < maxNameLen) :
    (copyStr zeros s).val = bytes s ++ 0 :: zeros.val.drop ((bytes s).length + 1) := by
  have hmin : min (bytes s).length (maxNameLen - 1) = (bytes s).length := Nat.min_eq_left (Nat.le_sub_one_of_lt h)
  simp only [copyStr, hmin, List.take_length]

theorem stored_eq {s : String} (h : fits s) : stored s = s := by
  obtain ⟨hlen, hnul⟩ := h
  have hval := copyStr_val hlen
  have hidx : (bytes s).findIdx (· == 0) = (bytes s).length := by
    rw [List.findIdx_eq_length]
    intro b hb
    exact beq_false_of_ne fun he => hnul (he ▸ hb)
  have hstop : (copyStr zeros s).val.findIdx (· == 0) = (bytes s).length := by
    rw [hval, List.findIdx_append, hidx, if_neg (Nat.lt_irrefl _), List.findIdx_cons]
    simp
  have htake : (copyStr zeros s).val.take (bytes s).length = bytes s := by
    rw [hval, List.take_left]
  rw [stored, strOf, hstop, htake, fromUTF8_bytes]
  rfl

/-! ## Entries -/

/-- `ServiceEntry` -/
structure Entry where
  name : Field
  controlChannel : Field
  replyChannel : Field
  pid : Int
  registeredAt : Int
  flags : BitVec 32
  deriving DecidableEq

namespace Entry

/-- `ServiceEntry::default` -/
def zeroed : Entry := ⟨zeros, zeros, zeros, 0, 0, 0⟩

def active (e : Entry) : Bool := 0 < e.pid && e.name.val.head? != some 0

def nameStr (e : Entry) : String := strOf e.name

def controlChannelStr (e : Entry) : String := strOf e.controlChannel

def replyChannelStr (e : Entry) : String := strOf e.replyChannel

def isAlive (alive : Int → Bool) (e : Entry) : Bool := if e.pid ≤ 0 then false else alive e.pid

/-- The entry is in use for `name`. -/
def has (name : String) (e : Entry) : Bool := e.active && e.nameStr == name

/-- The entry is in use for a process that is dead. -/
def stale (alive : Int → Bool) (e : Entry) : Bool := e.active && !e.isAlive alive

/-- The name that the entry is in use for. -/
def key (e : Entry) : Option String := if e.active then some e.nameStr else none

end Entry

def fillEntry (name control reply : String) (pid now : Int) : Entry :=
  { Entry.zeroed with
    name := copyStr zeros name
    controlChannel := copyStr zeros control
    replyChannel := copyStr zeros reply
    pid := pid
    registeredAt := now }

/-- `RegistryData`, without its lock. -/
structure Registry where
  count : Nat
  entries : List Entry
  size : entries.length = maxServices

/-! ## Operations -/

namespace Registry

def fresh : Registry := ⟨0, List.replicate maxServices .zeroed, List.length_replicate⟩

variable (alive : Int → Bool) (R : Registry)

/-- `register_service_as`: an entry of the name is refused or taken over, else the first entry is taken that is not in
use by a live process. -/
def register (name control reply : String) (pid now : Int) : Bool × Registry :=
  if name.isEmpty then (false, R)
  else
    match h : visitFirst (Entry.has name)
      (fun e => if e.isAlive alive then (false, e) else (true, fillEntry name control reply pid now)) R.entries with
    | some (ok, es) => (ok, { R with entries := es, size := (length_visitFirst h).trans R.size })
    | none =>
      match h : visitFirst (fun e => !e.active || !e.isAlive alive)
        (fun _ => ((), fillEntry name control reply pid now)) R.entries with
      | some (_, es) => (true,
          { count := if R.count < maxServices then R.count + 1 else R.count
            entries := es
            size := (length_visitFirst h).trans R.size })
      | none => (false, R)

/-- `unregister_service_as` -/
def unregister (name : String) (pid : Int) : Bool × Registry :=
  match h : visitFirst (fun e => e.has name && e.pid == pid) (fun _ => ((), Entry.zeroed)) R.entries with
  | some (_, es) => (true, { R with entries := es, size := (length_visitFirst h).trans R.size })
  | none => (false, R)

/-- The loop of `find`: stale entries of the name are cleaned up on the way to a live one. -/
def findLoop (name : String) : List Entry → Option Entry × List Entry
  | [] => (none, [])
  | e :: es =>
    if e.has name then
      if !e.isAlive alive then ((findLoop name es).1, .zeroed :: (findLoop name es).2) else (some e, e :: es)
    else ((findLoop name es).1, e :: (findLoop name es).2)

theorem length_findLoop (name : String) (es : List Entry) : (findLoop alive name es).2.length = es.length := by
  induction es with
  | nil => rfl
  | cons e es ih =>
    unfold findLoop
    split
    · split
      · simp [ih]
      · rfl
    · simp [ih]

def find (name : String) : Option Entry × Registry :=
  ((findLoop alive name R.entries).1,
    { R with entries := (findLoop alive name R.entries).2, size := (length_findLoop alive name _).trans R.size })

/-- Every stale entry is cleaned up. -/
def reap (e : Entry) : Entry := if e.stale alive then .zeroed else e

def reaped : Registry :=
  { R with entries := R.entries.map (reap alive), size := List.length_map _ |>.trans R.size }

/-- The loop of `find_all` and `list`, which collects what `p` accepts. -/
def scan (p : Entry → Bool) : List Entry × Registry :=
  (R.entries.filter fun e => e.active && e.isAlive alive && p e, R.reaped alive)

def findAll (start : String) : List Entry × Registry := R.scan alive fun e => (bytes start).isPrefixOf (bytes e.nameStr)

def list : List Entry × Registry := R.scan alive fun _ => true

def gc : Nat × Registry := (R.entries.countP (Entry.stale alive), R.reaped alive)

def clear : Registry :=
  { count := 0, entries := R.entries.map fun _ => .zeroed, size := List.length_map _ |>.trans R.size }

end Registry

/-! ## What an operation can do -/

namespace Entry

variable {alive : Int → Bool} {e : Entry} {name : String}

theorem has_iff : e.has name = true ↔ e.key = some name := by
  unfold has key
  cases e.active with
  | true => simp
  | false => simp

theorem has_eq_false : e.has name = false ↔ e.key ≠ some name := by
  rw [ne_eq, ← has_iff, Bool.not_eq_true]

theorem key_isSome : e.key.isSome = e.active := by
  unfold key
  cases e.active <;> rfl

theorem isAlive_of_active (h : e.active = true) : e.isAlive alive = alive e.pid := by
  have hp : 0 < e.pid := by
    simp only [active, Bool.and_eq_true, decide_eq_true_eq] at h
    exact h.1
  rw [isAlive, if_neg (not_le.mpr hp)]

theorem active_of_key (h : e.key = some name) : e.active = true := by
  rw [← key_isSome, h]
  rfl

theorem nameStr_of_key (h : e.key = some name) : e.nameStr = name := by
  rw [key, if_pos (active_of_key h)] at h
  exact Option.some.inj h

@[simp] theorem key_zeroed : zeroed.key = none := rfl

end Entry

/-- A name that fits and a positive pid make an entry in use for that name. -/
theorem key_fillEntry {name : String} (hn : name.isEmpty = false) (hf : fits name) (control reply : String) {pid : Int}
    (hp : 0 < pid) (now : Int) : (fillEntry name control reply pid now).key = some name := by
  have hne : bytes name ≠ [] := by
    intro h
    have hsize : name.utf8ByteSize = 0 := congrArg List.length h
    rw [String.isEmpty, hsize] at hn
    cases hn
  obtain ⟨b, bs, hb⟩ := List.exists_cons_of_ne_nil hne
  have hb0 : b ≠ 0 := fun h0 => hf.2 (by rw [hb, h0]; exact List.mem_cons_self)
  have hact : (fillEntry name control reply pid now).active = true := by
    simp only [Entry.active, fillEntry, copyStr_val hf.1, hb, List.cons_append, List.head?_cons]
    simp [hp, hb0]
  rw [Entry.key, if_pos hact]
  exact congrArg some (stored_eq hf)

namespace Registry

variable {alive : Int → Bool} {R : Registry}

inductive RegisterCase (alive : Int → Bool) (R : Registry) (name : String) (filled : Entry) : Bool × Registry → Prop
  | taken {pre post : List Entry} {e : Entry} : R.entries = pre ++ e :: post → (∀ x ∈ pre, x.key ≠ some name) →
      e.key = some name → e.isAlive alive = true → RegisterCase alive R name filled (false, R)
  | reuse {pre post : List Entry} {e : Entry} {R' : Registry} : R.entries = pre ++ e :: post →
      (∀ x ∈ pre, x.key ≠ some name) → e.key = some name → e.isAlive alive = false →
      R'.entries = pre ++ filled :: post → RegisterCase alive R name filled (true, R')
  | slot {pre post : List Entry} {e : Entry} {R' : Registry} : (∀ x ∈ R.entries, x.key ≠ some name) →
      R.entries = pre ++ e :: post → (e.active = true → e.isAlive alive = false) →
      R'.entries = pre ++ filled :: post → RegisterCase alive R name filled (true, R')
  | full : (∀ x ∈ R.entries, x.key ≠ some name) → (∀ x ∈ R.entries, x.active = true ∧ x.isAlive alive = true) →
      RegisterCase alive R name filled (false, R)

theorem register_cases (R : Registry) (alive : Int → Bool) {name : String} (hn : name.isEmpty = false)
    (control reply : String) (pid now : Int) :
    RegisterCase alive R name (fillEntry name control reply pid now) (R.register alive name control reply pid now) := by
  unfold register
  rw [if_neg (by rw [hn]; decide)]
  split
  · rename_i ok es h
    obtain ⟨pre, e, post, hes, hpre, he, hok, hes'⟩ := visitFirst_eq_some h
    have hpre' : ∀ x ∈ pre, x.key ≠ some name := fun x hx => Entry.has_eq_false.mp (hpre x hx)
    cases ha : e.isAlive alive with
    | true =>
      rw [ha, if_pos rfl] at hok hes'
      obtain rfl : es = R.entries := hes'.trans hes.symm
      obtain rfl : ok = false := hok
      exact .taken hes hpre' (Entry.has_iff.mp he) ha
    | false =>
      rw [ha, if_neg Bool.false_ne_true] at hok hes'
      obtain rfl : ok = true := hok
      exact .reuse hes hpre' (Entry.has_iff.mp he) ha hes'
  · rename_i h
    have hnone : ∀ x ∈ R.entries, x.key ≠ some name := fun x hx => Entry.has_eq_false.mp (visitFirst_eq_none.mp h x hx)
    split
    · rename_i es h'
      obtain ⟨pre, e, post, hes, -, he, -, hes'⟩ := visitFirst_eq_some h'
      refine .slot hnone hes (fun hact => ?_) hes'
      simpa [hact] using he
    · rename_i h'
      refine .full hnone fun x hx => ?_
      simpa using visitFirst_eq_none.mp h' x hx

inductive UnregisterCase (R : Registry) (name : String) (pid : Int) : Bool × Registry → Prop
  | removed {pre post : List Entry} {e : Entry} {R' : Registry} : R.entries = pre ++ e :: post → e.key = some name →
      e.pid = pid → R'.entries = pre ++ .zeroed :: post → UnregisterCase R name pid (true, R')
  | none : (∀ x ∈ R.entries, x.key = some name → x.pid ≠ pid) → UnregisterCase R name pid (false, R)

theorem unregister_cases (R : Registry) (name : String) (pid : Int) :
    UnregisterCase R name pid (R.unregister name pid) := by
  unfold unregister
  split
  · rename_i es h
    obtain ⟨pre, e, post, hes, -, he, -, hes'⟩ := visitFirst_eq_some h
    simp only [Bool.and_eq_true, beq_iff_eq] at he
    exact .removed hes (Entry.has_iff.mp he.1) he.2 hes'
  · rename_i h
    refine .none fun x hx hk hp => ?_
    have := visitFirst_eq_none.mp h x hx
    rw [Entry.has_iff.mpr hk, hp] at this
    simp at this

/-- Entries of dead processes may be gone. -/
abbrev Sweeps (alive : Int → Bool) (es es' : List Entry) : Prop := Frees Entry.key (fun e => e.stale alive = true) es es'

theorem findLoop_spec (name : String) (es : List Entry) :
    (findLoop alive name es).1 = es.find? (fun e => e.has name && e.isAlive alive) ∧
      Sweeps alive es (findLoop alive name es).2 := by
  induction es with
  | nil => exact ⟨rfl, .nil⟩
  | cons e es ih =>
    unfold findLoop
    cases hn : e.has name with
    | false =>
      rw [if_neg Bool.false_ne_true, List.find?_cons_of_neg (by simp [hn])]
      exact ⟨ih.1, .cons (.inl rfl) ih.2⟩
    | true =>
      rw [if_pos rfl]
      cases ha : e.isAlive alive with
      | true =>
        rw [Bool.not_true, if_neg Bool.false_ne_true, List.find?_cons_of_pos (by simp [hn, ha])]
        exact ⟨rfl, .cons (.inl rfl) (List.forall₂_same.mpr fun _ _ => .inl rfl)⟩
      | false =>
        rw [Bool.not_false, if_pos rfl, List.find?_cons_of_neg (by simp [ha])]
        have hact := Entry.active_of_key (Entry.has_iff.mp hn)
        exact ⟨ih.1, .cons (.inr ⟨by simp [Entry.stale, hact, ha], rfl⟩) ih.2⟩

theorem sweeps_reaped (es : List Entry) : Sweeps alive es (es.map (reap alive)) := by
  induction es with
  | nil => exact .nil
  | cons e es ih =>
    refine .cons ?_ ih
    unfold reap
    split
    · rename_i h
      exact .inr ⟨h, rfl⟩
    · exact .inl rfl

end Registry

end ThothIpc.ServiceRegistry
