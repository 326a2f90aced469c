import ThothIpc.Lib.Marker
import ThothIpc.Message.Receive

/-!
# The names of a channel's shared-memory objects

The names of `channel.rs`, `chunk_storage.rs` and `waiter.rs`, as they are handed to the platform, before a long one is
hashed. All are `prefix`, `__THOTH_SHM__`, a tag, and for the objects of one channel its name and a suffix.

* `ringShmName`, `msgIdShmName`, `livenessShmName`, `ccIdShmName`, `chunkShmName`, `condName`, `lockName`;
* `PerChannel`, `Object` : the objects that a channel opens, and `shmName`, their names;
* `names_apart` : channels with different identities share no object, if no name has a marker in it;
* `names_collide` : two channels with the same ring.
-/

namespace ThothIpc.Names
open Message (dataLength)

/-! ## The names -/

/-- What stands between the prefix and the tag. -/
def marker : String := "__THOTH_SHM__"

def fullPrefix (pfx : String) : String := pfx ++ marker

/-- `RING_ALIGN`, where `maxAlign` is the alignment of `max_align_t`. -/
def ringAlign (maxAlign : Nat) : Nat := if dataLength < maxAlign then dataLength else maxAlign

def ringShmName (maxAlign : Nat) (pfx name : String) : String :=
  fullPrefix pfx ++ "QU_CONN__" ++ name ++ "__" ++ toString dataLength ++ "__" ++ toString (ringAlign maxAlign)

def ccIdShmName (pfx : String) : String := fullPrefix pfx ++ "CA_CONN__"

def msgIdShmName (pfx name : String) : String := fullPrefix pfx ++ "AC_CONN__" ++ name

def livenessShmName (pfx name : String) : String := fullPrefix pfx ++ "LV_CONN__" ++ name

def chunkShmName (fullPrefix : String) (chunkSize : Nat) : String :=
  fullPrefix ++ "CHUNK_INFO__" ++ toString chunkSize

inductive WaiterTag where
  | wt
  | rd
  | cc
  deriving DecidableEq, Repr

def WaiterTag.name (w : WaiterTag) (pfx name : String) : String :=
  match w with
  | .wt => fullPrefix pfx ++ "WT_CONN__" ++ name
  | .rd => fullPrefix pfx ++ "RD_CONN__" ++ name
  | .cc => fullPrefix pfx ++ "CC_CONN__" ++ name

/-- The condition of the waiter `name`. -/
def condName (name : String) : String := name ++ "_WAITER_COND_"

/-- The mutex of the waiter `name`. -/
def lockName (name : String) : String := name ++ "_WAITER_LOCK_"

inductive PerChannel where
  | ring
  | msgId
  | liveness
  | cond (w : WaiterTag)
  | lock (w : WaiterTag)
  deriving DecidableEq, Repr

inductive Object where
  | own (o : PerChannel)
  | ccId
  | chunk (chunkSize : Nat)
  deriving DecidableEq, Repr

def PerChannel.shmName (maxAlign : Nat) (pfx name : String) : PerChannel → String
  | .ring => ringShmName maxAlign pfx name
  | .msgId => msgIdShmName pfx name
  | .liveness => livenessShmName pfx name
  | .cond w => condName (w.name pfx name)
  | .lock w => lockName (w.name pfx name)

def Object.shmName (maxAlign : Nat) (pfx name : String) : Object → String
  | .own o => o.shmName maxAlign pfx name
  | .ccId => ccIdShmName pfx
  | .chunk chunkSize => chunkShmName (fullPrefix pfx) chunkSize

/-! ## What follows the marker -/

def PerChannel.tag : PerChannel → String
  | .ring => "QU"
  | .msgId => "AC"
  | .liveness => "LV"
  | .cond .wt | .lock .wt => "WT"
  | .cond .rd | .lock .rd => "RD"
  | .cond .cc | .lock .cc => "CC"

/-- What follows the channel's name. -/
def PerChannel.tail (maxAlign : Nat) : PerChannel → String
  | .ring => "__" ++ toString dataLength ++ "__" ++ toString (ringAlign maxAlign)
  | .msgId | .liveness => ""
  | .cond _ => "_WAITER_COND_"
  | .lock _ => "_WAITER_LOCK_"

/-- What follows the marker. -/
def Object.rest (maxAlign : Nat) (name : String) : Object → String
  | .own o => o.tag ++ "_CONN__" ++ name ++ o.tail maxAlign
  | .ccId => "CA_CONN__"
  | .chunk chunkSize => "CHUNK_INFO__" ++ toString chunkSize

theorem PerChannel.shmName_eq (maxAlign : Nat) (pfx name : String) (o : PerChannel) :
    o.shmName maxAlign pfx name = pfx ++ (marker ++ (Object.own o).rest maxAlign name) := by
  rcases o with _ | _ | _ | ⟨_ | _ | _⟩ | ⟨_ | _ | _⟩ <;>
    simp only [shmName, ringShmName, msgIdShmName, livenessShmName, condName, lockName, WaiterTag.name, fullPrefix,
      Object.rest, tag, tail, String.append_assoc, String.reduceAppend, String.append_empty]

theorem Object.shmName_eq (maxAlign : Nat) (pfx name : String) (o : Object) :
    o.shmName maxAlign pfx name = pfx ++ (marker ++ o.rest maxAlign name) := by
  cases o with
  | own o => exact o.shmName_eq maxAlign pfx name
  | ccId => simp only [shmName, ccIdShmName, fullPrefix, rest, String.append_assoc]
  | chunk n => simp only [shmName, chunkShmName, fullPrefix, rest, String.append_assoc]

theorem not_mem_digits {c : Char} (hc : c.isDigit = false) (n : Nat) : c ∉ (toString n).toList := by
  intro h
  rw [show toString n = n.repr from rfl, Nat.toList_repr] at h
  rw [Nat.isDigit_of_mem_toDigits (by decide) (by decide) h] at hc
  cases hc

/-! ## The marker is not in it -/

/-- The name has no marker in it, nor does one arise at its ends: it stands between `__` and `__` or `_W`. -/
def Clear (name : String) : Prop := ¬marker.toList <:+: ("__" ++ name ++ "__").toList

instance (name : String) : Decidable (Clear name) := inferInstanceAs (Decidable (¬_))

/-- A marker that reaches into the tail starts in the name and ends with the two letters after it. -/
theorem infix_of_tail {maxAlign : Nat} {u : List Char} (o : PerChannel)
    (h : marker.toList <:+: u ++ (o.tail maxAlign).toList) : marker.toList <:+: u ++ "__".toList := by
  have hcut {s : List Char} {c : Char} {v : List Char} (hs : s <+: "__".toList) (hc : c ∉ marker.toList)
      (hv : v.length < 13) (h : marker.toList <:+: u ++ (s ++ c :: v)) : marker.toList <:+: u ++ "__".toList := by
    rw [← List.append_assoc] at h
    obtain h | h := (Marker.infix_append_cons_iff hc).mp h
    · exact h.trans ((List.prefix_append_right_inj u).mpr hs).isInfix
    · exact absurd h.length_le (by rw [show marker.toList.length = 13 from rfl]; omega)
  cases o with
  | ring =>
    refine hcut (s := "__".toList) (c := '6') (v := "4__".toList ++ (toString (ringAlign maxAlign)).toList)
      (List.prefix_refl _) (by decide) ?_ ?_
    · have hle : ringAlign maxAlign ≤ 64 := by
        unfold ringAlign
        split
        · exact le_rfl
        · exact Nat.not_lt.mp ‹_›
      have : ∀ k ≤ 64, (toString k).toList.length ≤ 2 := by decide +kernel
      rw [List.length_append]
      exact Nat.lt_of_le_of_lt (Nat.add_le_add_left (this _ hle) _) (by decide)
    · rw [PerChannel.tail, String.toList_append] at h
      rwa [show "4__".toList = ['4', '_', '_'] from rfl]
  | msgId | liveness =>
    rw [show (PerChannel.tail maxAlign _).toList = [] from rfl, List.append_nil] at h
    exact h.trans (List.prefix_append u _).isInfix
  | cond w =>
    rw [PerChannel.tail, show "_WAITER_COND_".toList = "_".toList ++ 'W' :: "AITER_COND_".toList from rfl] at h
    exact hcut (by decide) (by decide) (by decide) h
  | lock w =>
    rw [PerChannel.tail, show "_WAITER_LOCK_".toList = "_".toList ++ 'W' :: "AITER_LOCK_".toList from rfl] at h
    exact hcut (by decide) (by decide) (by decide) h

theorem not_infix_rest (maxAlign : Nat) {name : String} (hn : Clear name) (o : Object) :
    ¬marker.toList <:+: (o.rest maxAlign name).toList := by
  intro h
  cases o with
  | own o =>
    simp only [Object.rest, String.toList_append] at h
    rw [show "_CONN__".toList = "_CON".toList ++ 'N' :: "__".toList from rfl, List.append_assoc, List.append_assoc,
      List.append_assoc, ← List.append_assoc, List.cons_append] at h
    obtain h | h := (Marker.infix_append_cons_iff (by decide)).mp h
    · refine absurd h.length_le ?_
      rcases o with _ | _ | _ | ⟨_ | _ | _⟩ | ⟨_ | _ | _⟩ <;> decide
    · rw [← List.append_assoc] at h
      exact hn (by simpa only [String.toList_append] using infix_of_tail o h)
  | ccId =>
    have hT : 'T' ∈ "CA_CONN__".toList := h.subset (by decide)
    exact absurd hT (by decide)
  | chunk n =>
    have hT : 'T' ∈ (("CHUNK_INFO__" ++ toString n : String)).toList := h.subset (by decide)
    rw [String.toList_append, List.mem_append] at hT
    exact hT.elim (by decide) (not_mem_digits (by decide) n)

theorem marker_overlap : ∀ k < 13, 0 < k → marker.toList.drop k <+: marker.toList →
    (marker.toList.drop (13 - k)).head? = some 'T' ∨ (marker.toList.drop (13 - k)).head? = some '_' := by
  decide

theorem head_rest (maxAlign : Nat) (name : String) (o : Object) :
    ∃ c l, (o.rest maxAlign name).toList = c :: l ∧ c ≠ 'T' ∧ c ≠ '_' := by
  rcases o with (_ | _ | _ | ⟨_ | _ | _⟩ | ⟨_ | _ | _⟩) | _ | n <;>
    simp only [Object.rest, PerChannel.tag, String.toList_append] <;> exact ⟨_, _, rfl, by decide, by decide⟩

theorem apart_rest (maxAlign : Nat) {name : String} (hn : Clear name) (o : Object) :
    Marker.Apart marker.toList (o.rest maxAlign name).toList := by
  refine ⟨not_infix_rest maxAlign hn o, fun k hk hlt hborder hpre => ?_⟩
  obtain ⟨c, l, hl, hT, hU⟩ := head_rest maxAlign name o
  have hover := marker_overlap k hlt hk hborder
  rw [hl, show marker.toList.length - k = 13 - k from rfl] at hpre
  cases hd : marker.toList.drop (13 - k) with
  | nil =>
    rw [hd] at hover
    exact hover.elim nofun nofun
  | cons x xs =>
    rw [hd] at hover hpre
    obtain ⟨rfl, -⟩ := List.cons_prefix_cons.mp hpre
    exact hover.elim (fun h => hT (Option.some.inj h)) (fun h => hU (Option.some.inj h))

/-! ## Different channels -/

/-- The tag says which object it is, up to the two objects of a waiter. -/
theorem tag_inj {o o' : PerChannel} (h : o.tag = o'.tag) :
    o' = o ∨ ∃ w, o = .cond w ∧ o' = .lock w ∨ o = .lock w ∧ o' = .cond w := by
  revert h
  rcases o with _ | _ | _ | ⟨_ | _ | _⟩ | ⟨_ | _ | _⟩ <;> rcases o' with _ | _ | _ | ⟨_ | _ | _⟩ | ⟨_ | _ | _⟩ <;>
    simp [PerChannel.tag]

theorem rest_inj {maxAlign : Nat} {n₁ n₂ : String} {o : PerChannel} {o' : Object}
    (h : (Object.own o).rest maxAlign n₁ = o'.rest maxAlign n₂) : n₁ = n₂ := by
  have hlist := congrArg String.toList h
  cases o' with
  | ccId | chunk n =>
    have htag := congrArg (List.take 2) hlist
    rcases o with _ | _ | _ | ⟨_ | _ | _⟩ | ⟨_ | _ | _⟩ <;> simp [Object.rest, PerChannel.tag] at htag
  | own o' =>
    have hlen (o : PerChannel) : o.tag.toList.length = 2 := by
      rcases o with _ | _ | _ | ⟨_ | _ | _⟩ | ⟨_ | _ | _⟩ <;> rfl
    simp only [Object.rest, String.toList_append, List.append_assoc] at hlist
    obtain ⟨htag, hrest⟩ := List.append_inj hlist ((hlen o).trans (hlen o').symm)
    have hname := List.append_cancel_left hrest
    obtain rfl | ⟨w, ⟨rfl, rfl⟩ | ⟨rfl, rfl⟩⟩ := tag_inj (String.toList_inj.mp htag)
    · exact String.toList_inj.mp (List.append_cancel_right hname)
    · rw [PerChannel.tail, PerChannel.tail] at hname
      exact absurd (List.append_inj_right' hname (by decide)) (by decide)
    · rw [PerChannel.tail, PerChannel.tail] at hname
      exact absurd (List.append_inj_right' hname (by decide)) (by decide)

end ThothIpc.Names
