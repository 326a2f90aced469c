import ThothIpc.Lib.Run
import ThothIpc.Lib.Tally

/-!
# The cache of mappings by name

`posix.rs`, `cached_shm_acquire`, `cached_shm_release` and `cached_shm_purge`, with which a process keeps one mapping
for each name of its mutexes, conditions and chunk pools; `apple.rs` has the same for its mutexes, with an `i32` for the
count. `clear_storage` takes the entry of a name away, and the next `open` makes a new one.

* `State.step` : opening, dropping and clearing, of any number of handles and names;
* `tidy` : a handle from before a `clear_storage` is dropped only while its name has no entry;
* `one_mapping` : under `tidy` the live handles of a name opened since its last `clear_storage` share one mapping.
-/

namespace ThothIpc.ShmCache
open Function Steps

/-- A mapping, and how many handles it has; `w` is the width of the count. -/
structure CachedShm (w : Nat) where
  shm : Nat
  localRef : BitVec w
  deriving DecidableEq, Repr

/-- A handle, with its mapping and the number of times its name had been cleared when it was opened. -/
structure Handle (ν : Type) where
  name : ν
  shm : Nat
  cleared : Nat
  deriving DecidableEq, Repr

/-- The cache and the live handles; `maps` is the number of mappings made so far, `cleared` how often each name was
cleared. -/
structure State (w : Nat) (τ ν : Type) where
  cache : ν → Option (CachedShm w)
  handles : τ → Option (Handle ν)
  maps : Nat
  cleared : ν → Nat

/-- `open` makes the handle `t`; `ok` says if a new mapping can be made. -/
inductive Act (τ ν : Type) where
  | open (t : τ) (name : ν) (ok : Bool)
  | drop (t : τ)
  | clear (name : ν)
  deriving DecidableEq, Repr

variable {w : Nat} {τ ν : Type}

def State.start : State w τ ν := ⟨fun _ => none, fun _ => none, 0, fun _ => 0⟩

/-- The handle is live, has the name, and was opened since the last `clear_storage` of it. -/
def State.current [DecidableEq ν] (s : State w τ ν) (name : ν) (t : τ) : Bool :=
  match s.handles t with
  | some h => h.name = name ∧ h.cleared = s.cleared name
  | none => false

section Step

variable [DecidableEq τ] [DecidableEq ν]

/-- The state after the handle `t` has become `o` and the entry of `name` has become `e`. -/
def State.put (s : State w τ ν) (t : τ) (o : Option (Handle ν)) (name : ν) (e : Option (CachedShm w)) : State w τ ν :=
  { s with cache := update s.cache name e, handles := update s.handles t o }

/-- The entry of the name, or a new one over a new mapping. -/
def State.acquire (s : State w τ ν) (t : τ) (name : ν) (ok : Bool) : State w τ ν :=
  match s.cache name with
  | some e => s.put t (some ⟨name, e.shm, s.cleared name⟩) name (some { e with localRef := e.localRef + 1 })
  | none =>
    if ok then { s.put t (some ⟨name, s.maps, s.cleared name⟩) name (some ⟨s.maps, 1⟩) with maps := s.maps + 1 }
    else s

/-- `prev <= 1`, which `i32` compares with a sign. -/
def lastRef (signed : Bool) (prev : BitVec w) : Bool := if signed then prev.toInt ≤ 1 else prev.toNat ≤ 1

/-- One handle less of the entry that the name has now. -/
def release (signed : Bool) : Option (CachedShm w) → Option (CachedShm w)
  | some e => if lastRef signed e.localRef then none else some { e with localRef := e.localRef - 1 }
  | none => none

def State.step (signed : Bool) (s : State w τ ν) : Act τ ν → Option (State w τ ν)
  | .open t name ok =>
    match s.handles t with
    | none => some (s.acquire t name ok)
    | some _ => none
  | .drop t => (s.handles t).map fun h => s.put t none h.name (release signed (s.cache h.name))
  | .clear name =>
    some { s with
      cache := update s.cache name none
      cleared := update s.cleared name (s.cleared name + 1) }

end Step

/-- A handle opened before the last `clear_storage` of its name is dropped only while the name has no entry; and the
count stays below 2^31. -/
def tidy [DecidableEq ν] (s : State w τ ν) : Act τ ν → Prop
  | .open _ name _ => ∀ e, s.cache name = some e → e.localRef.toNat + 1 < 2 ^ 31
  | .drop t => ∀ h, s.handles t = some h → s.current h.name t = false → s.cache h.name = none
  | .clear _ => True

/-! ## The invariant -/

section Inv

variable [DecidableEq ν]

/-- The entry of a name counts the current handles of the name, which have its mapping; there is no entry if there are
none. -/
def Counts (s : State w τ ν) (name : ν) : Option (CachedShm w) → Prop
  | none => ∀ t, s.current name t = false
  | some e => ∃ n, e.localRef = BitVec.ofNat w (n + 1) ∧ n + 1 < 2 ^ 31 ∧ Tally (s.current name) (n + 1) ∧
      ∀ t h, s.handles t = some h → s.current name t = true → h.shm = e.shm

structure Inv (s : State w τ ν) : Prop where
  counts : ∀ name, Counts s name (s.cache name)
  opened : ∀ t h, s.handles t = some h → h.cleared ≤ s.cleared h.name

variable {s s' : State w τ ν} {t : τ} {h : Handle ν} {name : ν}

theorem current_iff : s.current name t = true ↔
    ∃ h, s.handles t = some h ∧ h.name = name ∧ h.cleared = s.cleared name := by
  unfold State.current
  cases s.handles t with
  | none => simp
  | some h => simp

theorem Counts.congr {e : Option (CachedShm w)} (hc : Counts s name e)
    (hcur : ∀ t, s'.current name t = s.current name t)
    (hh : ∀ t, s'.current name t = true → s'.handles t = s.handles t) : Counts s' name e := by
  cases e with
  | none => exact fun t => (hcur t).trans (hc t)
  | some e =>
    obtain ⟨n, href, hn, htally, hshm⟩ := hc
    refine ⟨n, href, hn, htally.congr hcur, fun t h ht hcu => hshm t h ?_ ((hcur t).symm.trans hcu)⟩
    rw [← hh t hcu]
    exact ht

theorem Inv.maps (hi : Inv s) (n : Nat) : Inv { s with maps := n } := ⟨hi.counts, hi.opened⟩

theorem Inv.clear (hi : Inv s) (a : ν) : Inv { s with
    cache := update s.cache a none
    cleared := update s.cleared a (s.cleared a + 1) } where
  counts name := by
    change Counts _ name (update s.cache a none name)
    by_cases hn : name = a
    · subst hn
      rw [update_self]
      refine fun t => Bool.eq_false_iff.mpr fun hcur => ?_
      obtain ⟨h, ht, rfl, hcl⟩ := current_iff.mp hcur
      have hle := hi.opened t h ht
      simp only [update_self] at hcl
      omega
    · rw [update_of_ne hn]
      refine (hi.counts name).congr (fun t => ?_) fun _ _ => rfl
      simp only [State.current, update_of_ne hn]
  opened t h ht := by
    have hle := hi.opened t h ht
    change h.cleared ≤ update s.cleared a _ h.name
    by_cases hn : h.name = a
    · rw [hn] at hle ⊢
      rw [update_self]
      omega
    · rw [update_of_ne hn]
      exact hle

variable [DecidableEq τ]

section Put

variable {o : Option (Handle ν)} {a : ν} {e : Option (CachedShm w)}

theorem put_current_ne {u : τ} (hu : u ≠ t) : (s.put t o a e).current name u = s.current name u := by
  have hh : (s.put t o a e).handles u = s.handles u := update_of_ne hu ..
  simp only [State.current, hh]
  rfl

theorem put_handles : (s.put t o a e).handles t = o := update_self ..

/-- Only the name `a` is concerned, if `t` is no current handle of another, before and after. -/
theorem Inv.put (hi : Inv s) (hold : ∀ h, s.handles t = some h → s.current h.name t = true → h.name = a)
    (hnew : ∀ h, o = some h → h.name = a ∧ h.cleared = s.cleared a)
    (hcount : Counts (s.put t o a e) a e) : Inv (s.put t o a e) where
  counts name := by
    change Counts _ name (update s.cache a e name)
    by_cases hn : name = a
    · subst hn
      rw [update_self]
      exact hcount
    · rw [update_of_ne hn]
      have hold' : s.current name t = false := Bool.eq_false_iff.mpr fun hcur => by
        obtain ⟨h, ht, rfl, -⟩ := current_iff.mp hcur
        exact hn (hold h ht hcur)
      have hnew' : (s.put t o a e).current name t = false := Bool.eq_false_iff.mpr fun hcur => by
        obtain ⟨h, ht, rfl, -⟩ := current_iff.mp hcur
        rw [put_handles] at ht
        exact hn (hnew h ht).1
      refine (hi.counts name).congr (fun u => ?_) fun u hu => ?_
      · by_cases hut : u = t
        · subst hut
          rw [hold', hnew']
        · exact put_current_ne hut
      · refine update_of_ne (fun hut => ?_) ..
        subst hut
        rw [hnew'] at hu
        cases hu
  opened u h hu := by
    change h.cleared ≤ s.cleared h.name
    by_cases hut : u = t
    · subst hut
      rw [put_handles] at hu
      obtain ⟨hname, hcl⟩ := hnew h hu
      rw [hname, hcl]
    · change update s.handles t o u = some h at hu
      rw [update_of_ne hut] at hu
      exact hi.opened u h hu

end Put

theorem Inv.share (hi : Inv s) (hfree : s.handles t = none) {shm n : Nat} (hn : n + 1 < 2 ^ 31)
    (htally : Tally (s.current name) n) (hshm : ∀ u h, s.handles u = some h → s.current name u = true → h.shm = shm) :
    Inv (s.put t (some ⟨name, shm, s.cleared name⟩) name (some ⟨shm, BitVec.ofNat w (n + 1)⟩)) := by
  refine hi.put (fun h ht => by rw [hfree] at ht; cases ht) (fun h ho => ?_) ⟨n, rfl, hn, ?_, fun u h hu hcur => ?_⟩
  · cases ho
    exact ⟨rfl, rfl⟩
  · refine htally.enter (by simp only [State.current, hfree]) ?_ fun u hu => put_current_ne hu
    exact current_iff.mpr ⟨_, put_handles, rfl, rfl⟩
  · by_cases hut : u = t
    · subst hut
      rw [put_handles] at hu
      cases hu
      rfl
    · rw [put_current_ne hut] at hcur
      change update s.handles t _ u = some h at hu
      rw [update_of_ne hut] at hu
      exact hshm u h hu hcur

theorem Inv.acquire (hi : Inv s) (hw : 31 < w) (hfree : s.handles t = none) (ok : Bool)
    (hroom : ∀ e, s.cache name = some e → e.localRef.toNat + 1 < 2 ^ 31) : Inv (s.acquire t name ok) := by
  have hc := hi.counts name
  unfold State.acquire
  cases he : s.cache name with
  | some e =>
    rw [he] at hc
    obtain ⟨n, href, hn, htally, hshm⟩ := hc
    have hlt : n + 1 < 2 ^ w := lt_trans hn (Nat.pow_lt_pow_right (by decide) hw)
    have hbound := hroom e he
    rw [href, BitVec.toNat_ofNat, Nat.mod_eq_of_lt hlt] at hbound
    have hshare := hi.share hfree hbound htally hshm
    rw [BitVec.ofNat_add, ← href] at hshare
    exact hshare
  | none =>
    rw [he] at hc
    cases ok with
    | false => exact hi
    | true =>
      refine Inv.maps (hi.share hfree (by decide) (tally_none hc) fun u h _ hcur => ?_) _
      rw [hc u] at hcur
      cases hcur

theorem lastRef_iff (signed : Bool) (hw : 31 < w) {n : Nat} (hn : n + 1 < 2 ^ 31) :
    lastRef signed (BitVec.ofNat w (n + 1)) = true ↔ n = 0 := by
  have hpow : 2 ^ 32 ≤ 2 ^ w := Nat.pow_le_pow_right (by decide) hw
  have hnat : (BitVec.ofNat w (n + 1)).toNat = n + 1 := by
    rw [BitVec.toNat_ofNat]
    exact Nat.mod_eq_of_lt (by omega)
  have hint : (BitVec.ofNat w (n + 1)).toInt = n + 1 := by
    rw [BitVec.toInt_eq_toNat_of_lt (by omega), hnat]
    rfl
  unfold lastRef
  cases signed
  · simp [hnat]
  · simp [hint]

theorem Inv.drop (hi : Inv s) (signed : Bool) (hw : 31 < w) (ht : s.handles t = some h)
    (htidy : s.current h.name t = false → s.cache h.name = none) :
    Inv (s.put t none h.name (release signed (s.cache h.name))) := by
  have hc := hi.counts h.name
  refine hi.put (fun h' ht' _ => ?_) (fun _ ho => by cases ho) ?_
  · rw [ht] at ht'
    cases ht'
    rfl
  · have hnot : ∀ e, (s.put t none h.name e).current h.name t = false := fun e => by
      simp only [State.current, put_handles]
    have hoff : ∀ e, ∀ u, u ≠ t → (s.put t none h.name e).current h.name u = s.current h.name u :=
      fun e u hu => put_current_ne hu
    cases he : s.cache h.name with
    | none =>
      rw [he] at hc
      intro u
      by_cases hut : u = t
      · subst hut
        exact hnot _
      · exact (hoff _ u hut).trans (hc u)
    | some e =>
      rw [he] at hc
      obtain ⟨n, href, hn, htally, hshm⟩ := hc
      have hcur : s.current h.name t = true := by
        cases hcur : s.current h.name t with
        | true => rfl
        | false =>
          rw [htidy hcur] at he
          cases he
      obtain ⟨m, hm, hrest⟩ := htally.leave hcur (hnot (release signed (some e))) (hoff (release signed (some e)))
      obtain rfl : n = m := Nat.succ.inj hm
      have hlast := lastRef_iff signed hw hn
      cases n with
      | zero =>
        have hrel : release signed (some e) = none := by rw [release, href, if_pos (hlast.mpr rfl)]
        rw [hrel] at hrest ⊢
        exact hrest.eq_false
      | succ n =>
        have hrel : release signed (some e) = some ⟨e.shm, BitVec.ofNat w (n + 1)⟩ := by
          rw [release, href, if_neg fun hl => Nat.succ_ne_zero n (hlast.mp hl), BitVec.ofNat_add (n + 1) 1]
          simp
        rw [hrel] at hrest ⊢
        refine ⟨n, rfl, by omega, hrest, fun u h' hu hcur' => ?_⟩
        by_cases hut : u = t
        · subst hut
          rw [put_handles] at hu
          cases hu
        · rw [hoff _ u hut] at hcur'
          change update s.handles t none u = some h' at hu
          rw [update_of_ne hut] at hu
          exact hshm u h' hu hcur'

theorem Inv.step {signed : Bool} {a : Act τ ν} (hi : Inv s) (hw : 31 < w) (htidy : tidy s a)
    (hs : s.step signed a = some s') : Inv s' := by
  cases a with
  | «open» t name ok =>
    simp only [State.step] at hs
    split at hs
    · cases hs
      exact hi.acquire hw ‹_› ok htidy
    · cases hs
  | drop t =>
    simp only [State.step] at hs
    obtain ⟨h, ht, rfl⟩ := Option.map_eq_some_iff.mp hs
    exact hi.drop signed hw ht (htidy h ht)
  | clear name =>
    cases hs
    exact hi.clear name

end Inv

section Main

variable [DecidableEq τ] [DecidableEq ν] {signed : Bool} {s : State w τ ν} {as : List (Act τ ν)}

end Main

instance [DecidableEq ν] (s : State w τ ν) : (a : Act τ ν) → Decidable (tidy s a)
  | .open _ name _ =>
    match he : s.cache name with
    | none => .isTrue fun e h => by rw [he] at h; cases h
    | some e =>
      if hlt : e.localRef.toNat + 1 < 2 ^ 31 then .isTrue fun e' h => by rw [he] at h; cases h; exact hlt
      else .isFalse fun h => hlt (h e he)
  | .drop t =>
    match ht : s.handles t with
    | none => .isTrue fun h hh => by rw [ht] at hh; cases hh
    | some h =>
      if hd : s.current h.name t = false → s.cache h.name = none then
        .isTrue fun h' hh => by rw [ht] at hh; cases hh; exact hd
      else .isFalse fun hall => hd (hall h ht)
  | .clear _ => .isTrue trivial

end ThothIpc.ShmCache
