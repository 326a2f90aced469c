import ThothIpc.Shm.Grow

/-!
# Clearing a name and opening it again

`clear_storage` unlinks the name; handles of the object keep their mapping and the name. The next `acquire` creates a
new object under the name. Mutexes and conditions share one mapping in a process, which is kept in its cache and dropped
with the last `Arc` of it.

* `State`, `State.step` : handles that own their mapping, handles that share the one of their process, and the caches;
* `alone` : no object is created while a mapping of an earlier one is live;
* `clear_safe` : under `alone` every live mapping is one of the object that the name is bound to.
-/

namespace ThothIpc.Shm.Clear
open Function Steps

/-- The store, the mappings `μ` with the number of their `Arc`s, the caches of the processes `π`, and the handles `η`
that share a mapping. A handle that owns its mapping is the mapping. `cleared` : the objects unlinked by a
`clear_storage`. -/
structure State (π μ η : Type) where
  store : Store
  maps : μ → Option Handle
  arcs : μ → Nat
  cache : π → Option (μ × Nat)
  held : η → Option (π × μ)
  cleared : Nat → Bool

/-- The operations of `PlatformShm` and `PlatformMutex`, and the two `clear_storage`. -/
inductive Act (π μ η : Type) where
  | acquire (m : μ) (userSize : Nat) (mode : Mode) (fault : Option Call)
  | drop (m : μ)
  | open (p : π) (h : η) (m : μ) (userSize : Nat) (fault : Option Call)
  | close (h : η)
  | clearShm
  | clear (p : π)
  deriving DecidableEq, Repr

variable {π μ η : Type}

namespace State

/-- The object's name is unlinked by a `clear_storage`. -/
def unbind (s : State π μ η) (o : Option Nat) : State π μ η :=
  { s with store := s.store.unlink, cleared := fun p => s.cleared p || decide (o = some p) }

variable [DecidableEq π] [DecidableEq μ] [DecidableEq η]

def setMap (s : State π μ η) (store : Store) (m : μ) (g : Option Handle) : State π μ η :=
  { s with store, maps := update s.maps m g }

def dropMap (s : State π μ η) (m : μ) : State π μ η :=
  match s.maps m with
  | some g => s.setMap (release s.store g) m none
  | none => s

/-- An `Arc` of the mapping is dropped, and the mapping with the last. -/
def dropArc (s : State π μ η) (m : μ) : State π μ η :=
  let s' := { s with arcs := update s.arcs m (s.arcs m - 1) }
  if s.arcs m ≤ 1 then s'.dropMap m else s'

def cachedShmRelease (s : State π μ η) (p : π) : State π μ η :=
  match s.cache p with
  | some (m, localRef) =>
    if localRef ≤ 1 then { s with cache := update s.cache p none }.dropArc m
    else { s with cache := update s.cache p (some (m, localRef - 1)) }
  | none => s

def cachedShmPurge (s : State π μ η) (p : π) : State π μ η :=
  match s.cache p with
  | some (m, _) => { s with cache := update s.cache p none }.dropArc m
  | none => s

/-- `cached_shm_acquire` for handle `h`; the creator fills the payload with zeros. -/
def cachedShmAcquire (P : Platform) (s : State π μ η) (p : π) (h : η) (m : μ) (userSize : Nat) (fault : Option Call) :
    State π μ η :=
  match s.cache p with
  | some (m, localRef) =>
    { s with
      cache := update s.cache p (some (m, localRef + 1))
      arcs := update s.arcs m (s.arcs m + 1)
      held := update s.held h (some (p, m)) }
  | none =>
    match acquire P s.store userSize .createOrOpen fault with
    | (st, .error _) => { s with store := st }
    | (st, .ok g) =>
      { s.setMap (if g.prevRef = 0 then st.zeroFill g.obj userSize else st) m (some g) with
        cache := update s.cache p (some (m, 1))
        arcs := update s.arcs m 2
        held := update s.held h (some (p, m)) }

def step (P : Platform) (s : State π μ η) : Act π μ η → Option (State π μ η)
  | .acquire m userSize mode fault =>
    match s.maps m with
    | none => let r := acquire P s.store userSize mode fault; some (s.setMap r.1 m r.2.toOption)
    | some _ => none
  | .drop m => if s.arcs m = 0 ∧ s.maps m ≠ none then some (s.dropMap m) else none
  | .open p h m userSize fault =>
    if s.held h = none ∧ (s.cache p = none → s.maps m = none) then some (s.cachedShmAcquire P p h m userSize fault)
      else none
  | .close h =>
    match s.held h with
    | some (p, m) =>
      let s' := s.cachedShmRelease p
      some ({ s' with held := update s'.held h none }.dropArc m)
    | none => none
  | .clearShm => some (s.unbind s.store.name)
  | .clear p => some ((s.cachedShmPurge p).unbind s.store.name)

end State

/-- No object is created while a mapping is live. -/
def alone (P : Platform) (s : State π μ η) : Act π μ η → Prop
  | .acquire _ userSize mode fault => s.store.name = none → (acquire P s.store userSize mode fault).1.name ≠ none →
      ∀ m, s.maps m = none
  | .open p _ _ userSize fault => s.cache p = none → s.store.name = none →
      (acquire P s.store userSize .createOrOpen fault).1.name ≠ none → ∀ m, s.maps m = none
  | _ => True

/-- What `Grow.even` asks of the mappings: one size, which does not wrap, and less than `i32::MAX` of them. -/
def even (P : Platform) (s : State π μ η) : Act π μ η → Prop
  | .acquire m userSize mode fault => Grow.even P ⟨s.store, s.maps⟩ (.acquire m userSize mode fault)
  | .open p _ m userSize fault => s.cache p = none → Grow.even P ⟨s.store, s.maps⟩
      (.acquire m userSize .createOrOpen fault)
  | _ => True

/-! ## The mappings and the name -/

/-- Every mapping is one of the object that the name is bound to. -/
def Mine (s : State π μ η) : Prop := ∀ m g o, s.maps m = some g → s.store.name = some o → g.obj = o

/-- The name is bound while a mapping of an object that was not cleared is live. -/
def Kept (s : State π μ η) : Prop :=
  Grow.Inv ⟨s.store, s.maps⟩ ∨ (s.store.name = none ∧ ∀ m g, s.maps m = some g → s.cleared g.obj = true)

theorem Mine.unbind (s : State π μ η) (o : Option Nat) : Mine (s.unbind o) := by
  intro m g p _ hp
  exact absurd hp nofun

theorem Kept.unbind {s : State π μ η} {o : Option Nat} (h : Kept s) (ho : s.store.name = none ∨ s.store.name = o) :
    Kept (s.unbind o) := by
  refine Or.inr ⟨rfl, fun k g hk => ?_⟩
  simp only [State.unbind, Bool.or_eq_true, decide_eq_true_eq]
  rcases h with h | ⟨-, hc⟩
  · have hname : s.store.name = some g.obj := h.bound k g hk
    rcases ho with ho | ho
    · exact absurd (ho.symm.trans hname) nofun
    · exact Or.inr (ho.symm.trans hname)
  · exact Or.inl (hc k g hk)

theorem acquire_userSize {P : Platform} {st st' : Store} {n : Nat} {mode : Mode} {fault : Option Call} {g : Handle}
    (h : acquire P st n mode fault = (st', .ok g)) : g.userSize = n := by
  obtain ⟨s₁, -, ⟨-, e, he⟩ | ⟨o, -, -, -, -, he⟩⟩ := acquire_spec h
  · exact absurd he nofun
  · rw [Except.ok.inj he]

section Steps

variable [DecidableEq μ] {P : Platform} {s s' : State π μ η} {m : μ}

theorem Mine.acquire {n : Nat} {mode : Mode} {fault : Option Call} (h : Mine s)
    (ha : s.store.name = none → (acquire P s.store n mode fault).1.name ≠ none → ∀ m, s.maps m = none) :
    Mine (s.setMap (acquire P s.store n mode fault).1 m (acquire P s.store n mode fault).2.toOption) := by
  intro k g o hk ho
  rcases hr : Shm.acquire P s.store n mode fault with ⟨st, r⟩
  simp only [State.setMap, hr] at hk ho ha
  obtain ⟨s₁, hopen, hst⟩ := acquire_spec hr
  have hname : st.name = s₁.name := by
    rcases hst with ⟨rfl, -⟩ | ⟨-, -, -, -, rfl, -⟩
    · rfl
    · rfl
  rcases eq_or_ne k m with rfl | hkm
  · rw [update_self] at hk
    rcases hst with ⟨-, e, rfl⟩ | ⟨p, hp, -, -, -, rfl⟩
    · exact absurd hk nofun
    · obtain rfl := Option.some.inj hk
      exact Option.some.inj (hp.symm.trans (hname.symm.trans ho))
  · rw [update_of_ne hkm] at hk
    cases hopen with
    | same hs => exact h k g o hk (hs.name.symm.trans (hname.symm.trans ho))
    | new hm hnone hs hx hw =>
      rw [ha hnone (by rw [ho]; exact nofun) k] at hk
      exact absurd hk nofun

theorem Kept.acquire {n : Nat} {mode : Mode} {fault : Option Call} (h : Kept s) (hm : s.maps m = none)
    (ha : s.store.name = none → (acquire P s.store n mode fault).1.name ≠ none → ∀ m, s.maps m = none)
    (he : Grow.even P ⟨s.store, s.maps⟩ (.acquire m n mode fault)) :
    Kept (s.setMap (acquire P s.store n mode fault).1 m (acquire P s.store n mode fault).2.toOption) := by
  rcases h with h | ⟨hn, hc⟩
  · exact Or.inl (h.acquire he hm)
  by_cases hname : (Shm.acquire P s.store n mode fault).1.name = none
  · refine Or.inr ⟨hname, fun k g hk => ?_⟩
    rcases hr : Shm.acquire P s.store n mode fault with ⟨st, r⟩
    rw [hr] at hk hname
    obtain ⟨s₁, -, ⟨-, e, rfl⟩ | ⟨o, ho, -, -, rfl, -⟩⟩ := acquire_spec hr
    · simp only [State.setMap, Except.toOption, update_apply] at hk
      split_ifs at hk
      exact hc k g hk
    · exact absurd (ho.symm.trans hname) nofun
  · have hnew : Grow.State.New (⟨s.store, s.maps⟩ : Grow.State μ) := ⟨hn, ha hn hname⟩
    exact Or.inl (hnew.inv.acquire he hm)

theorem Kept.zeroFilled {st : Store} {g : Handle} (h : Kept (s.setMap st m (some g))) :
    Kept (s.setMap (if g.prevRef = 0 then st.zeroFill g.obj g.userSize else st) m (some g)) := by
  split_ifs
  · rcases h with h | h
    · exact Or.inl (h.zeroFilled (k := m) (update_self _ _ _))
    · exact Or.inr h
  · exact h

theorem Mine.dropMap (h : Mine s) : Mine (s.dropMap m) := by
  unfold State.dropMap
  split
  case h_2 => exact h
  case h_1 g hg =>
    intro k g' o hk ho
    have hname : s.store.name = some o := by
      simp only [State.setMap, release_name] at ho
      split_ifs at ho
      exact ho
    simp only [State.setMap, update_apply] at hk
    split_ifs at hk
    exact h k g' o hk hname

theorem Kept.dropMap (h : Kept s) : Kept (s.dropMap m) := by
  unfold State.dropMap
  split
  case h_2 => exact h
  case h_1 g hg =>
    rcases h with h | ⟨hn, hc⟩
    · exact Or.inl (h.dropped hg)
    · refine Or.inr ⟨?_, fun k g' hk => ?_⟩
      · simp only [State.setMap, release_name, hn, ite_self]
      · simp only [State.setMap, update_apply] at hk
        split_ifs at hk
        exact hc k g' hk

theorem setMap_none {st : Store} (hm : s.maps m = none) : s.setMap st m none = { s with store := st } := by
  rw [State.setMap, update_eq_self_iff.mpr hm.symm]

/-- A property of the store and the mappings that dropping a mapping keeps. -/
structure Stable (I : State π μ η → Prop) : Prop where
  frame : ∀ s arcs cache held, I s → I { s with arcs, cache, held }
  drop : ∀ s m, I s → I (s.dropMap m)

theorem Mine.stable : Stable (Mine : State π μ η → Prop) := ⟨fun _ _ _ _ h => h, fun _ _ h => h.dropMap⟩

theorem Kept.stable : Stable (Kept : State π μ η → Prop) := ⟨fun _ _ _ _ h => h, fun _ _ h => h.dropMap⟩

theorem Stable.dropArc {I : State π μ η → Prop} (hI : Stable I) (h : I s) : I (s.dropArc m) := by
  unfold State.dropArc
  dsimp only
  split_ifs
  · exact hI.drop _ m (hI.frame s _ _ _ h)
  · exact hI.frame s _ _ _ h

theorem dropMap_name : (s.dropMap m).store.name = none ∨ (s.dropMap m).store.name = s.store.name := by
  unfold State.dropMap
  split
  case h_2 => exact Or.inr rfl
  case h_1 g hg =>
    simp only [State.setMap, release_name]
    split_ifs
    · exact Or.inl rfl
    · exact Or.inr rfl

theorem dropArc_name : (s.dropArc m).store.name = none ∨ (s.dropArc m).store.name = s.store.name := by
  unfold State.dropArc
  dsimp only
  split_ifs
  · exact dropMap_name
  · exact Or.inr rfl

variable [DecidableEq π] {p : π}

theorem Stable.cachedShmRelease {I : State π μ η → Prop} (hI : Stable I) (h : I s) : I (s.cachedShmRelease p) := by
  unfold State.cachedShmRelease
  split
  case h_1 m localRef hc =>
    split_ifs
    · exact hI.dropArc (hI.frame s _ _ _ h)
    · exact hI.frame s _ _ _ h
  case h_2 => exact h

theorem Stable.cachedShmPurge {I : State π μ η → Prop} (hI : Stable I) (h : I s) : I (s.cachedShmPurge p) := by
  unfold State.cachedShmPurge
  split
  case h_1 => exact hI.dropArc (hI.frame s _ _ _ h)
  case h_2 => exact h

theorem cachedShmPurge_name : (s.cachedShmPurge p).store.name = none ∨
    (s.cachedShmPurge p).store.name = s.store.name := by
  unfold State.cachedShmPurge
  split
  case h_1 => exact dropArc_name
  case h_2 => exact Or.inr rfl

end Steps

section Steps

variable [DecidableEq π] [DecidableEq μ] [DecidableEq η] {P : Platform} {s s' : State π μ η} {a : Act π μ η}

theorem Stable.close {I : State π μ η → Prop} (hI : Stable I) {k : η} (h : I s) (hs : s.step P (.close k) = some s') :
    I s' := by
  simp only [State.step] at hs
  split at hs
  case h_2 => exact absurd hs nofun
  case h_1 p m hk =>
    obtain rfl := Option.some.inj hs
    exact hI.dropArc (hI.frame _ _ _ _ (hI.cachedShmRelease h))

theorem Mine.step (h : Mine s) (ha : alone P s a) (hs : s.step P a = some s') : Mine s' := by
  cases a with
  | acquire m n mode fault =>
    simp only [State.step] at hs
    split at hs
    case h_2 => exact absurd hs nofun
    case h_1 hm =>
      obtain rfl := Option.some.inj hs
      exact h.acquire ha
  | drop m =>
    simp only [State.step] at hs
    split_ifs at hs
    obtain rfl := Option.some.inj hs
    exact h.dropMap
  | «open» p k m n fault =>
    simp only [State.step] at hs
    split_ifs at hs with hk
    obtain rfl := Option.some.inj hs
    unfold State.cachedShmAcquire
    split
    case h_1 => exact h
    case h_2 hc =>
      have hacq : Mine (s.setMap (Shm.acquire P s.store n .createOrOpen fault).1 m
          (Shm.acquire P s.store n .createOrOpen fault).2.toOption) := h.acquire (ha hc)
      split
      case h_1 st e hr =>
        rw [hr] at hacq
        rwa [← setMap_none (hk.2 hc)]
      case h_2 st g hr =>
        rw [hr] at hacq
        intro i g' o hi ho
        refine hacq i g' o hi ?_
        dsimp only [State.setMap] at ho ⊢
        split_ifs at ho
        · exact ho
        · exact ho
  | close k => exact Mine.stable.close h hs
  | clearShm =>
    obtain rfl := Option.some.inj hs
    exact Mine.unbind _ _
  | clear p =>
    obtain rfl := Option.some.inj hs
    exact Mine.unbind _ _

theorem Kept.step (h : Kept s) (ha : alone P s a) (he : even P s a) (hs : s.step P a = some s') : Kept s' := by
  cases a with
  | acquire m n mode fault =>
    simp only [State.step] at hs
    split at hs
    case h_2 => exact absurd hs nofun
    case h_1 hm =>
      obtain rfl := Option.some.inj hs
      exact h.acquire hm ha he
  | drop m =>
    simp only [State.step] at hs
    split_ifs at hs
    obtain rfl := Option.some.inj hs
    exact h.dropMap
  | «open» p k m n fault =>
    simp only [State.step] at hs
    split_ifs at hs with hk
    obtain rfl := Option.some.inj hs
    unfold State.cachedShmAcquire
    split
    case h_1 => exact h
    case h_2 hc =>
      have hacq : Kept (s.setMap (Shm.acquire P s.store n .createOrOpen fault).1 m
          (Shm.acquire P s.store n .createOrOpen fault).2.toOption) := h.acquire (hk.2 hc) (ha hc) (he hc)
      split
      case h_1 st e hr =>
        rw [hr] at hacq
        rwa [← setMap_none (hk.2 hc)]
      case h_2 st g hr =>
        rw [hr] at hacq
        obtain rfl : g.userSize = n := acquire_userSize hr
        exact hacq.zeroFilled
  | close k => exact Kept.stable.close h hs
  | clearShm =>
    obtain rfl := Option.some.inj hs
    exact h.unbind (Or.inr rfl)
  | clear p =>
    obtain rfl := Option.some.inj hs
    exact (Kept.stable.cachedShmPurge h).unbind cachedShmPurge_name

end Steps

/-! ## The handles and their mapping -/

/-- A cache or a handle has an `Arc` of the mapping. -/
def State.Refers (s : State π μ η) (m : μ) : π ⊕ η → Prop
  | .inl p => ∃ n, s.cache p = some (m, n)
  | .inr h => ∃ p, s.held h = some (p, m)

section Refers

variable {s s₁ : State π μ η}

theorem State.Refers.unique {m k : μ} {x : π ⊕ η} (h : s.Refers m x) (h' : s.Refers k x) : k = m := by
  cases x with
  | inl p =>
    obtain ⟨n, hn⟩ := h
    obtain ⟨n', hn'⟩ := h'
    exact (Prod.mk.inj (Option.some.inj (hn'.symm.trans hn))).1
  | inr i =>
    obtain ⟨p, hp⟩ := h
    obtain ⟨p', hp'⟩ := h'
    exact (Prod.mk.inj (Option.some.inj (hp'.symm.trans hp))).2

theorem refers_congr (hc : s₁.cache = s.cache) (hh : s₁.held = s.held) (m : μ) (x : π ⊕ η) :
    s₁.Refers m x ↔ s.Refers m x := by
  cases x with
  | inl p => simp only [State.Refers, hc]
  | inr i => simp only [State.Refers, hh]

variable [DecidableEq μ]

theorem dropMap_frame (m : μ) : (s.dropMap m).arcs = s.arcs ∧ (s.dropMap m).cache = s.cache ∧
    (s.dropMap m).held = s.held := by
  unfold State.dropMap
  split
  · exact ⟨rfl, rfl, rfl⟩
  · exact ⟨rfl, rfl, rfl⟩

theorem dropMap_maps (m k : μ) (hk : k ≠ m) : (s.dropMap m).maps k = s.maps k := by
  unfold State.dropMap
  split
  · exact update_of_ne hk _ _
  · rfl

theorem dropArc_frame (m : μ) : (s.dropArc m).arcs = update s.arcs m (s.arcs m - 1) ∧
    (s.dropArc m).cache = s.cache ∧ (s.dropArc m).held = s.held := by
  unfold State.dropArc
  dsimp only
  split_ifs
  · exact dropMap_frame m
  · exact ⟨rfl, rfl, rfl⟩

theorem dropArc_maps (m k : μ) (hk : k ≠ m ∨ 1 < s.arcs m) : (s.dropArc m).maps k = s.maps k := by
  unfold State.dropArc
  dsimp only
  split_ifs with hm
  · exact dropMap_maps m k (hk.resolve_right (not_lt.mpr hm))
  · rfl

end Refers

/-- The number of `Arc`s is right, and a mapping that has one is live. -/
structure Refs (s : State π μ η) : Prop where
  count : ∀ m, ∃ L : Finset (π ⊕ η), (∀ x, x ∈ L ↔ s.Refers m x) ∧ L.card = s.arcs m
  live : ∀ m, s.arcs m ≠ 0 → s.maps m ≠ none

namespace Refs

variable {s s₁ : State π μ η}

theorem congr (h : Refs s) (hr : ∀ m x, s₁.Refers m x ↔ s.Refers m x) (ha : s₁.arcs = s.arcs)
    (hm : ∀ m, s.arcs m ≠ 0 → s.maps m ≠ none → s₁.maps m ≠ none) : Refs s₁ := by
  refine ⟨fun m => ?_, fun m hm' => ?_⟩
  · obtain ⟨L, hL, hc⟩ := h.count m
    exact ⟨L, fun x => (hL x).trans (hr m x).symm, by rw [hc, ha]⟩
  · rw [ha] at hm'
    exact hm m hm' (h.live m hm')

theorem pos (h : Refs s) {m : μ} {x : π ⊕ η} (hx : s.Refers m x) : s.arcs m ≠ 0 := by
  obtain ⟨L, hL, hc⟩ := h.count m
  rw [← hc]
  exact Finset.card_ne_zero_of_mem ((hL x).mpr hx)

theorem recount [DecidableEq π] (h : Refs s) {p : π} {m : μ} {n n' : Nat} (hc : s.cache p = some (m, n)) :
    Refs { s with cache := update s.cache p (some (m, n')) } := by
  refine h.congr (fun k x => ?_) rfl fun _ _ hm => hm
  cases x with
  | inl q =>
    rcases eq_or_ne q p with rfl | hq
    · simp [State.Refers, hc]
    · simp [State.Refers, hq]
  | inr i => rfl

theorem cachedShmRelease_held [DecidableEq π] [DecidableEq μ] {p : π} : (s.cachedShmRelease p).held = s.held := by
  unfold State.cachedShmRelease
  split
  case h_1 m n hc =>
    split_ifs
    · exact (dropArc_frame m).2.2
    · rfl
  case h_2 => rfl

variable [DecidableEq π] [DecidableEq μ] [DecidableEq η]

theorem dropArc (h : Refs s) {m : μ} {x : π ⊕ η} (hx : s.Refers m x)
    (hr : ∀ k y, s₁.Refers k y ↔ s.Refers k y ∧ y ≠ x) (ha : s₁.arcs = s.arcs) (hm : s₁.maps = s.maps) :
    Refs (s₁.dropArc m) := by
  obtain ⟨harcs, hcache, hheld⟩ := dropArc_frame (s := s₁) m
  have hrefs : ∀ k y, (s₁.dropArc m).Refers k y ↔ s.Refers k y ∧ y ≠ x := by
    intro k y
    rw [refers_congr hcache hheld, hr]
  rw [ha] at harcs
  refine ⟨fun k => ?_, fun k hk => ?_⟩
  · obtain ⟨L, hL, hc⟩ := h.count k
    refine ⟨L.erase x, fun y => ?_, ?_⟩
    · rw [hrefs, Finset.mem_erase, hL, and_comm]
    · rw [harcs, update_apply]
      split_ifs with hkm
      · subst hkm
        rw [Finset.card_erase_of_mem ((hL x).mpr hx), hc]
      · rw [Finset.erase_eq_of_notMem fun hxL => hkm (hx.unique ((hL x).mp hxL)), hc]
  · rw [harcs, update_apply] at hk
    split_ifs at hk with hkm
    · rw [dropArc_maps m k (Or.inr (by rw [ha]; omega)), hm]
      exact h.live k (by rw [hkm]; omega)
    · rw [dropArc_maps m k (Or.inl hkm), hm]
      exact h.live k hk

theorem uncache (h : Refs s) {p : π} {m : μ} {n : Nat} (hc : s.cache p = some (m, n)) :
    Refs ({ s with cache := update s.cache p none }.dropArc m) := by
  refine h.dropArc (x := .inl p) ⟨n, hc⟩ (fun k y => ?_) rfl rfl
  cases y with
  | inl q =>
    rcases eq_or_ne q p with rfl | hq
    · simp [State.Refers]
    · simp [State.Refers, hq]
  | inr i => simp [State.Refers]

theorem cachedShmPurge (h : Refs s) {p : π} : Refs (s.cachedShmPurge p) := by
  unfold State.cachedShmPurge
  split
  case h_1 m n hc => exact h.uncache hc
  case h_2 => exact h

theorem cachedShmRelease (h : Refs s) {p : π} : Refs (s.cachedShmRelease p) := by
  unfold State.cachedShmRelease
  split
  case h_1 m n hc =>
    split_ifs
    · exact h.uncache hc
    · exact h.recount hc
  case h_2 => exact h

theorem unhold (h : Refs s) {i : η} {p : π} {m : μ} (hi : s.held i = some (p, m)) :
    Refs ({ s with held := update s.held i none }.dropArc m) := by
  refine h.dropArc (x := .inr i) ⟨p, hi⟩ (fun k y => ?_) rfl rfl
  cases y with
  | inl q => simp [State.Refers]
  | inr j =>
    rcases eq_or_ne j i with rfl | hj
    · simp [State.Refers]
    · simp [State.Refers, hj]

theorem addArc (h : Refs s) {m : μ} {x : π ⊕ η} (hx : ∀ k, ¬s.Refers k x)
    (hr : ∀ k y, s₁.Refers k y ↔ s.Refers k y ∨ (k = m ∧ y = x)) (ha : s₁.arcs = update s.arcs m (s.arcs m + 1))
    (hm : s₁.maps m ≠ none) (hk : ∀ k, k ≠ m → s₁.maps k = s.maps k) : Refs s₁ := by
  refine ⟨fun k => ?_, fun k hk' => ?_⟩
  · obtain ⟨L, hL, hc⟩ := h.count k
    rcases eq_or_ne k m with rfl | hkm
    · refine ⟨insert x L, fun y => ?_, ?_⟩
      · rw [hr, Finset.mem_insert, hL, or_comm]
        simp
      · rw [ha, update_self, Finset.card_insert_of_notMem fun hm => hx k ((hL x).mp hm), hc]
    · refine ⟨L, fun y => ?_, ?_⟩
      · rw [hr, hL]
        simp [hkm]
      · rw [ha, update_of_ne hkm, hc]
  · rcases eq_or_ne k m with rfl | hkm
    · exact hm
    · rw [ha, update_of_ne hkm] at hk'
      rw [hk k hkm]
      exact h.live k hk'

theorem hold (h : Refs s) {i : η} {p : π} {m : μ} {n : Nat} (hi : s.held i = none) (hc : s.cache p = some (m, n)) :
    Refs { s with arcs := update s.arcs m (s.arcs m + 1), held := update s.held i (some (p, m)) } := by
  refine h.addArc (x := .inr i) (m := m) ?_ (fun k y => ?_) rfl (h.live m (h.pos (x := .inl p) ⟨n, hc⟩)) fun _ _ => rfl
  · rintro k ⟨q, hq⟩
    exact absurd (hi.symm.trans hq) nofun
  · cases y with
    | inl q => simp [State.Refers]
    | inr j =>
      rcases eq_or_ne j i with rfl | hj
      · simp [State.Refers, hi, eq_comm]
      · simp [State.Refers, hj]

theorem first (h : Refs s) {i : η} {p : π} {m : μ} {st : Store} {g : Handle} (hi : s.held i = none)
    (hc : s.cache p = none)
    (hm : s.maps m = none) :
    Refs { s.setMap st m (some g) with
      cache := update s.cache p (some (m, 1))
      arcs := update s.arcs m 2
      held := update s.held i (some (p, m)) } := by
  have h0 : s.arcs m = 0 := by
    by_contra hne
    exact h.live m hne hm
  have hcache : Refs { s.setMap st m (some g) with
      cache := update s.cache p (some (m, 1))
      arcs := update s.arcs m (s.arcs m + 1) } := by
    refine h.addArc (x := .inl p) (m := m) ?_ (fun k y => ?_) rfl ?_ fun k hk => update_of_ne hk _ _
    · rintro k ⟨n, hn⟩
      exact absurd (hc.symm.trans hn) nofun
    · cases y with
      | inl q =>
        rcases eq_or_ne q p with rfl | hq
        · simp [State.Refers, hc, eq_comm]
        · simp [State.Refers, hq]
      | inr j => simp [State.Refers, State.setMap]
    · show update s.maps m (some g) m ≠ none
      rw [update_self]
      exact nofun
  have hboth := hcache.hold (i := i) (p := p) (m := m) (n := 1) hi (update_self _ _ _)
  simp only [h0, update_self, update_idem] at hboth
  exact hboth

theorem step {P : Platform} {a : Act π μ η} (h : Refs s) (hs : s.step P a = some s₁) : Refs s₁ := by
  cases a with
  | acquire m n mode fault =>
    simp only [State.step] at hs
    split at hs
    case h_2 => exact absurd hs nofun
    case h_1 hm =>
      obtain rfl := Option.some.inj hs
      refine h.congr (fun _ _ => refers_congr rfl rfl _ _) rfl fun k hk hk' => ?_
      have hkm : k ≠ m := fun he => hk' (he ▸ hm)
      exact (update_of_ne hkm _ _).trans_ne hk'
  | drop m =>
    simp only [State.step] at hs
    split_ifs at hs with hm
    obtain rfl := Option.some.inj hs
    obtain ⟨harcs, hcache, hheld⟩ := dropMap_frame (s := s) m
    refine h.congr (fun _ _ => refers_congr hcache hheld _ _) harcs fun k hk hk' => ?_
    have hkm : k ≠ m := fun he => hk (he ▸ hm.1)
    rwa [dropMap_maps m k hkm]
  | «open» p k m n fault =>
    simp only [State.step] at hs
    split_ifs at hs with hk
    obtain rfl := Option.some.inj hs
    unfold State.cachedShmAcquire
    split
    case h_1 m' n' hc => exact (h.recount hc).hold hk.1 (update_self _ _ _)
    case h_2 hc =>
      split
      case h_1 => exact h.congr (fun _ _ => refers_congr rfl rfl _ _) rfl fun _ _ hk => hk
      case h_2 => exact h.first hk.1 hc (hk.2 hc)
  | close k =>
    simp only [State.step] at hs
    split at hs
    case h_2 => exact absurd hs nofun
    case h_1 p m hk =>
      obtain rfl := Option.some.inj hs
      exact h.cachedShmRelease.unhold (by rw [cachedShmRelease_held]; exact hk)
  | clearShm =>
    obtain rfl := Option.some.inj hs
    exact h.congr (fun _ _ => refers_congr rfl rfl _ _) rfl fun _ _ hk => hk
  | clear p =>
    obtain rfl := Option.some.inj hs
    exact (h.cachedShmPurge (p := p)).congr (fun _ _ => refers_congr rfl rfl _ _) rfl fun _ _ hk => hk

end Refs

/-! ## Runs -/

structure State.New (s : State π μ η) : Prop where
  name : s.store.name = none
  maps : ∀ m, s.maps m = none
  arcs : ∀ m, s.arcs m = 0
  cache : ∀ p, s.cache p = none
  held : ∀ h, s.held h = none

theorem State.New.refs {s : State π μ η} (h : s.New) : Refs s := by
  refine ⟨fun m => ⟨∅, fun x => ?_, ?_⟩, fun m hm => absurd (h.arcs m) hm⟩
  · cases x with
    | inl p => simp [State.Refers, h.cache]
    | inr i => simp [State.Refers, h.held]
  · rw [h.arcs m, Finset.card_empty]

theorem State.New.mine {s : State π μ η} (h : s.New) : Mine s := by
  intro m g o hm
  rw [h.maps] at hm
  exact absurd hm nofun

theorem State.New.kept {s : State π μ η} (h : s.New) : Kept s := by
  have hg : Grow.State.New (⟨s.store, s.maps⟩ : Grow.State μ) := ⟨h.name, h.maps⟩
  exact Or.inl hg.inv

variable [DecidableEq π] [DecidableEq μ] [DecidableEq η]

/-- **An object created after a clear is safe from older handles.** Every live mapping is one of the object that the
name is bound to; and if the mappings are of one size and not too many, the name of an object that was not cleared is
bound while it is mapped. -/
theorem clear_safe {P : Platform} {s₀ s : State π μ η} {acts : List (Act π μ η)} (h₀ : s₀.New)
    (hr : Run (State.step P) (alone P) s₀ acts s) :
    (∀ m g o, s.maps m = some g → s.store.name = some o → g.obj = o) ∧
      (∀ h p m, s.held h = some (p, m) → s.maps m ≠ none) ∧
      (Run (State.step P) (fun s a => alone P s a ∧ even P s a) s₀ acts s →
        ∀ m g, s.maps m = some g → s.store.name = some g.obj ∨ s.cleared g.obj = true) := by
  have hmine : Mine s := hr.inv Mine h₀.mine fun _ _ _ h ha hs => h.step ha hs
  have hrefs : Refs s := hr.inv Refs h₀.refs fun _ _ _ h _ hs => h.step hs
  refine ⟨hmine, fun h p m hh => hrefs.live m (hrefs.pos (x := .inr h) ⟨p, hh⟩), fun hr' m g hm => ?_⟩
  have hkept : Kept s := hr'.inv Kept h₀.kept fun _ _ _ h ha hs => h.step ha.1 ha.2 hs
  rcases hkept with hk | ⟨-, hc⟩
  · exact Or.inl (hk.bound m g hm)
  · exact Or.inr (hc m g hm)

instance [Fintype μ] (P : Platform) (s : State π μ η) (a : Act π μ η) : Decidable (alone P s a) := by
  unfold alone
  split <;> infer_instance

instance [Fintype μ] (P : Platform) (s : State π μ η) (a : Act π μ η) : Decidable (even P s a) := by
  unfold even
  split <;> infer_instance

/-- No object; one process, two mappings and two handles to be. -/
def fresh : State (Fin 1) (Fin 2) (Fin 2) :=
  ⟨⟨none, fun _ => ⟨0, fun _ => 0⟩, 0⟩, fun _ => none, fun _ => 0, fun _ => none, fun _ => none, fun _ => false⟩

theorem fresh_new : fresh.New := ⟨rfl, fun _ => rfl, fun _ => rfl, fun _ => rfl, fun _ => rfl⟩

/-- Two handles share a mapping, the name is cleared, they are dropped; it is opened again, and a second mapping is
dropped. -/
def reopenActs : List (Act (Fin 1) (Fin 2) (Fin 2)) :=
  [.open 0 0 0 4 none, .open 0 1 1 4 none, .clear 0, .close 0, .close 1, .open 0 0 1 4 none,
    .acquire 0 4 .createOrOpen none, .drop 0]

theorem clear_safe_reopen : ∃ s, Run (State.step linux) (alone linux) fresh reopenActs s ∧
    s.maps 1 = some ⟨1, 8, 4, 0⟩ ∧ s.cleared 0 = true ∧ s.store.name = some 1 ∧ s.held 0 = some (0, 1) ∧
    s.maps 1 ≠ none := by
  obtain ⟨s, hrun, hx⟩ := exists_run (State.step linux) (fun s a => alone linux s a ∧ even linux s a) fresh
    reopenActs (fun s => (s.maps 1, s.cleared 0, s.cleared 1, s.held 0))
    (x := (some ⟨1, 8, 4, 0⟩, true, false, some (0, 1))) (by decide +kernel)
  simp only [Prod.mk.injEq] at hx
  obtain ⟨h1, hc0, hc1, hh⟩ := hx
  have hrun' : Run (State.step linux) (alone linux) fresh reopenActs s := hrun.mono fun _ _ h => h.1
  obtain ⟨-, hheld, hname⟩ := clear_safe fresh_new hrun'
  rcases hname hrun 1 _ h1 with hn | hc
  · exact ⟨s, hrun', h1, hc0, hn, hh, hheld 0 0 1 hh⟩
  · exact absurd (hc1.symm.trans hc) nofun

/-- **A drop unlinks by name.** The name is cleared while mapping 0 is live, and mapping 1 creates a new object under
it, which dropping mapping 0 unlinks. -/
theorem unlinked_by_old_handle : ∃ s s', Run (State.step linux) (fun _ _ => True) fresh
    [.acquire 0 4 .createOrOpen none, .clearShm, .acquire 1 4 .createOrOpen none] s ∧
      s.step linux (.drop 0) = some s' ∧ s.maps 0 = some ⟨0, 8, 4, 0⟩ ∧ s.store.name = some 1 ∧
      s'.store.name = none ∧ s'.maps 1 = some ⟨1, 8, 4, 0⟩ ∧ s'.cleared 1 = false := by
  obtain ⟨s, hrun, hx⟩ := exists_run (State.step linux) (fun _ _ => True) fresh
    [.acquire 0 4 .createOrOpen none, .clearShm, .acquire 1 4 .createOrOpen none]
    (fun s => (decide (s.maps 0 = some ⟨0, 8, 4, 0⟩ ∧ s.store.name = some 1),
      (s.step linux (.drop 0)).map fun (t : State (Fin 1) (Fin 2) (Fin 2)) =>
        decide (t.store.name = none ∧ t.maps 1 = some ⟨1, 8, 4, 0⟩ ∧ t.cleared 1 = false)))
    (x := (true, some true)) (by decide +kernel)
  simp only [Prod.mk.injEq, Option.map_eq_some_iff, decide_eq_true_eq] at hx
  obtain ⟨⟨h0, hn⟩, s', hs', hn', h1, hc⟩ := hx
  exact ⟨s, s', hrun, hs', h0, hn, hn', h1, hc⟩

end ThothIpc.Shm.Clear
