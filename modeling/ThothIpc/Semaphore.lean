import ThothIpc.Lib.Run

/-!
# The semaphore of macOS

`semaphore.rs`, `AppleSemaphore`: a count in shared memory. `open` maps it, which increments the reference count, then
loads that count and stores the initial value if it is not above 1. `post` increments the count, `wait` decrements it by
an exchange and sleeps while it is 0.

* `Pc`, `State.step` : the accesses of any number of threads, which open the semaphore or are handed an open one;
* `settled` : nobody opens it while the first opener has still to store the initial value;
* `count_kept` : under `settled` the count is the initial value and the posts, less the successful waits.

`posts` and `waits` count the increments and the successful exchanges so far.
-/

namespace ThothIpc.Semaphore
open Function Steps

/-- Where a thread stands in `open` (with the reference count before its increment), `post` (with what is left to post)
or `wait` (with or without a timeout). -/
inductive Pc where
  | closed
  | check (prev : BitVec 32)
  | store
  | ready
  | add (left : Nat)
  | wake (left : Nat)
  | load (timed : Bool)
  | cas (timed : Bool) (cur : BitVec 32)
  | sleep (timed : Bool)
  | asleep (timed : Bool)
  deriving DecidableEq, Repr

def Pc.opened : Pc → Bool
  | closed => false
  | check _ => false
  | store => false
  | _ => true

structure State (τ : Type) where
  refCount : BitVec 32
  count : BitVec 32
  pcs : τ → Pc
  posts : Nat
  waits : Nat

/-- What a thread does next; it may be handed an open semaphore by a thread of its process. -/
inductive Act (τ : Type) where
  | open
  | share (u : τ)
  | post (count : Nat)
  | wait (timed : Bool)
  | go
  | fail
  | wakeup
  | timeout
  deriving DecidableEq, Repr

variable {τ : Type}

section Step

variable [DecidableEq τ]

def State.set (s : State τ) (t : τ) (pc : Pc) : State τ := { s with pcs := update s.pcs t pc }

/-- The loop of `wait` with the value it has loaded. -/
def Pc.tryTake (timed : Bool) (cur : BitVec 32) : Pc := if cur = 0 then .sleep timed else .cas timed cur

/-- The next access; `c` is the initial count. -/
def State.go (c : BitVec 32) (s : State τ) (t : τ) : Option (State τ) :=
  match s.pcs t with
  | .closed => none
  | .check _ => some (s.set t (if s.refCount.sle 1 then .store else .ready))
  | .store => some { s.set t .ready with count := c }
  | .ready => none
  | .add left => some { s.set t (.wake left) with count := s.count + 1, posts := s.posts + 1 }
  | .wake left => some (s.set t (if left = 0 then .ready else .add (left - 1)))
  | .load timed => some (s.set t (.tryTake timed s.count))
  | .cas timed cur =>
    if s.count = cur then some { s.set t .ready with count := cur - 1, waits := s.waits + 1 }
    else some (s.set t (.tryTake timed s.count))
  | .sleep timed => some (s.set t (if s.count = 0 then .asleep timed else .load timed))
  | .asleep _ => none

def State.step (c : BitVec 32) (s : State τ) (a : τ × Act τ) : Option (State τ) :=
  let t := a.1
  match a.2, s.pcs t with
  | .open, .closed => some { s.set t (.check s.refCount) with refCount := s.refCount + 1 }
  | .share u, .closed => if (s.pcs u).opened then some (s.set t .ready) else none
  | .post count, .ready => some (s.set t (if count = 0 then .ready else .add (count - 1)))
  | .wait timed, .ready => some (s.set t (.load timed))
  | .go, _ => s.go c t
  | .fail, .cas timed _ => some (s.set t (.tryTake timed s.count))
  | .wakeup, .asleep timed => some (s.set t (.load timed))
  | .timeout, .sleep true => some (s.set t .ready)
  | .timeout, .asleep true => some (s.set t .ready)
  | _, _ => none

end Step

/-- Nobody opens the semaphore while the opener that has found no reference is still opening it, or when the reference
count is `i32::MAX`. -/
def settled (s : State τ) (a : τ × Act τ) : Prop :=
  match a.2, s.pcs a.1 with
  | .open, .closed => s.refCount ≠ 0x7fffffff ∧ ∀ t, s.pcs t ≠ .check 0 ∧ s.pcs t ≠ .store
  | _, _ => True

/-! ## The invariant -/

/-- The count is what it should be, and exactly so unless the posts have made it overflow. -/
structure Balanced (c : BitVec 32) (s : State τ) : Prop where
  wrap : s.count = c + BitVec.ofNat 32 s.posts - BitVec.ofNat 32 s.waits
  plain : c.toNat + s.posts < 2 ^ 32 → s.count.toNat + s.waits = c.toNat + s.posts

/-- The semaphore is open, and nobody will store the initial count again. -/
structure Open (c : BitVec 32) (s : State τ) : Prop where
  refCount : 0 < s.refCount.toNat ∧ s.refCount.toNat < 2 ^ 31
  balanced : Balanced c s
  store : ∀ t, s.pcs t ≠ .store
  check : ∀ t prev, s.pcs t = .check prev → prev ≠ 0 ∧ 1 < s.refCount.toNat
  cas : ∀ t timed cur, s.pcs t = .cas timed cur → cur ≠ 0

/-- Nobody has opened it; or one thread is about to store the initial count, and nobody else has it; or it is open. -/
inductive Inv (c : BitVec 32) (s : State τ) : Prop
  | fresh (href : s.refCount = 0) (hpc : ∀ t, s.pcs t = .closed) (hops : s.posts = 0 ∧ s.waits = 0)
  | first (t : τ) (href : s.refCount = 1) (ht : s.pcs t = .check 0 ∨ s.pcs t = .store)
      (hpc : ∀ u, u ≠ t → s.pcs u = .closed) (hops : s.posts = 0 ∧ s.waits = 0)
  | «open» (h : Open c s)

namespace Balanced

variable {c : BitVec 32} {s : State τ}

theorem ofNat_succ (n : Nat) : BitVec.ofNat 32 (n + 1) = BitVec.ofNat 32 n + 1 := BitVec.ofNat_add n 1

theorem start {s : State τ} (hc : s.count = c) (hops : s.posts = 0 ∧ s.waits = 0) : Balanced c s := by
  refine ⟨?_, fun _ => ?_⟩
  · rw [hops.1, hops.2, hc]
    simp
  · rw [hops.1, hops.2, hc]

theorem post {s' : State τ} (h : Balanced c s) (hc : s'.count = s.count + 1) (hp : s'.posts = s.posts + 1)
    (hw : s'.waits = s.waits) : Balanced c s' := by
  refine ⟨?_, fun hlt => ?_⟩
  · rw [hc, hp, hw, h.wrap, ofNat_succ]
    ring
  · rw [hp] at hlt
    have := h.plain (by omega)
    rw [hc, hp, hw, BitVec.toNat_add, Nat.mod_eq_of_lt]
    · show s.count.toNat + 1 + s.waits = _
      omega
    · show s.count.toNat + 1 < _
      omega

theorem wait {s' : State τ} (h : Balanced c s) (h0 : s.count ≠ 0) (hc : s'.count = s.count - 1) (hp : s'.posts = s.posts)
    (hw : s'.waits = s.waits + 1) : Balanced c s' := by
  refine ⟨?_, fun hlt => ?_⟩
  · rw [hc, hp, hw, h.wrap, ofNat_succ]
    ring
  · rw [hp] at hlt
    have hex := h.plain hlt
    have hpos : 0 < s.count.toNat := by
      rw [Nat.pos_iff_ne_zero]
      exact fun he => h0 (BitVec.eq_of_toNat_eq he)
    have hsub : (s.count - 1).toNat = s.count.toNat - 1 := by
      rw [BitVec.toNat_sub_of_le]
      · rfl
      · rw [BitVec.le_def]
        exact hpos
    rw [hc, hp, hw, hsub]
    omega

end Balanced

section Steps

variable [DecidableEq τ] {c : BitVec 32} {s s' : State τ} {t : τ}

namespace Open

theorem move (h : Open c s) {pc : Pc} (hs : s'.pcs = update s.pcs t pc) (href : s'.refCount = s.refCount)
    (hb : Balanced c s') (hst : pc ≠ .store) (hck : ∀ prev, pc ≠ .check prev)
    (hcas : ∀ timed cur, pc = .cas timed cur → cur ≠ 0) : Open c s' := by
  refine ⟨by rw [href]; exact h.refCount, hb, ?_, ?_, ?_⟩
  · rw [hs]
    exact (forall_update_iff _ fun _ (pc : Pc) => pc ≠ .store).mpr ⟨hst, fun i _ => h.store i⟩
  · rw [hs, href]
    exact (forall_update_iff _ fun _ (pc : Pc) => ∀ prev, pc = .check prev → prev ≠ 0 ∧
      1 < s.refCount.toNat).mpr
      ⟨fun prev hp => absurd hp (hck prev), fun i _ => h.check i⟩
  · rw [hs]
    exact (forall_update_iff _ fun _ (pc : Pc) => ∀ timed cur, pc = .cas timed cur → cur ≠ 0).mpr
      ⟨hcas, fun i _ => h.cas i⟩

theorem pass (h : Open c s) {pc : Pc} (hst : pc ≠ .store) (hck : ∀ prev, pc ≠ .check prev)
    (hcas : ∀ timed cur, pc = .cas timed cur → cur ≠ 0) : Open c (s.set t pc) :=
  h.move rfl rfl ⟨h.balanced.wrap, h.balanced.plain⟩ hst hck hcas

theorem tryTake (h : Open c s) (timed : Bool) (cur : BitVec 32) : Open c (s.set t (.tryTake timed cur)) := by
  unfold Pc.tryTake
  split_ifs with hcur
  · exact h.pass nofun nofun nofun
  · refine h.pass nofun nofun fun timed' cur' he => ?_
    obtain ⟨-, rfl⟩ := Pc.cas.inj he
    exact hcur

theorem opens (h : Open c s) (hmax : s.refCount ≠ 0x7fffffff) :
    Open c { s.set t (.check s.refCount) with refCount := s.refCount + 1 } := by
  have hlt : s.refCount.toNat + 1 < 2 ^ 31 := by
    have hne : s.refCount.toNat ≠ 2 ^ 31 - 1 := fun he => hmax (BitVec.eq_of_toNat_eq he)
    have := h.refCount.2
    omega
  have hnat : (s.refCount + 1).toNat = s.refCount.toNat + 1 := by
    rw [BitVec.toNat_add, Nat.mod_eq_of_lt]
    · rfl
    · show s.refCount.toNat + 1 < _
      omega
  refine ⟨?_, ⟨h.balanced.wrap, h.balanced.plain⟩, ?_, ?_, ?_⟩
  · show 0 < (s.refCount + 1).toNat ∧ _
    rw [hnat]
    exact ⟨Nat.succ_pos _, hlt⟩
  · exact (forall_update_iff _ fun _ (pc : Pc) => pc ≠ .store).mpr ⟨nofun, fun i _ => h.store i⟩
  · intro i prev hi
    show prev ≠ 0 ∧ 1 < (s.refCount + 1).toNat
    rw [hnat]
    have hpos := h.refCount.1
    refine ⟨?_, by omega⟩
    rcases eq_or_ne i t with rfl | hit
    · simp only [State.set, update_self, Pc.check.injEq] at hi
      rintro rfl
      rw [hi] at hpos
      exact absurd hpos (by decide)
    · simp only [State.set, update_of_ne hit] at hi
      exact (h.check i prev hi).1
  · exact (forall_update_iff _ fun _ (pc : Pc) => ∀ timed cur, pc = .cas timed cur → cur ≠ 0).mpr
      ⟨nofun, fun i _ => h.cas i⟩

theorem go (h : Open c s) (hs : s.go c t = some s') : Open c s' := by
  unfold State.go at hs
  split at hs
  case h_1 => exact absurd hs nofun
  case h_2 prev hpc =>
    obtain rfl := Option.some.inj hs
    -- it sees at least two references
    have href : s.refCount.sle 1 = false := by
      have := (h.check t prev hpc).2
      have hlt := h.refCount.2
      have hint : s.refCount.toInt = s.refCount.toNat := BitVec.toInt_eq_toNat_of_lt (by omega)
      rw [BitVec.sle_eq_decide, decide_eq_false_iff_not, not_le, hint, show (1 : BitVec 32).toInt = 1 from rfl]
      omega
    rw [href]
    exact h.pass nofun nofun nofun
  case h_3 hpc => exact absurd hpc (h.store t)
  case h_4 => exact absurd hs nofun
  case h_5 left hpc =>
    obtain rfl := Option.some.inj hs
    exact h.move rfl rfl (h.balanced.post rfl rfl rfl) nofun nofun nofun
  case h_6 left hpc =>
    obtain rfl := Option.some.inj hs
    split_ifs
    · exact h.pass nofun nofun nofun
    · exact h.pass nofun nofun nofun
  case h_7 timed hpc =>
    obtain rfl := Option.some.inj hs
    exact h.tryTake timed _
  case h_8 timed cur hpc =>
    split_ifs at hs with hc
    · obtain rfl := Option.some.inj hs
      have hcur : s.count ≠ 0 := hc ▸ h.cas t timed cur hpc
      exact h.move rfl rfl (h.balanced.wait hcur (by rw [hc]) rfl rfl) nofun nofun nofun
    · obtain rfl := Option.some.inj hs
      exact h.tryTake timed _
  case h_9 timed hpc =>
    obtain rfl := Option.some.inj hs
    split_ifs
    · exact h.pass nofun nofun nofun
    · exact h.pass nofun nofun nofun
  case h_10 => exact absurd hs nofun

end Open

omit [DecidableEq τ] in
theorem Inv.opened (h : Inv c s) (ht : (s.pcs t).opened = true) : Open c s := by
  cases h with
  | fresh href hpc hops =>
    rw [hpc] at ht
    exact absurd ht nofun
  | first u href hu hpc hops =>
    rcases eq_or_ne t u with rfl | htu
    · rcases hu with hu | hu
      · rw [hu] at ht
        exact absurd ht nofun
      · rw [hu] at ht
        exact absurd ht nofun
    · rw [hpc t htu] at ht
      exact absurd ht nofun
  | «open» h => exact h

theorem Inv.opens (h : Inv c s)
    (hok : s.refCount ≠ 0x7fffffff ∧ ∀ i, s.pcs i ≠ .check 0 ∧ s.pcs i ≠ .store) :
    Inv c { s.set t (.check s.refCount) with refCount := s.refCount + 1 } := by
  cases h with
  | fresh href hcl hops =>
    refine .first t ?_ (Or.inl ?_) (fun u hu => ?_) hops
    · show s.refCount + 1 = 1
      rw [href]
      rfl
    · show update s.pcs t (.check s.refCount) t = .check 0
      rw [update_self, href]
    · show update s.pcs t (.check s.refCount) u = .closed
      rw [update_of_ne hu, hcl]
  | first u href hu hcl hops =>
    rcases hu with hu | hu
    · exact absurd hu (hok.2 u).1
    · exact absurd hu (hok.2 u).2
  | «open» h => exact .open (h.opens hok.1)

theorem Inv.go (h : Inv c s) (hs : s.go c t = some s') : Inv c s' := by
  cases h with
  | fresh href hcl hops =>
    unfold State.go at hs
    rw [hcl] at hs
    exact absurd hs nofun
  | first u href hu hcl hops =>
    unfold State.go at hs
    rcases eq_or_ne t u with rfl | htu
    · rcases hu with hu | hu
      · rw [hu] at hs
        obtain rfl := Option.some.inj hs
        refine .first t href (Or.inr ?_) (fun i hi => ?_) hops
        · show update s.pcs t _ t = .store
          rw [update_self, href]
          rfl
        · show update s.pcs t _ i = .closed
          rw [update_of_ne hi, hcl i hi]
      · -- the initial count is stored, and nobody has posted or waited
        rw [hu] at hs
        obtain rfl := Option.some.inj hs
        have hpcs : ∀ i, update s.pcs t .ready i = .ready ∨ update s.pcs t .ready i = .closed :=
          (forall_update_iff _ fun _ (pc : Pc) => pc = .ready ∨ pc = .closed).mpr
            ⟨Or.inl rfl, fun i hi => Or.inr (hcl i hi)⟩
        refine .open ⟨?_, .start rfl hops, fun i hi => ?_, fun i prev hi => ?_, fun i timed cur hi => ?_⟩
        · show 0 < s.refCount.toNat ∧ s.refCount.toNat < 2 ^ 31
          rw [href]
          decide
        · rcases hpcs i with he | he
          · exact absurd (he.symm.trans hi) nofun
          · exact absurd (he.symm.trans hi) nofun
        · rcases hpcs i with he | he
          · exact absurd (he.symm.trans hi) nofun
          · exact absurd (he.symm.trans hi) nofun
        · rcases hpcs i with he | he
          · exact absurd (he.symm.trans hi) nofun
          · exact absurd (he.symm.trans hi) nofun
    · rw [hcl t htu] at hs
      exact absurd hs nofun
  | «open» h => exact .open (h.go hs)

theorem Inv.step {a : τ × Act τ} (h : Inv c s) (hok : settled s a) (hs : s.step c a = some s') : Inv c s' := by
  obtain ⟨t, a⟩ := a
  unfold State.step at hs
  dsimp only at hs
  split at hs
  case h_1 hpc =>
    obtain rfl := Option.some.inj hs
    simp only [settled, hpc] at hok
    exact h.opens hok
  case h_2 u hpc =>
    split_ifs at hs with hu
    obtain rfl := Option.some.inj hs
    exact .open ((h.opened hu).pass nofun nofun nofun)
  case h_3 count hpc =>
    obtain rfl := Option.some.inj hs
    have ho : Open c s := h.opened (t := t) (by rw [hpc]; rfl)
    split_ifs
    · exact .open (ho.pass nofun nofun nofun)
    · exact .open (ho.pass nofun nofun nofun)
  case h_4 timed hpc =>
    obtain rfl := Option.some.inj hs
    exact .open ((h.opened (t := t) (by rw [hpc]; rfl)).pass nofun nofun nofun)
  case h_5 => exact h.go hs
  case h_6 timed cur hpc =>
    obtain rfl := Option.some.inj hs
    exact .open ((h.opened (t := t) (by rw [hpc]; rfl)).tryTake timed _)
  case h_10 => exact absurd hs nofun
  -- a waiter wakes up, or gives up
  all_goals
    rename_i hpc
    obtain rfl := Option.some.inj hs
    exact .open ((h.opened (t := t) (by rw [hpc]; rfl)).pass nofun nofun nofun)

end Steps

/-! ## Runs -/

structure State.New (s : State τ) : Prop where
  refCount : s.refCount = 0
  pcs : ∀ t, s.pcs t = .closed
  ops : s.posts = 0 ∧ s.waits = 0

variable [DecidableEq τ]

/-- **No post and no wait is lost.** Once an open has completed, the count is the initial one and the posts, less the
successful waits, as long as it does not overflow. -/
theorem count_kept {c : BitVec 32} {s₀ s : State τ} {acts : List (τ × Act τ)} (h₀ : s₀.New)
    (hr : Run (State.step c) settled s₀ acts s) {t : τ} (ht : (s.pcs t).opened = true) :
    s.count = c + BitVec.ofNat 32 s.posts - BitVec.ofNat 32 s.waits ∧
      (c.toNat + s.posts < 2 ^ 32 → s.count.toNat + s.waits = c.toNat + s.posts) := by
  have hinv : Inv c s := hr.inv (Inv c) (.fresh h₀.refCount h₀.pcs h₀.ops) fun _ _ _ h hok hs => h.step hok hs
  exact ⟨(hinv.opened ht).balanced.wrap, (hinv.opened ht).balanced.plain⟩

instance [Fintype τ] (s : State τ) (a : τ × Act τ) : Decidable (settled s a) := by
  unfold settled
  split <;> infer_instance

def fresh : State (Fin 2) := ⟨0, 0, fun _ => .closed, 0, 0⟩

theorem fresh_new : fresh.New := ⟨rfl, fun _ => rfl, rfl, rfl⟩

/-- Process 0 opens the semaphore, then process 1; process 1 posts twice, and process 0 waits. -/
def useActs : List (Fin 2 × Act (Fin 2)) :=
  [(0, .open), (0, .go), (0, .go), (1, .open), (1, .go), (1, .post 2)] ++ List.replicate 4 (1, .go) ++
    [(0, .wait false), (0, .go), (0, .go)]

theorem count_kept_use : ∃ s, Run (State.step 3) settled fresh useActs s ∧ s.pcs 0 = .ready ∧ s.posts = 2 ∧ s.waits = 1 ∧
    s.count = 3 + BitVec.ofNat 32 s.posts - BitVec.ofNat 32 s.waits ∧ s.count.toNat + s.waits = 3 + s.posts := by
  refine exists_run_imp (fun s => s.pcs 0 = .ready ∧ s.posts = 2 ∧ s.waits = 1) (by decide +kernel) fun s hrun hx => ?_
  obtain ⟨hpc, hp, hw⟩ := hx
  obtain ⟨hwrap, hexact⟩ := count_kept fresh_new hrun (t := 0) (by rw [hpc]; rfl)
  exact ⟨hpc, hp, hw, hwrap, hexact (by rw [hp]; decide)⟩

/-- **Being the first opener is decided by a later load.** Both processes map the semaphore before either loads the
count, and nobody stores the initial 3; or process 1 posts between the load and the store of process 0. -/
theorem count_lost :
    (∃ s, Run (State.step 3) (fun _ _ => True) fresh [(0, .open), (1, .open), (0, .go), (1, .go)] s ∧
      s.pcs 0 = .ready ∧ s.pcs 1 = .ready ∧ s.count = 0 ∧ s.posts = 0 ∧ s.waits = 0) ∧
    ∃ s, Run (State.step 3) (fun _ _ => True) fresh
      [(0, .open), (0, .go), (1, .open), (1, .go), (1, .post 1), (1, .go), (1, .go), (0, .go)] s ∧
        s.pcs 0 = .ready ∧ s.pcs 1 = .ready ∧ s.count = 3 ∧ s.posts = 1 ∧ s.waits = 0 := by
  constructor
  · exact exists_run_of (by decide +kernel)
  · exact exists_run_of (by decide +kernel)

end ThothIpc.Semaphore
