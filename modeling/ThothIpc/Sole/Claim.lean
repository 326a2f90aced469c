import ThothIpc.Lib.Run
import ThothIpc.Liveness
import ThothIpc.Process

/-!
# The sole-sender record

A route's single sender is recorded by pid and start token. `claim_sole_owner` takes the record when it is free or its
holder is dead: it swaps the pid for a marker, then stores its token and its pid. `release_sole_owner` clears the token
and swaps the pid for 0. Both words are read and written one at a time.

* `ClaimPc`, `RelPc` : where a process stands in the two calls, one access per step;
* `claimSoleOwner`, `releaseSoleOwner` : the calls as wholes;
* `State.step` : any number of processes that claim, release, start and die;
* `sole_holder` : at most one live process holds the record, if no claimant acts on a token that is no longer there;
* `holder_taken_over` : without that a live holder is taken over.
-/

namespace ThothIpc.Sole
open Function Steps

/-! ## The two calls -/

/-- `OWNER_CLAIMING`: a claim is in flight. -/
def ownerClaiming : Int := -1

/-- Where a process stands in `claim_sole_owner`, with the pid and the token it has loaded. -/
inductive ClaimPc where
  | loadPid
  | loadTok (cur : Int)
  | check (cur : Int) (tok : Nat)
  | cas (cur : Int) (tok : Nat)
  | storeTok
  | storePid
  deriving DecidableEq, Repr

/-- The next access of `claim_sole_owner` by the process with `pid` and `tok`: on with the call, or its result. -/
def ClaimPc.step (token : Int → Option Nat) (pid : Int) (tok : Nat) (o : SlotOwner) : ClaimPc →
    SlotOwner × (ClaimPc ⊕ Bool)
  | .loadPid =>
    if o.pid = ownerClaiming then (o, .inr false)
    else if o.pid = 0 then (o, .inl (.cas 0 0))
    else (o, .inl (.loadTok o.pid))
  | .loadTok cur => (o, .inl (.check cur o.startTok))
  | .check cur t => (o, if isProcessAlive token cur t then .inr false else .inl (.cas cur t))
  | .cas cur _ =>
    if o.pid = cur then ({ o with pid := ownerClaiming }, .inl .storeTok) else (o, .inr false)
  | .storeTok => ({ o with startTok := tok }, .inl .storePid)
  | .storePid => ({ o with pid := pid }, .inr true)

inductive RelPc where
  | load
  | tok
  | cas
  deriving DecidableEq, Repr

/-- The next access of `release_sole_owner`; nothing is left to do when it returns. -/
def RelPc.step (pid : Int) (o : SlotOwner) : RelPc → SlotOwner × Option RelPc
  | .load => (o, if o.pid = pid then some .tok else none)
  | .tok => ({ o with startTok := 0 }, some .cas)
  | .cas => (if o.pid = pid then { o with pid := 0 } else o, none)

/-! ## The system -/

inductive Pc where
  | idle
  | claim (c : ClaimPc)
  | release (r : RelPc)
  deriving DecidableEq, Repr

variable {π : Type} {W : World π}

/-- The record and the processes. `holds` : who has an unreleased successful claim; `recorded` : whose store the pid
in the record is. -/
structure State (W : World π) where
  os : Os W
  owner : SlotOwner
  pc : π → Pc
  holds : π → Bool
  recorded : Option π

inductive Act (π : Type) where
  | spawn (q : π)
  | kill (q : π)
  | claim (q : π)
  | release (q : π)
  | go (q : π)
  deriving DecidableEq, Repr

variable [DecidableEq π]

def State.claimStep (s : State W) (q : π) (c : ClaimPc) : State W :=
  match c.step s.os.token (W.pid q) (W.tok q) s.owner with
  | (o, .inl c') =>
    { s with
      owner := o
      pc := update s.pc q (.claim c')
      recorded := if c' = .storeTok then none else s.recorded }
  | (o, .inr false) => { s with owner := o, pc := update s.pc q .idle }
  | (o, .inr true) =>
    { s with
      owner := o
      pc := update s.pc q .idle
      holds := update s.holds q true
      recorded := some q }

def State.releaseStep (s : State W) (q : π) (r : RelPc) : State W :=
  match r.step (W.pid q) s.owner with
  | (o, some r') => { s with owner := o, pc := update s.pc q (.release r') }
  | (o, none) =>
    { s with
      owner := o
      pc := update s.pc q .idle
      holds := update s.holds q false
      recorded := if o.pid = 0 then none else s.recorded }

def State.step (s : State W) : Act π → Option (State W)
  | .spawn q => (s.os.spawn q).map fun o => { s with os := o }
  | .kill q => (s.os.kill q).map fun o => { s with os := o }
  | .claim q =>
    if s.os.alive q ∧ s.pc q = .idle then some { s with pc := update s.pc q (.claim .loadPid) } else none
  | .release q =>
    if s.os.alive q ∧ s.pc q = .idle then some { s with pc := update s.pc q (.release .load) } else none
  | .go q =>
    if s.os.alive q then
      match s.pc q with
      | .idle => none
      | .claim c => some (s.claimStep q c)
      | .release r => some (s.releaseStep q r)
    else none

/-! ## What holds in every run -/

/-- The claim has won the record and not yet stored its pid. -/
def Pc.inFlight : Pc → Bool
  | .claim .storeTok | .claim .storePid => true
  | _ => false

/-- The release has found its pid and not yet given it back. -/
def Pc.releasing : Pc → Bool
  | .release .tok | .release .cas => true
  | _ => false

/-- The pid the claim has loaded and still goes by. -/
def Pc.seen : Pc → Option Int
  | .claim (.loadTok cur) | .claim (.check cur _) | .claim (.cas cur _) => some cur
  | _ => none

/-- No pid is used again while a claim in flight goes by it. -/
def noReuse (s : State W) : Act π → Prop
  | .spawn q => ∀ p, s.os.alive p = true → (s.pc p).seen ≠ some (W.pid q)
  | _ => True

/-- A claimant that found the recorded pair dead takes the record over only while the token is still the one it found;
and a process that finds its pid in the record when it releases finds its own token, or none. -/
def settled (s : State W) : Act π → Prop
  | .go q =>
    match s.pc q with
    | .claim (.cas cur t) => cur ≠ 0 → s.owner.pid = cur → s.owner.startTok = t
    | .release .load => s.owner.pid = W.pid q → s.owner.startTok = W.tok q ∨ s.owner.startTok = 0
    | _ => True
  | _ => True

/-- The process has nothing to do with the record at the moment. -/
def Out (c : Pc) (b : Bool) : Prop := c.inFlight = false ∧ c.releasing = false ∧ b = false

/-- What the record must be for a live process that stands at `c` and holds (`b`) the record or not. -/
structure Fits (W : World π) (o : SlotOwner) (q : π) (c : Pc) (b : Bool) : Prop where
  flight : c.inFlight = true → o.pid = ownerClaiming
  mine : c = .claim .storePid → o.startTok = W.tok q
  kept : b = true ∨ c.releasing = true → o.pid = W.pid q ∧ (o.startTok = W.tok q ∨ o.startTok = 0)
  full : b = true → c ≠ .release .cas → o.startTok = W.tok q

omit [DecidableEq π] in
theorem Fits.of_out {o : SlotOwner} {q : π} {c : Pc} {b : Bool} (h : Out c b) : Fits W o q c b := by
  obtain ⟨hf, hr, rfl⟩ := h
  refine ⟨fun h => ?_, fun h => ?_, fun h => ?_, fun h => ?_⟩
  · rw [hf] at h; cases h
  · rw [h] at hf; cases hf
  · rw [hr] at h; simp at h
  · cases h

/-- The record and every live process fit together, and the tests a claimant has made still hold. -/
structure Inv (s : State W) : Prop where
  fits : ∀ q, s.os.alive q = true → Fits W s.owner q (s.pc q) (s.holds q)
  one : ∀ p q, s.os.alive p = true → s.os.alive q = true → (s.pc p).inFlight = true → (s.pc q).inFlight = true → p = q
  named : 0 < s.owner.pid → ∃ d, s.recorded = some d ∧ W.pid d = s.owner.pid
  author : ∀ d, s.recorded = some d → s.os.alive d = true → s.holds d = true
  seen : ∀ q, (s.pc q).seen ≠ some ownerClaiming
  dead : ∀ q cur t, s.os.alive q = true → s.pc q = .claim (.cas cur t) → cur ≠ 0 →
    isProcessAlive s.os.token cur t = false
  fresh : ∀ q, s.os.born q = false → s.pc q = .idle ∧ s.holds q = false ∧ s.recorded ≠ some q

namespace Inv

variable {s t : State W} {q : π}

omit [DecidableEq π] in
theorem not_claiming (q : π) : W.pid q ≠ ownerClaiming := by
  have := W.pid_pos q
  simp only [ownerClaiming]
  omega

/-- While a claim is in flight everybody else has nothing to do with the record. -/
theorem out_of_flight (h : Inv s) (hq : s.os.alive q = true) (hf : (s.pc q).inFlight = true) {p : π} (hne : p ≠ q)
    (hp : s.os.alive p = true) : Out (s.pc p) (s.holds p) := by
  have hpid := (h.fits q hq).flight hf
  refine ⟨?_, ?_, ?_⟩ <;> by_contra hk <;> simp only [Bool.not_eq_false] at hk
  · exact hne (h.one p q hp hq hk hf)
  · exact not_claiming p (((h.fits p hp).kept (Or.inr hk)).1.symm.trans hpid)
  · exact not_claiming p (((h.fits p hp).kept (Or.inl hk)).1.symm.trans hpid)

/-- While a live process holds or releases the record everybody else has nothing to do with it. -/
theorem out_of_kept (h : Inv s) (hq : s.os.alive q = true) (hk : s.holds q = true ∨ (s.pc q).releasing = true) {p : π}
    (hne : p ≠ q) (hp : s.os.alive p = true) : Out (s.pc p) (s.holds p) := by
  have hpid := ((h.fits q hq).kept hk).1
  refine ⟨?_, ?_, ?_⟩ <;> by_contra hkp <;> simp only [Bool.not_eq_false] at hkp
  · exact not_claiming q (hpid.symm.trans ((h.fits p hp).flight hkp))
  · exact hne (Os.alive_inj hp hq (((h.fits p hp).kept (Or.inr hkp)).1.symm.trans hpid))
  · exact hne (Os.alive_inj hp hq (((h.fits p hp).kept (Or.inl hkp)).1.symm.trans hpid))

/-- A step of `q`: the record fits it afterwards, and if the record has changed nobody else was concerned. -/
theorem of_move (h : Inv s) (hq : s.os.alive q = true) {o : SlotOwner} {c : Pc} {b : Bool} {d : Option π}
    (hfit : Fits W o q c b)
    (hout : o = s.owner ∧ (c.inFlight = true → (s.pc q).inFlight = true) ∨
      ∀ p, p ≠ q → s.os.alive p = true → Out (s.pc p) (s.holds p))
    (hseen : c.seen ≠ some ownerClaiming)
    (hdead : ∀ cur t, c = .claim (.cas cur t) → cur ≠ 0 → isProcessAlive s.os.token cur t = false)
    (hnamed : 0 < o.pid → ∃ d', d = some d' ∧ W.pid d' = o.pid)
    (hauthor : ∀ d', d = some d' → s.os.alive d' = true → if d' = q then b = true else s.holds d' = true)
    (hd : ∀ d', d = some d' → d' = q ∨ s.recorded = some d') :
    Inv { s with
      owner := o
      pc := update s.pc q c
      holds := update s.holds q b
      recorded := d } := by
  have hc : ∀ p, update s.pc q c p = if p = q then c else s.pc p := fun p => update_apply ..
  have hh : ∀ p, update s.holds q b p = if p = q then b else s.holds p := fun p => update_apply ..
  refine ⟨fun p hp => ?_, fun p p' hp hp' => ?_, hnamed, fun d' hd' hl => ?_, fun p => ?_, fun p cur t hp => ?_,
    fun p hp => ?_⟩
  all_goals simp only [hc, hh]
  · split
    · rename_i he; rw [he]; exact hfit
    · rename_i hne
      rcases hout with ⟨rfl, -⟩ | hout
      · exact h.fits p hp
      · exact Fits.of_out (hout p hne hp)
  · -- two in flight: at most one of them is not `q`, and it was in flight before
    rcases hout with ⟨-, hfl⟩ | hout
    · split <;> split
      · rename_i h1 h2; intro _ _; rw [h1, h2]
      · rename_i h1 h2; intro hf hf'; rw [h1]; exact h.one q p' hq hp' (hfl hf) hf'
      · rename_i h1 h2; intro hf hf'; rw [h2]; exact h.one p q hp hq hf (hfl hf')
      · exact h.one p p' hp hp'
    · split <;> split
      · rename_i h1 h2; intro _ _; rw [h1, h2]
      · rename_i h1 h2; intro _ hf; rw [(hout p' h2 hp').1] at hf; cases hf
      · rename_i h1 h2; intro hf; rw [(hout p h1 hp).1] at hf; cases hf
      · rename_i h1 h2; intro hf; rw [(hout p h1 hp).1] at hf; cases hf
  · have := hauthor d' hd' hl
    split at this
    · rename_i he; rw [if_pos he]; exact this
    · rename_i hne; rw [if_neg hne]; exact this
  · split
    · exact hseen
    · exact h.seen p
  · split
    · exact hdead cur t
    · exact h.dead p cur t hp
  · split
    · rename_i he
      rw [he, s.os.run_born _ q (Os.alive_iff.mp hq)] at hp
      cases hp
    · rename_i hne
      obtain ⟨h1, h2, h3⟩ := h.fresh p hp
      exact ⟨h1, h2, fun he => (hd p he).elim hne h3⟩

theorem stay (h : Inv s) (hq : s.os.alive q = true) {c : Pc} (hf : c.inFlight = false) (hold : s.pc q ≠ .release .cas)
    (hr : c.releasing = true → s.owner.pid = W.pid q ∧ (s.owner.startTok = W.tok q ∨ s.owner.startTok = 0))
    (hseen : c.seen ≠ some ownerClaiming)
    (hdead : ∀ cur t, c = .claim (.cas cur t) → cur ≠ 0 → isProcessAlive s.os.token cur t = false) :
    Inv { s with pc := update s.pc q c } := by
  have hfit := h.fits q hq
  have hnew : Fits W s.owner q c (s.holds q) := by
    refine ⟨fun hc => ?_, fun hc => ?_, fun hk => ?_, fun hb _ => hfit.full hb hold⟩
    · rw [hf] at hc; cases hc
    · rw [hc] at hf; cases hf
    · exact hk.elim (fun hb => hfit.kept (Or.inl hb)) hr
  have hm := h.of_move (d := s.recorded) hq hnew (Or.inl ⟨rfl, fun hc => by rw [hf] at hc; cases hc⟩) hseen hdead h.named
    (fun d' hd' hl => by
      have := h.author d' hd' hl
      split
      · rename_i he; rw [← he]; exact this
      · exact this)
    (fun d' hd' => Or.inr hd')
  rwa [update_eq_self] at hm

theorem idle (h : Inv s) (hq : s.os.alive q = true) (hold : s.pc q ≠ .release .cas) :
    Inv { s with pc := update s.pc q .idle } :=
  h.stay hq rfl hold (fun hc => by cases hc) (by simp [Pc.seen]) (fun _ _ hc => by cases hc)

/-- The claim's exchange succeeds: the pair it found dead is still there, so nobody alive holds the record. -/
theorem take (h : Inv s) (hq : s.os.alive q = true) {t : Nat} (hpc : s.pc q = .claim (.cas s.owner.pid t))
    (ht : s.owner.pid ≠ 0 → s.owner.startTok = t) :
    Inv { s with
      owner := { s.owner with pid := ownerClaiming }
      pc := update s.pc q (.claim .storeTok)
      recorded := none } := by
  have hfree : ∀ p, s.os.alive p = true → ¬ (s.holds p = true ∨ (s.pc p).releasing = true) := by
    intro p hp hk
    obtain ⟨hpid, htok⟩ := (h.fits p hp).kept hk
    have hne : s.owner.pid ≠ 0 := by
      have := W.pid_pos p
      omega
    have hdead := h.dead q _ t hq hpc hne
    rw [hpid, Os.alive_test hp (by rw [← ht hne]; exact htok)] at hdead
    cases hdead
  have hland : ∀ p, s.os.alive p = true → (s.pc p).inFlight = false := by
    intro p hp
    by_contra hf
    have hpid := (h.fits p hp).flight (by simpa using hf)
    exact h.seen q (by rw [hpc, Pc.seen, hpid])
  have hout : ∀ p, s.os.alive p = true → Out (s.pc p) (s.holds p) := by
    intro p hp
    have hk := hfree p hp
    simp only [not_or, Bool.not_eq_true] at hk
    exact ⟨hland p hp, hk.2, hk.1⟩
  have hb := (hout q hq).2.2
  have hm := h.of_move (o := { s.owner with pid := ownerClaiming }) (c := .claim .storeTok) (b := false) (d := none) hq
    ⟨fun _ => rfl, (fun hc => by cases hc), (fun hk => by simp [Pc.releasing] at hk), fun hc => by cases hc⟩
    (Or.inr fun p _ hp => hout p hp) (by simp [Pc.seen]) (fun _ _ hc => by cases hc)
    (fun hpos => by simp [ownerClaiming] at hpos) (fun _ hc => by cases hc) (fun _ hc => by cases hc)
  rwa [← hb, update_eq_self] at hm

/-- The claim stores its token, then its pid: nobody else is concerned with the record meanwhile. -/
theorem storeTok (h : Inv s) (hq : s.os.alive q = true) (hpc : s.pc q = .claim .storeTok) :
    Inv { s with
      owner := { s.owner with startTok := W.tok q }
      pc := update s.pc q (.claim .storePid) } := by
  have hfl : (s.pc q).inFlight = true := by rw [hpc]; rfl
  have hpid := (h.fits q hq).flight hfl
  have hb : s.holds q = false := by
    by_contra hb
    exact not_claiming q (((h.fits q hq).kept (Or.inl (by simpa using hb))).1.symm.trans hpid)
  have hm := h.of_move (o := { s.owner with startTok := W.tok q }) (c := .claim .storePid) (b := false)
    (d := s.recorded) hq
    ⟨fun _ => hpid, fun _ => rfl, (fun hk => by simp [Pc.releasing] at hk), fun hc => by cases hc⟩
    (Or.inr fun p hne hp => h.out_of_flight hq hfl hne hp) (by simp [Pc.seen]) (fun _ _ hc => by cases hc) h.named
    (fun d' hd' hl => by
      have := h.author d' hd' hl
      split
      · rename_i he; rw [he, hb] at this; cases this
      · exact this)
    (fun d' hd' => Or.inr hd')
  rwa [← hb, update_eq_self] at hm

theorem storePid (h : Inv s) (hq : s.os.alive q = true) (hpc : s.pc q = .claim .storePid) :
    Inv { s with
      owner := { s.owner with pid := W.pid q }
      pc := update s.pc q .idle
      holds := update s.holds q true
      recorded := some q } := by
  have hfl : (s.pc q).inFlight = true := by rw [hpc]; rfl
  have htok := (h.fits q hq).mine hpc
  exact h.of_move (o := { s.owner with pid := W.pid q }) (c := .idle) (b := true) (d := some q) hq
    ⟨(fun hc => by cases hc), (fun hc => by cases hc), fun _ => ⟨rfl, Or.inl htok⟩, fun _ _ => htok⟩
    (Or.inr fun p hne hp => h.out_of_flight hq hfl hne hp) (by simp [Pc.seen]) (fun _ _ hc => by cases hc)
    (fun _ => ⟨q, rfl, rfl⟩) (fun d' hd' _ => by cases hd'; simp) (fun d' hd' => by cases hd'; exact Or.inl rfl)

theorem claimStep (h : Inv s) (hq : s.os.alive q = true) {c : ClaimPc} (hpc : s.pc q = .claim c)
    (hok : settled s (.go q)) : Inv (s.claimStep q c) := by
  have hold : s.pc q ≠ .release .cas := by rw [hpc]; exact fun he => by cases he
  have hseen := h.seen q
  simp only [settled, hpc] at hok
  rw [hpc] at hseen
  cases c with
  | loadPid =>
    by_cases hcl : s.owner.pid = ownerClaiming
    · simp only [State.claimStep, ClaimPc.step, hcl, if_true]
      exact h.idle hq hold
    by_cases hz : s.owner.pid = 0
    · simp only [State.claimStep, ClaimPc.step, if_neg hcl, if_pos hz]
      exact h.stay hq rfl hold (fun hc => by cases hc) (by simp [Pc.seen, ownerClaiming])
        (fun _ _ hc hne => by cases hc; exact absurd rfl hne)
    · simp only [State.claimStep, ClaimPc.step, if_neg hcl, if_neg hz]
      exact h.stay hq rfl hold (fun hc => by cases hc) (by simpa [Pc.seen] using hcl) (fun _ _ hc => by cases hc)
  | loadTok cur => exact h.stay hq rfl hold (fun hc => by cases hc) hseen (fun _ _ hc => by cases hc)
  | check cur t =>
    by_cases hal : isProcessAlive s.os.token cur t = true
    · simp only [State.claimStep, ClaimPc.step, if_pos hal]
      exact h.idle hq hold
    · simp only [State.claimStep, ClaimPc.step, if_neg hal]
      exact h.stay hq rfl hold (fun hc => by cases hc) hseen (fun _ _ hc _ => by cases hc; simpa using hal)
  | cas cur t =>
    by_cases hcur : s.owner.pid = cur
    · subst hcur
      simp only [State.claimStep, ClaimPc.step, if_true]
      exact h.take hq hpc fun hne => hok hne rfl
    · simp only [State.claimStep, ClaimPc.step, if_neg hcur]
      exact h.idle hq hold
  | storeTok => exact h.storeTok hq hpc
  | storePid => exact h.storePid hq hpc

theorem releaseStep (h : Inv s) (hq : s.os.alive q = true) {r : RelPc} (hpc : s.pc q = .release r)
    (hok : settled s (.go q)) : Inv (s.releaseStep q r) := by
  simp only [settled, hpc] at hok
  cases r with
  | load =>
    have hold : s.pc q ≠ .release .cas := by rw [hpc]; exact fun he => by cases he
    by_cases hme : s.owner.pid = W.pid q
    · simp only [State.releaseStep, RelPc.step, if_pos hme]
      exact h.stay hq rfl hold (fun _ => ⟨hme, hok hme⟩) (by simp [Pc.seen]) (fun _ _ hc => by cases hc)
    · -- the record is not its own: it has no claim to give up
      have hnot : s.recorded ≠ some q := fun hr =>
        hme ((h.fits q hq).kept (Or.inl (h.author q hr hq))).1
      simp only [State.releaseStep, RelPc.step, if_neg hme]
      refine h.of_move (b := false) hq (Fits.of_out ⟨rfl, rfl, rfl⟩) (Or.inl ⟨rfl, fun hc => by cases hc⟩)
        (by simp [Pc.seen]) (fun _ _ hc => by cases hc) (fun hpos => ?_) (fun d' hd' hl => ?_) (fun d' hd' => ?_)
      · rw [if_neg (by omega)]
        exact h.named hpos
      · split at hd'
        · cases hd'
        · rw [if_neg (show d' ≠ q from fun he => hnot (he ▸ hd'))]
          exact h.author d' hd' hl
      · split at hd'
        · cases hd'
        · exact Or.inr hd'
  | tok =>
    have hk : s.holds q = true ∨ (s.pc q).releasing = true := Or.inr (by rw [hpc]; rfl)
    have hm := h.of_move (o := { s.owner with startTok := 0 }) (c := .release .cas) (b := s.holds q)
      (d := s.recorded) hq
      ⟨(fun hc => by cases hc), (fun hc => by cases hc), fun _ => ⟨((h.fits q hq).kept hk).1, Or.inr rfl⟩,
        fun _ hc => absurd rfl hc⟩
      (Or.inr fun p hne hp => h.out_of_kept hq hk hne hp) (by simp [Pc.seen]) (fun _ _ hc => by cases hc) h.named
      (fun d' hd' hl => by
        have := h.author d' hd' hl
        split
        · rename_i he; rw [← he]; exact this
        · exact this)
      (fun d' hd' => Or.inr hd')
    rwa [update_eq_self] at hm
  | cas =>
    have hk : s.holds q = true ∨ (s.pc q).releasing = true := Or.inr (by rw [hpc]; rfl)
    have hme := ((h.fits q hq).kept hk).1
    simp only [State.releaseStep, RelPc.step, if_pos hme]
    exact h.of_move (o := { s.owner with pid := 0 }) (c := .idle) (b := false) (d := none) hq
      (Fits.of_out ⟨rfl, rfl, rfl⟩) (Or.inr fun p hne hp => h.out_of_kept hq hk hne hp) (by simp [Pc.seen])
      (fun _ _ hc => by cases hc) (fun hpos => by simp at hpos) (fun _ hc => by cases hc) (fun _ hc => by cases hc)

theorem spawn (h : Inv s) {o : Os W} (ho : s.os.spawn q = some o) (hok : noReuse s (.spawn q)) :
    Inv { s with os := o } := by
  obtain ⟨hnone, hborn, hrun⟩ := Os.spawn_run ho
  obtain ⟨hidle, hnh, hnr⟩ := h.fresh q hborn
  have hal : ∀ p, o.alive p = true → s.os.alive p = true ∨ p = q := fun p => Os.alive_of_spawn ho
  refine ⟨fun p hp => ?_, fun p p' hp hp' hf hf' => ?_, h.named, fun d hd hl => ?_, h.seen, fun p cur t hp hc hne => ?_,
    fun p hp => ?_⟩
  · rcases hal p hp with hp | rfl
    · exact h.fits p hp
    · exact Fits.of_out (by rw [hidle, hnh]; exact ⟨rfl, rfl, rfl⟩)
  · rcases hal p hp with hp | rfl
    · rcases hal p' hp' with hp' | rfl
      · exact h.one p p' hp hp' hf hf'
      · rw [hidle] at hf'; cases hf'
    · rw [hidle] at hf; cases hf
  · rcases hal d hl with hl | rfl
    · exact h.author d hd hl
    · exact absurd hd hnr
  · rcases hal p hp with hp | rfl
    · refine Os.dead_of_spawn ho (fun he => ?_) (h.dead p cur t hp hc hne)
      exact hok p hp (by rw [hc, Pc.seen, he])
    · rw [hidle] at hc; cases hc
  · by_cases hpq : p = q
    · rw [hpq]; exact ⟨hidle, hnh, hnr⟩
    · exact h.fresh p (Os.unborn_of_spawn ho hpq hp)

theorem kill (h : Inv s) {o : Os W} (ho : s.os.kill q = some o) : Inv { s with os := o } := by
  have hal : ∀ p, o.alive p = true → s.os.alive p = true := fun p => Os.alive_of_kill ho
  exact ⟨fun p hp => h.fits p (hal p hp), fun p p' hp hp' => h.one p p' (hal p hp) (hal p' hp'), h.named,
    fun d hd hl => h.author d hd (hal d hl), h.seen,
    fun p cur t hp hc hne => Os.dead_of_kill ho (h.dead p cur t (hal p hp) hc hne),
    fun p hp => h.fresh p (by rw [← Os.born_of_kill ho]; exact hp)⟩

theorem step {act : Act π} (h : Inv s) (hru : noReuse s act) (hok : settled s act) (hst : s.step act = some t) :
    Inv t := by
  cases act with
  | spawn q =>
    obtain ⟨o, ho, rfl⟩ := Option.map_eq_some_iff.mp hst
    exact h.spawn ho hru
  | kill q =>
    obtain ⟨o, ho, rfl⟩ := Option.map_eq_some_iff.mp hst
    exact h.kill ho
  | claim q =>
    simp only [State.step] at hst
    split at hst <;> cases hst
    rename_i hq
    exact h.stay hq.1 rfl (by rw [hq.2]; exact fun he => by cases he) (fun hc => by cases hc) (by simp [Pc.seen])
      (fun _ _ hc => by cases hc)
  | release q =>
    simp only [State.step] at hst
    split at hst <;> cases hst
    rename_i hq
    exact h.stay hq.1 rfl (by rw [hq.2]; exact fun he => by cases he) (fun hc => by cases hc) (by simp [Pc.seen])
      (fun _ _ hc => by cases hc)
  | go q =>
    simp only [State.step] at hst
    split at hst
    · rename_i hq
      split at hst <;> cases hst
      · rename_i c hpc
        exact h.claimStep hq hpc hok
      · rename_i r hpc
        exact h.releaseStep hq hpc hok
    · cases hst

end Inv

/-- A free record, before the first call. -/
structure Free (s : State W) : Prop where
  pid : s.owner.pid = 0
  idle : ∀ q, s.pc q = .idle
  holds : ∀ q, s.holds q = false
  recorded : s.recorded = none

theorem Free.inv {s : State W} (h : Free s) : Inv s := by
  refine ⟨fun q _ => Fits.of_out (by rw [h.idle, h.holds]; exact ⟨rfl, rfl, rfl⟩), fun p q _ _ hf => ?_, fun hp => ?_,
    fun d hd => ?_, fun q => ?_, fun q cur t _ hc => ?_, fun q _ => ⟨h.idle q, h.holds q, ?_⟩⟩
  · rw [h.idle] at hf; cases hf
  · rw [h.pid] at hp; omega
  · rw [h.recorded] at hd; cases hd
  · rw [h.idle]; simp [Pc.seen]
  · rw [h.idle] at hc; cases hc
  · rw [h.recorded]; simp

/-- **At most one live process holds the record, no live holder is taken over, and the record names its holder**, if
every step is `settled` and no pid is used again under a claim in flight. -/
theorem sole_holder {s₀ s : State W} {acts : List (Act π)} (h0 : Free s₀)
    (hrun : Run State.step (fun s act => noReuse s act ∧ settled s act) s₀ acts s) :
    (∀ p q, s.os.alive p = true → s.os.alive q = true → s.holds p = true → s.holds q = true → p = q) ∧
    (∀ q, s.os.alive q = true → s.holds q = true → s.owner.pid = W.pid q) ∧
    (0 < s.owner.pid → ∃ d, s.recorded = some d ∧ W.pid d = s.owner.pid ∧
      (s.os.alive d = true → (∀ r, s.pc d ≠ .release r) → s.owner.startTok = W.tok d)) := by
  have h := hrun.inv Inv h0.inv fun _ _ _ h hok hst => h.step hok.1 hok.2 hst
  refine ⟨fun p q hp hq hhp hhq => ?_, fun q hq hh => ((h.fits q hq).kept (Or.inl hh)).1, fun hpos => ?_⟩
  · exact Os.alive_inj hp hq (((h.fits p hp).kept (Or.inl hhp)).1.symm.trans ((h.fits q hq).kept (Or.inl hhq)).1)
  · obtain ⟨d, hd, hpid⟩ := h.named hpos
    exact ⟨d, hd, hpid, fun hl hr => (h.fits d hl).full (h.author d hd hl) (hr _)⟩

instance [Fintype π] (s : State W) (act : Act π) : Decidable (noReuse s act) := by
  unfold noReuse
  split <;> infer_instance

instance (s : State W) (act : Act π) : Decidable (settled s act) := by
  unfold settled
  repeat' split
  all_goals infer_instance

/-! ## A live holder is taken over -/

/-- Four processes; the last one gets the pid of the first. -/
def quartet : World (Fin 4) where
  pid := ![1, 2, 3, 1]
  tok := ![11, 12, 13, 14]
  pid_pos := by decide
  tok_ne := by decide
  pair := by decide

/-- The first three processes run, and nobody has claimed the record. -/
def startup : State quartet where
  os := {
    run := fun n => if n = 1 then some 0 else if n = 2 then some 1 else if n = 3 then some 2 else none
    born := ![true, true, true, false]
    run_pid := by
      intro n q hq
      split_ifs at hq with h1 h2 h3 <;> cases hq <;> simp [quartet, *]
    run_born := by
      intro n q hq
      split_ifs at hq <;> cases hq <;> rfl }
  owner := ⟨0, 0, 0⟩
  pc := fun _ => .idle
  holds := fun _ => false
  recorded := none

/-- A call of process `q` and `n` of its accesses. -/
def claiming (q : Fin 4) (n : Nat) : List (Act (Fin 4)) := .claim q :: List.replicate n (.go q)

def releasing (q : Fin 4) (n : Nat) : List (Act (Fin 4)) := .release q :: List.replicate n (.go q)

theorem free_startup : Free startup := ⟨rfl, fun _ => rfl, fun _ => rfl, rfl⟩

theorem sole_holder_takeover : ∃ s, Run State.step (fun s act => noReuse s act ∧ settled s act) startup
      (claiming 0 4 ++ [.kill 0] ++ claiming 1 6) s ∧
    s.os.alive 1 = true ∧ s.holds 1 = true ∧ s.owner.pid = 2 := by
  refine exists_run_imp (fun s => s.os.alive 1 = true ∧ s.holds 1 = true) (by decide +kernel) fun s hrun hs => ?_
  obtain ⟨hl, hh⟩ := hs
  exact ⟨hl, hh, (sole_holder free_startup hrun).2.1 1 hl hh⟩

/-- **A live holder is taken over.** Process 2 loads the pid of process 0, which releases, and the token while process 1
is claiming. Process 0 claims again, and the exchange of process 2 finds the pid it expects. -/
theorem holder_taken_over : ∃ s, Run State.step noReuse startup
      (claiming 0 4 ++ claiming 2 1 ++ releasing 0 3 ++ claiming 1 3 ++ [.go 2, .go 2, .go 1] ++ releasing 1 3 ++
        claiming 0 4 ++ [.go 2, .go 2, .go 2]) s ∧
    s.os.alive 0 = true ∧ s.os.alive 2 = true ∧ s.holds 0 = true ∧ s.holds 2 = true ∧ s.owner.pid = quartet.pid 2 :=
  exists_run_of (by decide +kernel)

/-- The holder's token is lost: process 0 dies as the holder, process 3 gets its pid, and its release clears the token
that process 2 has stored. -/
theorem token_lost : ∃ s, Run State.step noReuse startup
      (claiming 0 4 ++ [Act.kill 0, .spawn 3] ++ releasing 3 1 ++ claiming 2 6 ++ [Act.go 3]) s ∧
    s.os.alive 2 = true ∧ s.holds 2 = true ∧ s.pc 2 = .idle ∧ s.owner.pid = quartet.pid 2 ∧ s.owner.startTok = 0 :=
  exists_run_of (by decide +kernel)

end ThothIpc.Sole
