import ThothIpc.Channel.Fifo

/-!
# Connecting to a channel

A receiver starts at the commit index it loads in `adopt_cursor`, or at the first marked position before it. The
position it waits for must then carry its mark, so that nobody releases it before the receiver has read it.

* `Joint.ahead` : it does, if every position at or after the loaded commit index is stamped with the receiver's bit;
* `never_stranded` : a connected receiver never waits for a position that has been released;
* `run_stale` : the loop of `release_stale` over a ring with nothing committed.
-/

namespace ThothIpc.Channel
open Steps

variable {ω ι : Type} {s : State ω ι}

/-- The receiver has its cursor and is not releasing the position there. -/
def RPc.waits : RPc → Bool
  | .ownerTok => true
  | .ownerPid => true
  | .ready => true
  | .read _ _ => true
  | _ => false

/-- The position at the cursor has not been claimed, is claimed and not yet committed, or is committed and not
released. -/
def Ahead (s : State ω ι) (r : Receiver) : Prop :=
  s.claims.length ≤ r.readCursor.toNat ∨ (∃ w f, (s.writers w).won = some (r.readCursor, f)) ∨
    (s.ring.slot r.readCursor).fCt = atPos r.readCursor

theorem Receiver.low_of_waits {r : Receiver} (h : r.pc.waits = true) : r.low = some r.readCursor.toNat := by
  unfold Receiver.low
  cases hpc : r.pc <;> rw [hpc] at h <;> first | rfl | cases h

theorem RPc.not_releasing {pc : RPc} (h : pc.waits = true) : pc.releasing = false := by
  cases pc <;> first | rfl | cases h

/-- What a receiver waits for carries its mark, and a marked slot is released only by the owner of its last mark. -/
theorem Joint.ahead (h : Joint s) {i : ι} (hi : (s.recvs i).pc.waits = true) : Ahead s (s.recvs i) := by
  have hlow := Receiver.low_of_waits hi
  have hclaimed := Receiver.claimed_of_low hlow
  obtain ⟨b, -, hid, -⟩ := h.own i hclaimed
  have hg := h.guard i b _ hid hlow
  have htop := h.core.le_top h.len
  have hcur : BitVec.ofNat 32 (s.recvs i).readCursor.toNat = (s.recvs i).readCursor := by simp
  by_contra hno
  simp only [Ahead, not_or, not_le, not_exists] at hno
  obtain ⟨hlt, hwon, hfl⟩ := hno
  have := h.freed (s.recvs i).readCursor.toNat (by omega) hg.lap ⟨hlt, fun w f => by rw [hcur]; exact hwon w f⟩
    (by rw [← slot_ofNat, hcur]; exact hfl) i b hclaimed hid (hg.marks _ (Nat.le_refl _) (by omega))
  rw [RPc.not_releasing hi] at this
  cases this.1

section Runs
variable [DecidableEq ω] [DecidableEq ι] {s₀ : State ω ι} {acts : List (Act ω ι)}

/-- **A connected receiver never waits for a released position**, as long as each step is taken in a state where the
source's own assumptions hold (`joining`). -/
theorem never_stranded (h₀ : Opening s₀)
    (hrun : Run State.step (fun s act => s.claims.length < 2 ^ 31 ∧ joining s act) s₀ acts s) (i : ι)
    (hi : (s.recvs i).pc.waits = true) : Ahead s (s.recvs i) :=
  (hrun.inv Joint h₀.joint fun _ _ _ h hok hst => h.step hok.1 hok.2 hst).ahead hi

/-! ## `release_stale` on a ring with nothing committed -/

def State.place (s : State ω ι) (i : ι) (pc : RPc) : State ω ι :=
  { s with recvs := Function.update s.recvs i { s.recvs i with pc := pc } }

omit [DecidableEq ω] in
theorem State.place_self {i : ι} {pc : RPc} (h : (s.recvs i).pc = pc) : s.place i pc = s := by
  subst h
  simp only [State.place, Function.update_eq_self]

theorem run_stale {ok : State ω ι → Act ω ι → Prop} {i : ι} {since : BitVec 32}
    (hfl : ∀ k < 256, committed (s.ring.slots (BitVec.ofNat 8 k)).fCt = false)
    (hok : ∀ k, ok (s.place i (.stale since k)) (.recv i .go)) (n : Nat) (hn : n < 256) :
    Run State.step ok (s.place i (.stale since (255 - n))) (List.replicate (n + 1) (.recv i .go))
      (s.place i (.adoptEpoch since)) := by
  have hstep : ∀ k < 256, (s.place i (.stale since k)).step (.recv i .go) = some
    (s.place i (.staleFrom since (k + 1))) := by
    intro k hk
    simp [State.step, State.place, Receiver.act, Receiver.step, hfl k hk]
  induction n with
  | zero => exact Run.one (hok _) (hstep 255 (by omega))
  | succ n ih =>
    rw [List.replicate_succ]
    refine Run.head (hok _) (hstep _ (by omega)) ?_
    rw [show 255 - (n + 1) + 1 = 255 - n by omega, RPc.staleFrom, if_pos (by omega)]
    exact ih (by omega)

theorem exists_run_stale {β : Type} {x : β} (ok : State ω ι → Act ω ι → Prop) [∀ s a, Decidable (ok s a)]
    (s₀ : State ω ι) (as bs : List (Act ω ι)) (i : ι) (since : BitVec 32) (f : State ω ι → β) {s₁ : State ω ι}
    (h₁ : exec State.step ok s₀ as = some s₁) (hpc : (s₁.recvs i).pc = .stale since 0)
    (hfl : ∀ k < 256, committed (s₁.ring.slots (BitVec.ofNat 8 k)).fCt = false)
    (hok : ∀ k, ok (s₁.place i (.stale since k)) (.recv i .go))
    (h₂ : (exec State.step ok (s₁.place i (.adoptEpoch since)) bs).map f = some x) :
    ∃ t, Run State.step ok s₀ (as ++ List.replicate 256 (Act.recv i .go) ++ bs) t ∧ f t = x := by
  obtain ⟨t, hrun, ht⟩ := exists_run State.step ok _ bs f h₂
  have hstale := run_stale hfl hok 255 (by omega)
  rw [State.place_self hpc] at hstale
  exact ⟨t, ((run_of_exec h₁).trans hstale).trans hrun, ht⟩

end Runs

/-! ## Conditions, decided -/

instance [Fintype ω] (s : State ω ι) (bit : BitVec 32) : Decidable (inTime s bit) := by
  unfold inTime
  infer_instance

instance [Fintype ω] (s : State ω ι) (cur : BitVec 32) : Decidable (inPlace s cur) := by
  unfold inPlace
  infer_instance

instance [Fintype ι] (s : State ω ι) (w : ω) : Decidable (addressed s w) := by
  unfold addressed
  induction s.writers w using WPc.casesOn <;> infer_instance

instance [Fintype ω] [Fintype ι] (s : State ω ι) (act : Act ω ι) : Decidable (joining s act) := by
  induction act using Act.casesOn with
  | writer w a => induction a using WAct.casesOn <;> unfold joining <;> infer_instance
  | recv i a =>
    induction a using RAct.casesOn <;> unfold joining
    case go =>
      dsimp only
      induction (s.recvs i).pc using RPc.casesOn <;> infer_instance
    all_goals infer_instance

/-! ## A receiver that connects -/

/-- Receiver 1 opens the channel and connects up to `release_stale`. -/
def opening : List (Act (Fin 2) (Fin 2)) := .recv 1 (.opens 2 2) :: List.replicate 4 (.recv 1 .go)

theorem opening_duo : Opening duo := by
  refine ⟨fresh_duo, fun i => ?_, fun i j hi hj _ => ?_, fun b hb => ?_, fun _ _ => rfl⟩
  · fin_cases i
    · exact Or.inr ⟨rfl, rfl, 0, by omega, rfl, rfl⟩
    · exact Or.inl rfl
  · fin_cases i <;> fin_cases j
    · rfl
    · cases hj
    · cases hi
    · rfl
  · have h0 : b = 0 := by
      by_contra hne
      rw [show duo.ring.connections = BitVec.twoPow 32 0 from rfl, BitVec.getLsbD_twoPow] at hb
      simp only [Bool.and_eq_true, decide_eq_true_eq] at hb
      omega
    rw [h0]
    exact ⟨0, rfl, rfl⟩

theorem never_stranded_push : ∃ s, Run State.step (fun s act => s.claims.length < 2 ^ 31 ∧ joining s act) duo
      (opening ++ List.replicate 256 (.recv 1 .go) ++ (List.replicate 5 (.recv 1 .go) ++ pushing 0 .rust 16)) s ∧
    (s.claims = [(0#32, blank)] ∧ (s.recvs 1).pc = .ready) ∧ Ahead s (s.recvs 1) := by
  obtain ⟨s, hrun, hs⟩ := exists_run_stale (fun s act => s.claims.length < 2 ^ 31 ∧ joining s act) duo opening
    (List.replicate 5 (Act.recv 1 .go) ++ pushing 0 .rust 16) 1 0 (fun s => (s.claims, (s.recvs 1).pc))
    (x := ([(0#32, blank)], .ready)) (Option.some_get (by decide +kernel)).symm (by decide +kernel) (by decide +kernel)
    (fun k => ⟨by simp only [State.place]; decide +kernel, by simp [joining, State.place]⟩) (by decide +kernel)
  simp only [Prod.mk.injEq] at hs
  exact ⟨s, hrun, hs, never_stranded opening_duo hrun 1 (by rw [hs.2]; rfl)⟩

/-- **A receiver waits for a released position.** Writer 0 has claimed position 0 for receiver 0. Receiver 1 connects
and starts at index 0; receiver 0, the only addressee, reads and releases the position. -/
theorem adopted_too_late : ∃ s, Run State.step (fun _ act => act.rust) duo
      (pushing 0 .rust 7 ++ opening ++ List.replicate 256 (.recv 1 .go) ++
        (List.replicate 5 (.recv 1 .go) ++ List.replicate 11 (.writer 0 .go) ++
          .recv 0 .recv :: List.replicate 9 (.recv 0 .go))) s ∧
    (s.recvs 1).pc.waits = true ∧ (s.ring.slot (s.recvs 1).readCursor).fCt = freeFlag (s.recvs 1).readCursor ∧
    ¬Ahead s (s.recvs 1) := by
  obtain ⟨s, hrun, hs⟩ := exists_run_stale (fun _ act => act.rust) duo (pushing 0 .rust 7 ++ opening)
    (List.replicate 5 (Act.recv 1 .go) ++ List.replicate 11 (Act.writer 0 .go) ++
      .recv 0 .recv :: List.replicate 9 (.recv 0 .go)) 1 0
    (fun s => (s.claims.length, s.writers 0, s.writers 1, (s.recvs 1).pc, (s.recvs 1).readCursor, (s.ring.slot 0).fCt))
    (x := (1, .idle, .idle, .ready, 0, 256))
    (Option.some_get (by decide +kernel)).symm (by decide +kernel) (by decide +kernel) (fun _ => trivial)
    (by decide +kernel)
  simp only [Prod.mk.injEq] at hs
  obtain ⟨hn, hw0, hw1, hpc, hcur, hfl⟩ := hs
  refine ⟨s, hrun, by rw [hpc]; rfl, by rw [hcur, hfl]; decide, ?_⟩
  rintro (hle | ⟨w, f, hw⟩ | hat)
  · rw [hn, hcur] at hle
    exact absurd hle (by decide)
  · have hidle : s.writers w = .idle := by
      fin_cases w
      · exact hw0
      · exact hw1
    rw [hidle] at hw
    cases hw
  · rw [hcur, hfl] at hat
    exact absurd hat (by decide)

end ThothIpc.Channel
