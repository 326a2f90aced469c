import ThothIpc.Header.Model

/-!
# The header is constructed once

* `Pc.inside` : the endpoint holds the spin lock, as far as it knows;
* `Inv` : at most one endpoint is inside, the flag is set for good by the first, and every bit claimed stays set;
* `header_once` : so it is for `init_header`;
* `init_once` : and for `conn_head_base::init`, as long as the construction is `undisturbed`.
-/

namespace ThothIpc.Header
open Function Steps

/-! ## Places -/

/-- The endpoint is in the locked region. -/
def Pc.inside : Pc → Bool
  | .recheck => true
  | .reset => true
  | .newCc => true
  | .newLc => true
  | .newFlag => true
  | .publish => true
  | .unlock => true
  | _ => false

/-- The endpoint has found the flag clear under the lock and has not set it yet. -/
def Pc.building : Pc → Bool
  | .reset => true
  | .newCc => true
  | .newLc => true
  | .newFlag => true
  | .publish => true
  | _ => false

/-- The endpoint has set the flag or has seen it set. -/
def Pc.built : Pc → Bool
  | .unlock => true
  | .opened => true
  | .loadConns => true
  | .casConns _ => true
  | .connected => true
  | _ => false

/-- The endpoint is at a store of the placement-new. -/
def Pc.placing : Pc → Bool
  | .newCc => true
  | .newLc => true
  | .newFlag => true
  | _ => false

/-- The endpoint has constructed the lock it holds anew and has not set the flag yet. -/
def Endpoint.unlatched (e : Endpoint) : Bool := e.pc = .newFlag || (e.pc = .publish && e.lang = .cpp)

/-! ## The invariant -/

/-- What an endpoint knows of the header. -/
structure Endpoint.Fits (h : Head) (e : Endpoint) : Prop where
  building : e.pc.building = true → h.constructed = false
  built : e.pc.built = true → h.constructed = true
  placing : e.pc.placing = true → e.lang = .cpp
  key : e.pc.inside = true → h.lc ≠ 0 ∨ e.unlatched = true ∨ e.pc = .unlock
  room : ∀ curr, e.pc = .casConns curr → curr ||| (curr + 1) ≠ curr
  own : e.pc = .connected → ∃ b < 32, e.connId = BitVec.twoPow 32 b ∧ h.connections.getLsbD b = true

/-- The lock is still the endpoint's own until it constructs it anew. -/
theorem Endpoint.Fits.latched {h : Head} {e : Endpoint} (hf : e.Fits h)
    (hpc : e.pc = .recheck ∨ e.pc = .reset ∨ e.pc = .newCc) : h.lc ≠ 0 := by
  rcases hpc with hpc | hpc | hpc
  all_goals
    rcases hf.key (by rw [hpc]; rfl) with hlc | hun | hun
    · exact hlc
    · simp [Endpoint.unlatched, hpc] at hun
    · rw [hpc] at hun
      cases hun

variable {ι : Type} {s t : State ι}

/-- The header is constructed by one endpoint, before anybody connects. -/
structure Inv (s : State ι) : Prop where
  fits : ∀ i, (s.eps i).Fits s.head
  one : ∀ i j, (s.eps i).pc.inside = true → (s.eps j).pc.inside = true → i = j
  wait : ∀ i j, (s.eps i).pc.inside = true → (s.eps j).pc = .lock → s.head.lc ≠ 0
  clear : s.head.constructed = false → s.claims = 0
  alone : ∀ i j, (s.eps i).pc = .connected → (s.eps j).pc = .connected → (s.eps i).connId = (s.eps j).connId → i = j

theorem Inv.not_connected (h : Inv s) {i j : ι} (hi : (s.eps i).pc.building = true) : (s.eps j).pc ≠ .connected := by
  intro hj
  have h1 := (h.fits i).building hi
  rw [(h.fits j).built (by rw [hj]; rfl)] at h1
  cases h1

section Step
variable [DecidableEq ι] {i : ι} {g : Head} {e : Endpoint} {n : Nat}

theorem Inv.move (h : Inv s) (hfit : e.Fits g) (hfits : ∀ j, j ≠ i → (s.eps j).Fits g)
    (hin : e.pc.inside = true → (s.eps i).pc.inside = true ∨ ∀ j, (s.eps j).pc.inside = false)
    (hwait : ∀ j, j ≠ i → (s.eps j).pc = .lock → e.pc.inside = true → g.lc ≠ 0)
    (hlock : ∀ j, j ≠ i → (s.eps j).pc.inside = true → (∃ k, k ≠ i ∧ (s.eps k).pc = .lock) ∨ e.pc = .lock → g.lc ≠ 0)
    (hclear : g.constructed = false → s.claims + n = 0)
    (halone : e.pc = .connected → ∀ j, j ≠ i → (s.eps j).pc = .connected → (s.eps j).connId ≠ e.connId) :
    Inv (s.set i g e n) := by
  have hone : e.pc.inside = true → ∀ j, j ≠ i → (s.eps j).pc.inside = false := by
    intro he j hj
    rcases hin he with hi | hno
    · by_contra hjin
      exact hj (h.one j i (by simpa using hjin) hi)
    · exact hno j
  refine ⟨fun j => ?_, fun j k hj hk => ?_, fun j k hj hk => ?_, hclear, fun j k hj hk hid => ?_⟩
  · by_cases hji : j = i
    · simp only [State.set, hji, update_self]
      exact hfit
    · simp only [State.set, update_of_ne hji]
      exact hfits j hji
  · by_cases hji : j = i <;> by_cases hki : k = i <;>
      simp only [hji, hki, State.set, update_self, update_of_ne, ne_eq, not_false_eq_true] at hj hk ⊢
    · rw [hone hj k hki] at hk
      cases hk
    · rw [hone hk j hji] at hj
      cases hj
    · exact h.one j k hj hk
  · by_cases hji : j = i <;> by_cases hki : k = i <;>
      simp only [hji, hki, State.set, update_self, update_of_ne, ne_eq, not_false_eq_true] at hj hk ⊢
    · rw [hk] at hj
      cases hj
    · exact hwait k hki hk hj
    · exact hlock j hji hj (Or.inr hk)
    · exact hlock j hji hj (Or.inl ⟨k, hki, hk⟩)
  · by_cases hji : j = i <;> by_cases hki : k = i <;>
      simp only [hji, hki, State.set, update_self, update_of_ne, ne_eq,
        not_false_eq_true] at hj hk hid ⊢
    · exact absurd hid.symm (halone hj k hki hk)
    · exact absurd hid (halone hk j hji hj)
    · exact h.alone j k hj hk hid

theorem Inv.outside (h : Inv s) (hfit : e.Fits s.head) (hin : e.pc.inside = false) (hc : e.pc ≠ .connected)
    (hlock : e.pc = .lock → ∀ j, j ≠ i → (s.eps j).pc.inside = true → s.head.lc ≠ 0) :
    Inv (s.set i s.head e 0) := by
  refine h.move (n := 0) hfit (fun j _ => h.fits j) (fun he => ?_) (fun j _ _ he => ?_) (fun j hj hjin hw => ?_) h.clear
    (fun he => absurd he hc)
  · rw [hin] at he
    cases he
  · rw [hin] at he
    cases he
  · rcases hw with ⟨k, -, hk⟩ | hw
    · exact h.wait j k hjin hk
    · exact hlock hw j hj hjin

theorem Inv.within (h : Inv s) (hi : (s.eps i).pc.inside = true) (hfit : e.Fits g)
    (hfits : ∀ j, j ≠ i → (s.eps j).Fits g)
    (hc : e.pc ≠ .connected) (hlc : (∃ j, (s.eps j).pc = .lock) → e.pc.inside = true → g.lc ≠ 0)
    (hclear : g.constructed = false → s.claims = 0) :
    Inv (s.set i g e 0) := by
  refine h.move (n := 0) hfit hfits (fun _ => Or.inl hi) (fun j _ hj he => hlc ⟨j, hj⟩ he) (fun j hj hjin _ => ?_) hclear
    (fun he => absurd he hc)
  exact absurd (h.one j i hjin hi) hj

omit [DecidableEq ι] in
/-- Others do not see that the lock changes while the endpoint inside is at work. -/
theorem Inv.fits_lc (h : Inv s) (hi : (s.eps i).pc.inside = true) (lc : BitVec 32) (j : ι) (hj : j ≠ i) :
    (s.eps j).Fits { s.head with lc := lc } := by
  have hf := h.fits j
  refine ⟨hf.building, hf.built, hf.placing, fun hjin => ?_, hf.room, hf.own⟩
  exact absurd (h.one j i hjin hi) hj

theorem Inv.reset (h : Inv s) (hi : (s.eps i).pc.building = true) (hin : (s.eps i).pc.inside = true)
    (hfit : e.Fits { s.head with connections := 0 }) (hc : e.pc ≠ .connected) :
    Inv (s.set i { s.head with connections := 0 } e 0) := by
  refine h.within hin hfit (fun j _ => ?_) hc (fun ⟨j, hj⟩ _ => h.wait i j hin hj) h.clear
  have hf := h.fits j
  exact ⟨hf.building, hf.built, hf.placing, hf.key, hf.room, fun hj => absurd hj (h.not_connected hi)⟩

theorem Inv.publish (h : Inv s) (hpc : (s.eps i).pc = .publish) :
    Inv (s.set i { s.head with constructed := true } { s.eps i with pc := .unlock } 0) := by
  have hin : (s.eps i).pc.inside = true := by rw [hpc]; rfl
  refine h.within hin ⟨nofun, fun _ => rfl, nofun, fun _ => Or.inr (Or.inr rfl), nofun, nofun⟩ (fun j hj => ?_) nofun
    (fun ⟨j, hj⟩ _ => h.wait i j hin hj) nofun
  have hf := h.fits j
  refine ⟨fun hb => ?_, fun _ => rfl, hf.placing, hf.key, hf.room, hf.own⟩
  have hjin : (s.eps j).pc.inside = true := by
    cases hq : (s.eps j).pc <;> rw [hq] at hb <;> cases hb <;> rfl
  exact absurd (h.one j i hjin hin) hj

theorem Inv.claim {curr : BitVec 32} (h : Inv s) (hpc : (s.eps i).pc = .casConns curr)
    (hcur : s.head.connections = curr) :
    Inv (s.set i { s.head with connections := curr ||| (curr + 1) }
      { s.eps i with connId := (curr ||| (curr + 1)) ^^^ curr, pc := .connected } 1) := by
  obtain ⟨l, hl, hfree, -, hid, hbits⟩ := Bits.exists_lowest_clear curr ((h.fits i).room curr hpc)
  have hbuilt : s.head.constructed = true := (h.fits i).built (by rw [hpc]; rfl)
  have hset : ∀ b, s.head.connections.getLsbD b = true → (curr ||| (curr + 1)).getLsbD b = true := fun b hb => by
    rw [hbits, ← hcur, hb, Bool.true_or]
  refine h.move ⟨nofun, fun _ => hbuilt, nofun, nofun, nofun, fun _ => ⟨l, hl, hid, ?_⟩⟩ (fun j _ => ?_) nofun
    (fun _ _ _ he => by cases he) (fun j hj hjin hw => ?_) (fun hf => ?_) (fun _ j _ hj he => ?_)
  · show (curr ||| (curr + 1)).getLsbD l = true
    rw [hbits, decide_eq_true rfl, Bool.or_true]
  · have hf := h.fits j
    refine ⟨hf.building, hf.built, hf.placing, hf.key, hf.room, fun hj => ?_⟩
    obtain ⟨b, hb, hbid, hbset⟩ := hf.own hj
    exact ⟨b, hb, hbid, hset b hbset⟩
  · rcases hw with ⟨k, -, hk⟩ | hw
    · exact h.wait j k hjin hk
    · cases hw
  · rw [show _ = s.head.constructed from rfl, hbuilt] at hf
    cases hf
  · obtain ⟨b, hb, hbid, hbset⟩ := (h.fits j).own hj
    rw [hbid, hid] at he
    rw [Bits.twoPow_inj hb he, hcur, hfree] at hbset
    cases hbset

theorem Inv.leave (h : Inv s) (hpc : (s.eps i).pc = .connected) :
    Inv (s.set i { s.head with connections := s.head.connections &&& ~~~(s.eps i).connId }
      { s.eps i with pc := (s.eps i).lang.unconnected } 0) := by
  have hbuilt : s.head.constructed = true := (h.fits i).built (by rw [hpc]; rfl)
  obtain ⟨b, hb, hid, -⟩ := (h.fits i).own hpc
  have hplain : ∀ l : Lang, l.unconnected.inside = false ∧ l.unconnected.building = false ∧
    l.unconnected.placing = false ∧
      l.unconnected ≠ .lock ∧ l.unconnected ≠ .connected ∧ ∀ c, l.unconnected ≠ .casConns c := by
    intro l
    cases l <;> exact ⟨rfl, rfl, rfl, nofun, nofun, nofun⟩
  obtain ⟨h1, h2, h3, h4, h5, h6⟩ := hplain (s.eps i).lang
  refine h.move (n := 0) ⟨fun he => ?_, fun _ => hbuilt, fun he => ?_, fun he => ?_, fun c hc => absurd hc (h6 c),
    fun hc => absurd hc h5⟩ (fun j hj => ?_) (fun he => ?_) (fun _ _ _ he => ?_) (fun j hj hjin hw => ?_) h.clear
    (fun hc => absurd hc h5)
  · rw [h2] at he
    cases he
  · rw [h3] at he
    cases he
  · rw [h1] at he
    cases he
  · have hf := h.fits j
    refine ⟨hf.building, hf.built, hf.placing, hf.key, hf.room, fun hjc => ?_⟩
    obtain ⟨c, hc, hcid, hcset⟩ := hf.own hjc
    refine ⟨c, hc, hcid, ?_⟩
    have hne : c ≠ b := fun he => hj (h.alone j i hjc hpc (by rw [hcid, hid, he]))
    rw [hid, BitVec.getLsbD_and, hcset, BitVec.getLsbD_not, BitVec.getLsbD_twoPow]
    simp [hc, hne.symm]
  · rw [h1] at he
    cases he
  · rw [h1] at he
    cases he
  · rcases hw with ⟨k, -, hk⟩ | hw
    · exact h.wait j k hjin hk
    · exact absurd hw h4

omit [DecidableEq ι] in
theorem Inv.fits_taken (h : Inv s) (j : ι) : (s.eps j).Fits { s.head with lc := 1 } := by
  have hf := h.fits j
  exact ⟨hf.building, hf.built, hf.placing, fun _ => Or.inl (show (1 : BitVec 32) ≠ 0 by decide), hf.room, hf.own⟩

theorem Inv.exchange (h : Inv s) (hpc : (s.eps i).pc = .lock) :
    Inv (s.set i { s.head with lc := 1 } { s.eps i with pc := if s.head.lc = 0 then .recheck else .lock } 0) := by
  have hlc : ({ s.head with lc := 1 } : Head).lc ≠ 0 := show (1 : BitVec 32) ≠ 0 by decide
  split
  · rename_i hfree
    have hno : ∀ j, (s.eps j).pc.inside = false := by
      intro j
      by_contra hj
      exact h.wait j i (by simpa using hj) hpc hfree
    exact h.move (n := 0) ⟨nofun, nofun, nofun, fun _ => Or.inl hlc, nofun, nofun⟩ (fun j _ => h.fits_taken j)
      (fun _ => Or.inr hno) (fun _ _ _ _ => hlc) (fun _ _ _ _ => hlc) h.clear nofun
  · exact h.move (n := 0) ⟨nofun, nofun, nofun, nofun, nofun, nofun⟩ (fun j _ => h.fits_taken j) nofun
      (fun _ _ _ _ => hlc) (fun _ _ _ _ => hlc) h.clear nofun

/-- Nobody waits for the lock when it is constructed anew, and nobody tests the flag from then on until it is set. -/
def undisturbed (s : State ι) (a : Act ι) : Prop :=
  match a.2, (s.eps a.1).pc with
  | .go, .newLc => ∀ j, (s.eps j).pc ≠ .lock
  | .go, .check => ∀ j, (s.eps j).unlatched = false
  | _, _ => True

theorem Inv.go (h : Inv s) (hok : undisturbed s (i, .go)) (hst : (s.eps i).step s.head = some (g, e, n)) :
    Inv (s.set i g e n) := by
  have hf := h.fits i
  unfold Endpoint.step at hst
  cases hpc : (s.eps i).pc <;> rw [hpc] at hst <;> simp only [reduceCtorEq, Option.some.injEq, Prod.mk.injEq] at hst
  case check =>
    obtain ⟨rfl, rfl, rfl⟩ := hst
    simp only [undisturbed, hpc] at hok
    split
    · rename_i hcon
      exact h.outside ⟨nofun, fun _ => hcon, nofun, nofun, nofun, nofun⟩ rfl nofun nofun
    · rename_i hcon
      refine h.outside ⟨nofun, nofun, nofun, nofun, nofun, nofun⟩ rfl nofun fun _ j _ hj => ?_
      rcases (h.fits j).key hj with hlc | hun | hun
      · exact hlc
      · rw [hok j] at hun
        cases hun
      · exact absurd ((h.fits j).built (by rw [hun]; rfl)) hcon
  case lock =>
    obtain ⟨rfl, rfl, rfl⟩ := hst
    exact h.exchange hpc
  case recheck =>
    obtain ⟨rfl, rfl, rfl⟩ := hst
    have hin : (s.eps i).pc.inside = true := by rw [hpc]; rfl
    have hlc : s.head.lc ≠ 0 := hf.latched (Or.inl hpc)
    split
    · rename_i hcon
      exact h.within hin ⟨nofun, fun _ => hcon, nofun, fun _ => Or.inl hlc, nofun, nofun⟩ (fun j _ => h.fits j) nofun
        (fun _ _ => hlc) h.clear
    · rename_i hcon
      have hcon : s.head.constructed = false := by simpa using hcon
      split
      · exact h.within hin ⟨fun _ => hcon, nofun, nofun, fun _ => Or.inl hlc, nofun, nofun⟩ (fun j _ => h.fits j) nofun
          (fun _ _ => hlc) h.clear
      · rename_i hlang
        exact h.within hin ⟨fun _ => hcon, nofun, fun _ => hlang, fun _ => Or.inl hlc, nofun, nofun⟩
          (fun j _ => h.fits j)
          nofun (fun _ _ => hlc) h.clear
  case reset =>
    obtain ⟨rfl, rfl, rfl⟩ := hst
    have hlc : s.head.lc ≠ 0 := hf.latched (Or.inr (Or.inl hpc))
    exact h.reset (by rw [hpc]; rfl) (by rw [hpc]; rfl)
      ⟨fun _ => hf.building (by rw [hpc]; rfl), nofun, nofun, fun _ => Or.inl hlc, nofun, nofun⟩ nofun
  case newCc =>
    obtain ⟨rfl, rfl, rfl⟩ := hst
    have hlc : s.head.lc ≠ 0 := hf.latched (Or.inr (Or.inr hpc))
    exact h.reset (by rw [hpc]; rfl) (by rw [hpc]; rfl)
      ⟨fun _ => hf.building (by rw [hpc]; rfl), nofun, fun _ => hf.placing (by rw [hpc]; rfl),
      fun _ => Or.inl hlc, nofun, nofun⟩ nofun
  case newLc =>
    obtain ⟨rfl, rfl, rfl⟩ := hst
    simp only [undisturbed, hpc] at hok
    have hin : (s.eps i).pc.inside = true := by rw [hpc]; rfl
    exact h.within hin ⟨fun _ => hf.building (by rw [hpc]; rfl), nofun, fun _ => hf.placing (by rw [hpc]; rfl),
      fun _ => Or.inr (Or.inl rfl), nofun, nofun⟩ (h.fits_lc hin 0) nofun (fun ⟨j, hj⟩ => absurd hj (hok j)) h.clear
  case newFlag =>
    obtain ⟨rfl, rfl, rfl⟩ := hst
    have hin : (s.eps i).pc.inside = true := by rw [hpc]; rfl
    have hcon : s.head.constructed = false := hf.building (by rw [hpc]; rfl)
    have hlang : (s.eps i).lang = .cpp := hf.placing (by rw [hpc]; rfl)
    rw [show ({ s.head with constructed := false } : Head) = s.head by rw [← hcon]]
    exact h.within hin ⟨fun _ => hcon, nofun, nofun, fun _ => Or.inr (Or.inl (by simp [Endpoint.unlatched, hlang])),
      nofun, nofun⟩ (fun j _ => h.fits j) nofun (fun ⟨j, hj⟩ _ => h.wait i j hin hj) h.clear
  case publish =>
    obtain ⟨rfl, rfl, rfl⟩ := hst
    exact h.publish hpc
  case unlock =>
    obtain ⟨rfl, rfl, rfl⟩ := hst
    have hin : (s.eps i).pc.inside = true := by rw [hpc]; rfl
    exact h.within hin ⟨nofun, fun _ => hf.built (by rw [hpc]; rfl), nofun, nofun, nofun, nofun⟩ (h.fits_lc hin 0) nofun
      nofun h.clear
  case loadConns =>
    have hcon : s.head.constructed = true := hf.built (by rw [hpc]; rfl)
    split at hst
    · simp only [Option.some.injEq, Prod.mk.injEq] at hst
      obtain ⟨rfl, rfl, rfl⟩ := hst
      cases hl : (s.eps i).lang
      · exact h.outside ⟨nofun, nofun, nofun, nofun, nofun, nofun⟩ rfl nofun nofun
      · exact h.outside ⟨nofun, fun _ => hcon, nofun, nofun, nofun, nofun⟩ rfl nofun nofun
    · rename_i hroom
      simp only [Option.some.injEq, Prod.mk.injEq] at hst
      obtain ⟨rfl, rfl, rfl⟩ := hst
      refine h.outside ⟨nofun, fun _ => hcon, nofun, nofun, fun curr hc => ?_, nofun⟩ rfl nofun nofun
      cases hc
      exact hroom
  case casConns curr =>
    split at hst
    · rename_i hcur
      simp only [Option.some.injEq, Prod.mk.injEq] at hst
      obtain ⟨rfl, rfl, rfl⟩ := hst
      exact h.claim hpc hcur
    · simp only [Option.some.injEq, Prod.mk.injEq] at hst
      obtain ⟨rfl, rfl, rfl⟩ := hst
      exact h.outside ⟨nofun, fun _ => hf.built (by rw [hpc]; rfl), nofun, nofun, nofun, nofun⟩ rfl nofun nofun

theorem Inv.step {a : Act ι} (h : Inv s) (hok : undisturbed s a) (hst : s.step a = some t) : Inv t := by
  obtain ⟨g, e, n, hact, rfl⟩ := State.step_cases hst
  obtain ⟨i, a⟩ := a
  have hf := h.fits i
  cases a with
  | go => exact h.go hok hact
  | opens lang =>
    simp only [Endpoint.act] at hact
    split at hact <;> cases hact
    exact h.outside ⟨nofun, nofun, nofun, nofun, nofun, nofun⟩ rfl nofun nofun
  | connect =>
    simp only [Endpoint.act] at hact
    split at hact <;> cases hact
    rename_i hpc
    exact h.outside ⟨nofun, fun _ => hf.built (by rw [hpc]; rfl), nofun, nofun, nofun, nofun⟩ rfl nofun nofun
  | fail =>
    simp only [Endpoint.act] at hact
    split at hact <;> cases hact
    rename_i hpc
    exact h.outside ⟨nofun, fun _ => hf.built (by rw [hpc]; rfl), nofun, nofun, nofun, nofun⟩ rfl nofun nofun
  | disconnect =>
    simp only [Endpoint.act] at hact
    split at hact <;> cases hact
    rename_i hpc
    exact h.leave hpc

end Step

/-! ## Runs -/

/-- A zeroed segment that nobody has opened yet. -/
structure Zeroed (s : State ι) : Prop where
  head : s.head = ⟨0, 0, false⟩
  closed : ∀ i, (s.eps i).pc = .closed
  claims : s.claims = 0

theorem Zeroed.inv (h : Zeroed s) : Inv s := by
  have hno : ∀ i pc, pc ≠ .closed → (s.eps i).pc ≠ pc := by
    intro i pc hpc hi
    rw [h.closed i] at hi
    exact hpc hi.symm
  refine ⟨fun i => ?_, fun i j hi => ?_, fun i j hi => ?_, fun _ => h.claims, fun i j hi => absurd hi (hno i _ nofun)⟩
  · refine ⟨fun hi => ?_, fun hi => ?_, fun hi => ?_, fun hi => ?_, fun curr hi => absurd hi (hno i _ nofun),
      fun hi => absurd hi (hno i _ nofun)⟩
    all_goals
      rw [h.closed i] at hi
      cases hi
  · rw [h.closed i] at hi
    cases hi
  · rw [h.closed i] at hi
    cases hi

/-- The openers are of one language. -/
def Act.by (lang : Lang) (a : Act ι) : Prop := ∀ l, a.2 = .opens l → l = lang

instance (lang : Lang) (a : Act ι) : Decidable (Act.by lang a) := by
  unfold Act.by
  cases a.2
  case opens l => exact decidable_of_iff (l = lang) (by simp)
  all_goals exact isTrue nofun

theorem Endpoint.act_rust {h g : Head} {e e' : Endpoint} {a : EAct} {n : Nat}
    (he : e.pc = .closed ∨ e.lang = .rust ∧ e.pc.placing = false) (ha : ∀ l, a = .opens l → l = .rust)
    (hact : e.act h a = some (g, e', n)) : e'.pc = .closed ∨ e'.lang = .rust ∧ e'.pc.placing = false := by
  rcases he with hpc | ⟨hl, hpl⟩
  · -- a closed endpoint only opens
    cases a <;> simp only [Endpoint.act, Endpoint.step, hpc, reduceCtorEq, Option.some.injEq, Prod.mk.injEq] at hact
    obtain ⟨-, rfl, -⟩ := hact
    exact Or.inr ⟨ha _ rfl, rfl⟩
  · have hun : e.lang.unconnected = .closed := by rw [hl]; rfl
    cases a with
    | go =>
      simp only [Endpoint.act, Endpoint.step] at hact
      cases hpc : e.pc <;> rw [hpc] at hact hpl <;> simp only [reduceCtorEq] at hact
      case recheck =>
        cases hact
        refine Or.inr ⟨hl, ?_⟩
        simp only [hl]
        split <;> rfl
      case newCc | newLc | newFlag => cases hpl
      case check | lock =>
        cases hact
        refine Or.inr ⟨hl, ?_⟩
        simp only
        split <;> rfl
      case loadConns =>
        split at hact <;> cases hact
        · exact Or.inl hun
        · exact Or.inr ⟨hl, rfl⟩
      case casConns =>
        split at hact <;> cases hact <;> exact Or.inr ⟨hl, rfl⟩
      all_goals
        cases hact
        exact Or.inr ⟨hl, rfl⟩
    | opens l =>
      simp only [Endpoint.act] at hact
      split at hact <;> cases hact
      exact Or.inr ⟨ha _ rfl, rfl⟩
    | disconnect =>
      simp only [Endpoint.act] at hact
      split at hact <;> cases hact
      exact Or.inl hun
    | _ =>
      simp only [Endpoint.act] at hact
      split at hact <;> cases hact
      exact Or.inr ⟨hl, rfl⟩

section Runs
variable [DecidableEq ι] {s₀ : State ι} {acts : List (Act ι)}

/-- Whoever has opened the ring runs `init_header`. -/
def Rust (s : State ι) : Prop := ∀ i, (s.eps i).pc = .closed ∨ (s.eps i).lang = .rust ∧ (s.eps i).pc.placing = false

omit [DecidableEq ι] in
theorem Rust.undisturbed (h : Rust s) (a : Act ι) : undisturbed s a := by
  have hun : ∀ j, (s.eps j).unlatched = false := by
    intro j
    rcases h j with hpc | ⟨hl, hpc⟩
    · simp [Endpoint.unlatched, hpc]
    · have : (s.eps j).pc ≠ .newFlag := fun hn => by
        rw [hn] at hpc
        cases hpc
      simp [Endpoint.unlatched, hl, this]
  unfold Header.undisturbed
  split
  · rename_i hpc
    rcases h a.1 with hc | ⟨-, hc⟩ <;> rw [hpc] at hc <;> cases hc
  · exact hun
  · trivial

theorem Rust.step {a : Act ι} (h : Rust s) (ha : Act.by .rust a) (hst : s.step a = some t) : Rust t := by
  obtain ⟨g, e, n, hact, rfl⟩ := State.step_cases hst
  intro j
  by_cases hj : j = a.1
  · simp only [State.set, hj, update_self]
    exact Endpoint.act_rust (h a.1) ha hact
  · simp only [State.set, update_of_ne hj]
    exact h j

/-- What holds of the endpoints of one ring at any time. -/
structure Sound (s : State ι) : Prop where
  /-- The connection word is cleared only before any bit was claimed. -/
  reset : ∀ i, (s.eps i).pc = .reset ∨ (s.eps i).pc = .newCc → s.claims = 0
  one : ∀ i j, (s.eps i).pc.inside = true → (s.eps j).pc.inside = true → i = j
  own : ∀ i, (s.eps i).pc = .connected → ∃ b < 32, (s.eps i).connId = BitVec.twoPow 32 b ∧
    s.head.connections.getLsbD b = true
  alone : ∀ i j, (s.eps i).pc = .connected → (s.eps j).pc = .connected → (s.eps i).connId = (s.eps j).connId → i = j

omit [DecidableEq ι] in
theorem Inv.sound (h : Inv s) : Sound s := by
  refine ⟨fun i hi => h.clear ((h.fits i).building ?_), h.one, fun i hi => (h.fits i).own hi, h.alone⟩
  rcases hi with hi | hi <;> rw [hi] <;> rfl

/-- **The header is constructed once, and every receiver has a bit of its own.** A connect fails only at a moment when
all 32 bits are set. -/
theorem header_once (h0 : Zeroed s₀) (hrun : Run State.step (fun _ a => Act.by .rust a) s₀ acts s) :
    Sound s ∧ ∀ i t, (s.eps i).pc = .loadConns → s.step (i, .go) = some t → (t.eps i).pc = .closed →
      s.head.connections = BitVec.allOnes 32 := by
  have hr : Rust s ∧ Inv s := by
    refine hrun.inv (fun s => Rust s ∧ Inv s) ⟨fun i => Or.inl (h0.closed i), h0.inv⟩ ?_
    rintro s a t ⟨hr, hi⟩ ha hst
    exact ⟨hr.step ha hst, hi.step (hr.undisturbed a) hst⟩
  refine ⟨hr.2.sound, fun i t hpc hst hcl => ?_⟩
  obtain ⟨g, e, n, hact, rfl⟩ := State.step_cases hst
  simp only [State.set, update_self] at hcl
  simp only [Endpoint.act, Endpoint.step, hpc] at hact
  split at hact
  · rename_i hfull
    exact Bits.eq_allOnes_of_or hfull
  · cases hact
    cases hcl

/-- **So it is for `conn_head_base::init`, while nobody meets the header under construction.** -/
theorem init_once (h0 : Zeroed s₀) (hrun : Run State.step (fun s a => Act.by .cpp a ∧ undisturbed s a) s₀ acts s) :
    Sound s :=
  (hrun.inv Inv h0.inv fun _ _ _ hi ha hst => hi.step ha.2 hst).sound

end Runs

/-! ## On a fresh ring -/

/-- Two endpoints of a ring nobody has opened. -/
def fresh : State (Fin 2) := ⟨⟨0, 0, false⟩, fun _ => ⟨.rust, .closed, 0⟩, 0⟩

theorem zeroed_fresh : Zeroed fresh := ⟨rfl, fun _ => rfl, rfl⟩

instance [DecidableEq ι] [Fintype ι] (s : State ι) (a : Act ι) : Decidable (undisturbed s a) := by
  unfold undisturbed
  split <;> infer_instance

/-- Endpoint `i` opens the ring, in `n` accesses, and connects. -/
def joining (i : Fin 2) (lang : Lang) (n : Nat) : List (Act (Fin 2)) :=
  (i, .opens lang) :: List.replicate n (i, .go) ++ [(i, .connect), (i, .go), (i, .go)]

theorem header_once_pair : ∃ s, Run State.step (fun _ a => Act.by .rust a) fresh
    (joining 0 .rust 6 ++ joining 1 .rust 1) s ∧
    s.head = ⟨3, 0, true⟩ ∧ (s.eps 0).pc = .connected ∧ (s.eps 1).pc = .connected ∧
    (s.eps 0).connId ≠ (s.eps 1).connId := by
  refine exists_run_imp (fun s => s.head = ⟨3, 0, true⟩ ∧ (s.eps 0).pc = .connected ∧ (s.eps 1).pc = .connected)
    (by decide +kernel) fun s hrun hs => ?_
  obtain ⟨hh, h0, h1⟩ := hs
  refine ⟨hh, h0, h1, fun he => ?_⟩
  have := (header_once zeroed_fresh hrun).1.alone 0 1 h0 h1 he
  cases this

theorem init_once_pair : ∃ s, Run State.step (fun s a => Act.by .cpp a ∧ undisturbed s a) fresh
      (joining 0 .cpp 8 ++ joining 1 .cpp 1) s ∧
    (s.eps 0).pc = .connected ∧ (s.eps 1).pc = .connected ∧ (s.eps 0).connId ≠ (s.eps 1).connId := by
  refine exists_run_imp (fun s => (s.eps 0).pc = .connected ∧ (s.eps 1).pc = .connected) (by decide +kernel)
    fun s hrun hs => ?_
  obtain ⟨h0, h1⟩ := hs
  refine ⟨h0, h1, fun he => ?_⟩
  have := (init_once zeroed_fresh hrun).alone 0 1 h0 h1 he
  cases this

/-- Endpoint 0 constructs the lock anew, endpoint 1 takes it. -/
def intrude : List (Act (Fin 2)) :=
  (0, .opens .cpp) :: List.replicate 5 (0, .go) ++ [(1, .opens .cpp), (1, .go), (1, .go)]

/-- Endpoint 1 finds the flag clear; endpoint 0 sets it, leaves and connects; endpoint 1 goes on. -/
def wipe : List (Act (Fin 2)) := (1, .go) :: List.replicate 3 (0, .go) ++ [(0, .connect), (0, .go), (0, .go), (1, .go)]

/-- **Two endpoints construct the header, and the second wipes the first one's bit.** -/
theorem bit_wiped : ∃ s t, Run State.step (fun _ a => Act.by .cpp a) fresh intrude s ∧
    (s.eps 0).pc = .newFlag ∧ (s.eps 1).pc = .recheck ∧
    Run State.step (fun _ a => Act.by .cpp a) fresh (intrude ++ wipe) t ∧
    (t.eps 0).pc = .connected ∧ (t.eps 0).connId = 1 ∧ t.head.connections = 0 := by
  obtain ⟨s, hs, hs'⟩ := exists_run State.step (fun _ a => Act.by .cpp a) fresh intrude
    (fun s => ((s.eps 0).pc, (s.eps 1).pc)) (x := (.newFlag, .recheck)) (by decide +kernel)
  obtain ⟨t, ht, ht'⟩ := exists_run State.step (fun _ a => Act.by .cpp a) fresh (intrude ++ wipe)
    (fun t => ((t.eps 0).pc, (t.eps 0).connId, t.head.connections)) (x := (.connected, 1, 0)) (by decide +kernel)
  simp only [Prod.mk.injEq] at hs' ht'
  exact ⟨s, t, hs, hs'.1, hs'.2, ht, ht'⟩

end ThothIpc.Header
