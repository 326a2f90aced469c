import ThothIpc.SyncAbi.Model

/-!
# All openers agree on the stamp

* `Opener.Fits` : what an opener's place says of the stamp;
* `Inv` : at most one opener ever writes the fields, and a published stamp is some opener's tuple, whole;
* `stamp_agreed` : who returns `Ok` expected the published tuple, which never changes.
-/

namespace ThothIpc.SyncAbi
open Function Steps

/-! ## Fields -/

theorem Expected.get_set_self (x : Expected) (v : BitVec 32) (f : Field) : (x.set v f).get f = v := by
  cases f <;> rfl

theorem Expected.get_set_ne (x : Expected) (v : BitVec 32) {f g : Field} (h : g ≠ f) : (x.set v f).get g = x.get g := by
  cases f <;> cases g <;> first | rfl | exact absurd rfl h

theorem Expected.ext_get {x y : Expected} (h : ∀ f, x.get f = y.get f) : x = y := by
  obtain ⟨a, b, c, d, e⟩ := x
  obtain ⟨a', b', c', d', e'⟩ := y
  have ha : a = a' := h .major
  have hb : b = b' := h .minor
  have hc : c = c' := h .backend
  have hd : d = d' := h .kind
  have he : e = e' := h .payload
  rw [ha, hb, hc, hd, he]

theorem Field.index_next {f f' : Field} (h : f.next = some f') : f'.index = f.index + 1 := by
  cases f <;> cases h <;> rfl

theorem Field.index_last {f : Field} (h : f.next = none) (g : Field) : g.index < f.index + 1 := by
  cases f with
  | payload => cases g <;> decide
  | _ => cases h

theorem Field.index_inj {f g : Field} (h : g.index = f.index) : g = f := by
  cases f <;> cases g <;> first | rfl | cases h

theorem Expected.set_agrees {x y : Expected} {f : Field} (h : ∀ g, g.index < f.index → x.get g = y.get g) {v : BitVec 32}
    (hv : v = y.get f) (g : Field) (hg : g.index < f.index + 1) : (x.set v f).get g = y.get g := by
  by_cases hgf : g = f
  · subst hgf
    rw [Expected.get_set_self, hv]
  · rw [Expected.get_set_ne x v hgf]
    apply h
    have : g.index ≠ f.index := fun he => hgf (Field.index_inj he)
    omega

theorem validate_ok {expected actual : Expected} : validate expected actual = .ok () ↔ expected = actual := by
  unfold validate
  constructor
  · intro h
    split at h
    · rename_i hall
      obtain ⟨h1, h2, h3, h4, h5⟩ := hall
      cases expected
      cases actual
      simp only at h1 h2 h3 h4 h5
      rw [h1, h2, h3, h4, h5]
    · cases h
  · rintro rfl
    rw [if_pos ⟨rfl, rfl, rfl, rfl, rfl⟩]

theorem validate_error {expected actual : Expected} {e : Err} (h : validate expected actual = .error e) :
    e = .mismatch actual ∧ expected ≠ actual := by
  constructor
  · unfold validate at h
    split at h
    · cases h
    · cases h
      rfl
  · intro he
    rw [validate_ok.2 he] at h
    cases h

/-! ## The invariant -/

/-- The opener has claimed the stamp, and has not published it. -/
def Pc.writes : Pc → Bool
  | .store _ => true
  | .publish => true
  | _ => false

/-- What the opener's place says of the stamp. -/
def Opener.Fits (m : Stamp) (o : Opener) : Prop :=
  match o.pc with
  | .store f => m.magic = syncAbiInitInProgress ∧ ∀ g, g.index < f.index → m.fields.get g = o.expected.get g
  | .publish => m.magic = syncAbiInitInProgress ∧ m.fields = o.expected
  | .read f got => m.magic = syncAbiMagic ∧ ∀ g, g.index < f.index → got.get g = m.fields.get g
  | .returned (.ok _) => m.magic = syncAbiMagic ∧ o.expected = m.fields
  | .returned (.error (.mismatch actual)) => m.magic = syncAbiMagic ∧ actual = m.fields ∧ o.expected ≠ actual
  | .returned (.error (.badMagic _)) => False
  | _ => True

/-- What an access does to the stamp: nothing; or it claims it, stores one field, or publishes it. -/
inductive Touches (m : Stamp) (o : Opener) : Stamp → Opener → Prop
  | keep {o' : Opener} (hw : o.pc.writes = false) (hw' : o'.pc.writes = false) (hf : o'.Fits m)
      (he : o.pc ≠ .idle → o'.expected = o.expected ∧ o'.pc ≠ .idle) : Touches m o m o'
  | die (hw : o.pc.writes = true) : Touches m o m { o with pc := .dead }
  | claim (hpc : o.pc = .claim) (hm : m.magic = 0) :
      Touches m o { m with magic := syncAbiInitInProgress } { o with pc := .store .major }
  | store (f : Field) (hpc : o.pc = .store f) :
      Touches m o { m with fields := m.fields.set (o.expected.get f) f } { o with pc := match f.next with
        | some f' => .store f'
        | none => .publish }
  | publish (hpc : o.pc = .publish) :
      Touches m o { m with magic := syncAbiMagic } { o with pc := .returned (.ok ()) }

/-- The magic word is one of the three. -/
def Stamp.Sound (m : Stamp) : Prop := m.magic = 0 ∨ m.magic = syncAbiInitInProgress ∨ m.magic = syncAbiMagic

theorem Opener.step_touches {m m' : Stamp} {o o' : Opener} (hm : m.Sound) (hf : o.Fits m)
    (h : o.step m = some (m', o')) : Touches m o m' o' := by
  unfold Opener.step at h
  cases hpc : o.pc <;> simp only [hpc] at h
  case idle => cases h
  case load =>
    have hne : o.pc ≠ .idle := by
      rw [hpc]
      exact Pc.noConfusion
    have hw : o.pc.writes = false := by
      rw [hpc]
      rfl
    split at h
    · rename_i hmagic
      cases h
      exact .keep hw rfl ⟨hmagic, fun g hg => absurd hg (Nat.not_lt_zero _)⟩ fun _ => ⟨rfl, Pc.noConfusion⟩
    · split at h
      · cases h
        exact .keep hw hw hf fun _ => ⟨rfl, hne⟩
      · split at h
        · cases h
          exact .keep hw rfl trivial fun _ => ⟨rfl, Pc.noConfusion⟩
        · -- the magic word is one of the three, so none is reported
          rename_i h1 h2 h3
          rcases hm with h0 | h0 | h0
          · exact absurd h0 h3
          · exact absurd h0 h2
          · exact absurd h0 h1
  case claim =>
    split at h
    · rename_i hmagic
      cases h
      exact .claim hpc hmagic
    · cases h
      refine .keep ?_ rfl trivial fun _ => ⟨rfl, Pc.noConfusion⟩
      rw [hpc]
      rfl
  case store f =>
    cases h
    exact .store f hpc
  case publish =>
    cases h
    exact .publish hpc
  case read f got =>
    cases h
    unfold Opener.Fits at hf
    simp only [hpc] at hf
    have hgot := Expected.set_agrees hf.2 (v := m.fields.get f) rfl
    have hw : o.pc.writes = false := by
      rw [hpc]
      rfl
    cases hn : f.next with
    | some f' =>
      refine .keep hw rfl ⟨hf.1, fun g hg => hgot g ?_⟩ fun _ => ⟨rfl, Pc.noConfusion⟩
      rw [Field.index_next hn] at hg
      exact hg
    | none =>
      -- all five fields are loaded: the verdict is on the stamp itself
      have hall : got.set (m.fields.get f) f = m.fields :=
        Expected.ext_get fun g => hgot g (Field.index_last hn g)
      simp only [hall]
      refine .keep hw rfl ?_ fun _ => ⟨rfl, Pc.noConfusion⟩
      unfold Opener.Fits
      cases hv : validate o.expected m.fields with
      | ok u => exact ⟨hf.1, validate_ok.1 hv⟩
      | error e =>
        obtain ⟨rfl, hne⟩ := validate_error hv
        exact ⟨hf.1, rfl, hne⟩
  case returned => cases h
  case dead => cases h

theorem Opener.act_touches {m m' : Stamp} {o o' : Opener} {a : Act} (hm : m.Sound) (hf : o.Fits m)
    (h : o.act m a = some (m', o')) : Touches m o m' o' := by
  cases a with
  | opens x =>
    simp only [Opener.act] at h
    split at h
    · rename_i hpc
      cases h
      refine .keep ?_ rfl trivial fun hne => absurd hpc hne
      rw [hpc]
      rfl
    · cases h
  | go => exact Opener.step_touches hm hf h
  | late =>
    simp only [Opener.act] at h
    split at h
    · rename_i hpc
      split at h
      · cases h
        refine .keep ?_ rfl trivial fun _ => ⟨rfl, Pc.noConfusion⟩
        rw [hpc]
        rfl
      · cases h
    · cases h
  | die =>
    simp only [Opener.act] at h
    split at h
    · cases h
    · cases h
      cases hw : o.pc.writes with
      | true => exact .die hw
      | false => exact .keep hw rfl trivial fun _ => ⟨rfl, Pc.noConfusion⟩

structure Inv {ι : Type} (s : State ι) : Prop where
  sound : s.stamp.Sound
  fits : ∀ i, (s.openers i).Fits s.stamp
  one : ∀ i j, (s.openers i).pc.writes = true → (s.openers j).pc.writes = true → i = j
  whole : s.stamp.magic = syncAbiMagic → ∃ w, (s.openers w).pc ≠ .idle ∧ s.stamp.fields = (s.openers w).expected

theorem magic_ne : syncAbiInitInProgress ≠ syncAbiMagic ∧ (0 : BitVec 32) ≠ syncAbiMagic ∧
    (0 : BitVec 32) ≠ syncAbiInitInProgress := by decide

/-- Before the stamp is published, only the opener that writes it depends on it. -/
theorem Opener.Fits.early {m m' : Stamp} {o : Opener} (h : o.Fits m) (hm : m.magic ≠ syncAbiMagic)
    (hw : o.pc.writes = false) : o.Fits m' := by
  unfold Opener.Fits at h ⊢
  split at h
  · rename_i hpc
    rw [hpc] at hw
    cases hw
  · rename_i hpc
    rw [hpc] at hw
    cases hw
  · exact absurd h.1 hm
  · exact absurd h.1 hm
  · exact absurd h.1 hm
  · exact h.elim
  · trivial

theorem Opener.Fits.writing {m : Stamp} {o : Opener} (h : o.Fits m) (hw : o.pc.writes = true) :
    m.magic = syncAbiInitInProgress := by
  unfold Opener.Fits at h
  cases hpc : o.pc <;> simp only [hpc, Pc.writes] at h hw
  case store => exact h.1
  case publish => exact h.1
  all_goals cases hw

namespace Inv

variable {ι : Type} [DecidableEq ι] {s : State ι} {i : ι} {m : Stamp} {o : Opener}

theorem keep (h : Inv s) (hw : o.pc.writes = false) (hf : o.Fits s.stamp)
    (he : (s.openers i).pc ≠ .idle → o.expected = (s.openers i).expected ∧ o.pc ≠ .idle) :
    Inv ⟨s.stamp, update s.openers i o⟩ := by
  refine ⟨h.sound, fun j => ?_, fun j k hj hk => ?_, fun hmagic => ?_⟩
  · by_cases hji : j = i
    · subst hji
      simpa only [update_self] using hf
    · simpa only [update_of_ne hji] using h.fits j
  · have hne : ∀ x, ((update s.openers i o) x).pc.writes = true → x ≠ i := by
      rintro x hx rfl
      rw [update_self, hw] at hx
      cases hx
    simp only [update_of_ne (hne j hj)] at hj
    simp only [update_of_ne (hne k hk)] at hk
    exact h.one j k hj hk
  · obtain ⟨w, hidle, hfields⟩ := h.whole hmagic
    refine ⟨w, ?_⟩
    by_cases hwi : w = i
    · subst hwi
      simp only [update_self]
      exact ⟨(he hidle).2, hfields.trans (he hidle).1.symm⟩
    · simp only [update_of_ne hwi]
      exact ⟨hidle, hfields⟩

/-- An opener changes the stamp that is not published yet, and nobody else is writing it. -/
theorem write (h : Inv s) (hm : s.stamp.magic ≠ syncAbiMagic) (halone : ∀ j, j ≠ i → (s.openers j).pc.writes = false)
    (hs : m.Sound) (hf : o.Fits m) (hwhole : m.magic = syncAbiMagic → o.pc ≠ .idle ∧ m.fields = o.expected) :
    Inv ⟨m, update s.openers i o⟩ := by
  refine ⟨hs, fun j => ?_, fun j k hj hk => ?_, fun hmagic => ⟨i, ?_⟩⟩
  · by_cases hji : j = i
    · subst hji
      simpa only [update_self] using hf
    · simpa only [update_of_ne hji] using (h.fits j).early hm (halone j hji)
  · have hself : ∀ x, ((update s.openers i o) x).pc.writes = true → x = i := by
      intro x hx
      by_contra hne
      rw [update_of_ne hne, halone x hne] at hx
      cases hx
    rw [hself j hj, hself k hk]
  · simpa only [update_self] using hwhole hmagic

theorem touch (h : Inv s) (ht : Touches s.stamp (s.openers i) m o) : Inv ⟨m, update s.openers i o⟩ := by
  have halone : (s.openers i).pc.writes = true → ∀ j, j ≠ i → (s.openers j).pc.writes = false := by
    intro hw j hj
    by_contra hne
    exact hj (h.one j i (by simpa using hne) hw)
  cases ht with
  | keep hw hw' hf he => exact h.keep hw' hf he
  | die hw => exact h.keep rfl trivial fun _ => ⟨rfl, Pc.noConfusion⟩
  | claim hpc hm =>
    have hne : s.stamp.magic ≠ syncAbiMagic := by
      rw [hm]
      exact magic_ne.2.1
    refine h.write hne (fun j _ => ?_) (Or.inr (Or.inl rfl)) ⟨rfl, fun g hg => absurd hg (Nat.not_lt_zero _)⟩
      fun he => absurd he magic_ne.1
    -- a writer would have found the word in progress
    by_contra hw
    have := (h.fits j).writing (by simpa using hw)
    rw [hm] at this
    exact magic_ne.2.2 this
  | store f hpc =>
    have hf := h.fits i
    unfold Opener.Fits at hf
    simp only [hpc] at hf
    have hne : s.stamp.magic ≠ syncAbiMagic := by
      rw [hf.1]
      exact magic_ne.1
    have hset := Expected.set_agrees hf.2 (v := (s.openers i).expected.get f) rfl
    refine h.write hne (halone (by rw [hpc]; rfl)) (Or.inr (Or.inl hf.1)) ?_ fun he => absurd he hne
    unfold Opener.Fits
    cases hn : f.next with
    | some f' =>
      refine ⟨hf.1, fun g hg => hset g ?_⟩
      rw [Field.index_next hn] at hg
      exact hg
    | none => exact ⟨hf.1, Expected.ext_get fun g => hset g (Field.index_last hn g)⟩
  | publish hpc =>
    have hf := h.fits i
    unfold Opener.Fits at hf
    simp only [hpc] at hf
    have hne : s.stamp.magic ≠ syncAbiMagic := by
      rw [hf.1]
      exact magic_ne.1
    exact h.write hne (halone (by rw [hpc]; rfl)) (Or.inr (Or.inr rfl)) ⟨rfl, hf.2.symm⟩
      fun _ => ⟨Pc.noConfusion, hf.2⟩

theorem step (h : Inv s) {a : ι × Act} {s' : State ι} (hs : s.step a = some s') :
    Touches s.stamp (s.openers a.1) s'.stamp (s'.openers a.1) ∧ Inv s' := by
  obtain ⟨⟨m, o⟩, hact, rfl⟩ := Option.map_eq_some_iff.mp hs
  have ht := Opener.act_touches h.sound (h.fits a.1) hact
  refine ⟨?_, h.touch ht⟩
  simpa only [update_self] using ht

theorem fixed (h : Inv s) (hm : s.stamp.magic = syncAbiMagic) {a : ι × Act} {s' : State ι} (hs : s.step a = some s') :
    s'.stamp = s.stamp := by
  have ht := (h.step hs).1
  generalize s'.stamp = m' at ht
  generalize s'.openers a.1 = o' at ht
  have hno : (s.openers a.1).pc.writes ≠ true := by
    intro hw
    have := (h.fits a.1).writing hw
    rw [hm] at this
    exact magic_ne.1 this.symm
  cases ht with
  | keep => rfl
  | die => rfl
  | claim hpc h0 =>
    rw [h0] at hm
    exact absurd hm magic_ne.2.1
  | store f hpc =>
    rw [hpc] at hno
    exact absurd rfl hno
  | publish hpc =>
    rw [hpc] at hno
    exact absurd rfl hno

end Inv

/-! ## Runs -/

structure State.New {ι : Type} (s : State ι) : Prop where
  stamp : s.stamp = ⟨0, .blank⟩
  openers : ∀ i, (s.openers i).pc = .idle

theorem State.New.inv {ι : Type} {s : State ι} (h : s.New) : Inv s := by
  have hw : ∀ i, (s.openers i).pc.writes ≠ true := fun i hi => by
    rw [h.openers i] at hi
    cases hi
  refine ⟨?_, fun i => ?_, fun i j hi => absurd hi (hw i), fun hm => ?_⟩
  · rw [h.stamp]
    exact Or.inl rfl
  · unfold Opener.Fits
    rw [h.openers i]
    trivial
  · rw [h.stamp] at hm
    exact absurd hm magic_ne.2.1

variable {ι : Type} [DecidableEq ι]

/-- **The openers of a stamp agree.** Once the magic is published the five fields are one opener's tuple and never
change; whoever returns `Ok` expected it; an error is a stalled wait or a mismatch. -/
theorem stamp_agreed {s₀ s t : State ι} {acts acts' : List (ι × Act)} (h₀ : s₀.New)
    (hs : Run State.step (fun _ _ => True) s₀ acts s) (ht : Run State.step (fun _ _ => True) s acts' t) :
    (s.stamp.magic = syncAbiMagic → t.stamp = s.stamp ∧ (∃ w, s.stamp.fields = (s.openers w).expected) ∧
        ∀ i, (t.openers i).pc = .returned (.ok ()) → (t.openers i).expected = s.stamp.fields) ∧
      (∀ i j, (t.openers i).pc = .returned (.ok ()) → (t.openers j).pc = .returned (.ok ()) →
        (t.openers i).expected = (t.openers j).expected) ∧
      ∀ i r, (t.openers i).pc = .returned r → r = .error .stalled ∨
        t.stamp.magic = syncAbiMagic ∧ r = validate (t.openers i).expected t.stamp.fields := by
  have hinv : Inv s := hs.inv Inv h₀.inv fun u a v hu _ hst => (hu.step hst).2
  have hinv' : Inv t := ht.inv Inv hinv fun u a v hu _ hst => (hu.step hst).2
  have hok : ∀ i, (t.openers i).pc = .returned (.ok ()) →
      t.stamp.magic = syncAbiMagic ∧ (t.openers i).expected = t.stamp.fields := by
    intro i hi
    have hf := hinv'.fits i
    unfold Opener.Fits at hf
    rw [hi] at hf
    exact hf
  refine ⟨fun hm => ?_, fun i j hi hj => ?_, fun i r hr => ?_⟩
  · have hfix : Inv t ∧ t.stamp = s.stamp := ht.inv (fun u => Inv u ∧ u.stamp = s.stamp)
      ⟨hinv, rfl⟩ fun u a v hu _ hst =>
      ⟨(hu.1.step hst).2, (hu.1.fixed (by rw [hu.2]; exact hm) hst).trans hu.2⟩
    obtain ⟨w, -, hw⟩ := hinv.whole hm
    refine ⟨hfix.2, ⟨w, hw⟩, fun i hi => ?_⟩
    rw [(hok i hi).2, hfix.2]
  · rw [(hok i hi).2, (hok j hj).2]
  · have hf := hinv'.fits i
    unfold Opener.Fits at hf
    rw [hr] at hf
    cases r with
    | ok u =>
      refine Or.inr ⟨hf.1, ?_⟩
      rw [hf.2, validate_ok.2 rfl]
    | error e =>
      cases e with
      | stalled => exact Or.inl rfl
      | badMagic found => exact hf.elim
      | mismatch actual =>
        obtain ⟨hm, rfl, hne⟩ := hf
        refine Or.inr ⟨hm, ?_⟩
        cases hv : validate (t.openers i).expected t.stamp.fields with
        | ok u => exact absurd (validate_ok.1 hv) hne
        | error e => rw [(validate_error hv).1]

def three : State (Fin 3) := ⟨⟨0, .blank⟩, fun _ => ⟨.blank, .idle⟩⟩

/-- The stamp of a mutex, and the same with another payload size. -/
def mutexStamp : Expected := ⟨1, 0, 5, 1, 24⟩

def otherStamp : Expected := { mutexStamp with payloadSize := 4 }

/-- The first opener writes the stamp while the second one waits for it. -/
def racing : List (Fin 3 × Act) :=
  [(0, .opens mutexStamp), (1, .opens mutexStamp), (0, .go), (1, .go), (0, .go), (1, .go), (1, .go)] ++
  List.replicate 6 (0, .go)

/-- The second one compares, and a third one comes with another payload size. -/
def comparing : List (Fin 3 × Act) := List.replicate 6 (1, .go) ++ (2, .opens otherStamp) :: List.replicate 6 (2, .go)

theorem stamp_agreed_mutex : ∃ s t, Run State.step (fun _ _ => True) three racing s ∧
    Run State.step (fun _ _ => True) s comparing t ∧ s.stamp = ⟨syncAbiMagic, mutexStamp⟩ ∧ t.stamp = s.stamp ∧
      (t.openers 0).pc = .returned (.ok ()) ∧ (t.openers 1).pc = .returned (.ok ()) ∧
      (t.openers 0).expected = (t.openers 1).expected ∧
      (t.openers 2).pc = .returned (.error (.mismatch mutexStamp)) := by
  obtain ⟨s, hs, hx⟩ := exists_run State.step (fun _ _ => True) three racing
    (fun s => (s.stamp, (exec State.step (fun _ _ => True) s comparing).map fun t =>
      ((t.openers 0).pc, (t.openers 1).pc, (t.openers 2).pc)))
    (x := (⟨syncAbiMagic, mutexStamp⟩,
      some (.returned (.ok ()), .returned (.ok ()), .returned (.error (.mismatch mutexStamp))))) (by decide +kernel)
  obtain ⟨hstamp, hx⟩ := Prod.mk.inj hx
  obtain ⟨t, ht, hpc⟩ := exists_run State.step (fun _ _ => True) s comparing
    (fun t => ((t.openers 0).pc, (t.openers 1).pc, (t.openers 2).pc)) hx
  obtain ⟨h0, hpc⟩ := Prod.mk.inj hpc
  obtain ⟨h1, h2⟩ := Prod.mk.inj hpc
  obtain ⟨hfix, hsame, -⟩ := stamp_agreed (⟨rfl, fun _ => rfl⟩ : three.New) hs ht
  exact ⟨s, t, hs, ht, hstamp, (hfix (by rw [hstamp])).1, h0, h1, hsame 0 1 h0 h1, h2⟩

end ThothIpc.SyncAbi
