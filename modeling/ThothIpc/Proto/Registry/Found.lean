import ThothIpc.Proto.Registry.Map

/-!
# A registration is found again

The name and the channels of a registration are cut to 63 bytes, and read back up to the first 0.

* `Holds` : the first entry of a name is that of a given registration, `Holds.apply` : it stays so as long as its
  process is alive and does not take it back, and no other name is registered that is cut to this one;
* `registered_found` : a registration whose strings fit is found, and not accepted twice;
* `registered_lost` : what happens to strings that do not fit.
-/

namespace ThothIpc.ServiceRegistry
open Keyed Steps

/-- The first entry of the name has these channels and this pid. -/
def Holds (R : Registry) (name control reply : String) (pid : Int) : Prop :=
  ∃ e, lookup Entry.key name R.entries = some e ∧ e.controlChannelStr = control ∧ e.replyChannelStr = reply ∧ e.pid = pid

/-- The process is alive and does not take the registration back, the registry is not cleared, and no other name that is
registered is cut to this one. -/
def Meanwhile (name : String) (pid : Int) (a : (Int → Bool) × Op) : Prop :=
  a.1 pid = true ∧ a.2 ≠ .clear ∧ a.2 ≠ .unregister name pid ∧
    ∀ n control reply p now, a.2 = .register n control reply p now → stored n = name → n = name

/-- An operation, with what is alive then. -/
def Registry.next (R : Registry) (a : (Int → Bool) × Op) : Option Registry := some (R.apply a.1 a.2).2

variable {alive : Int → Bool} {R R' : Registry} {name control reply : String} {pid : Int}

theorem lookup_replace_of_ne {pre post : List Entry} {x e f : Entry}
    (h : lookup Entry.key name (pre ++ e :: post) = some x)
    (hne : x ≠ e) (hf : f.key ≠ some name) : lookup Entry.key name (pre ++ f :: post) = some x := by
  unfold lookup at h ⊢
  rw [List.find?_append] at h ⊢
  cases hp : pre.find? (fun x => x.key = some name) with
  | some y =>
    rw [hp] at h
    exact h
  | none =>
    rw [hp, Option.none_or] at h
    rw [Option.none_or, List.find?_cons_of_neg (by simpa using hf)]
    by_cases he : e.key = some name
    · rw [List.find?_cons_of_pos (by simpa using he)] at h
      exact absurd (Option.some.inj h).symm hne
    · rwa [List.find?_cons_of_neg (by simpa using he)] at h

theorem lookup_sweeps {es es' : List Entry} {x : Entry} (hs : Registry.Sweeps alive es es')
    (h : lookup Entry.key name es = some x) (hx : x.stale alive = false) : lookup Entry.key name es' = some x := by
  unfold lookup at h ⊢
  induction hs with
  | nil => cases h
  | @cons a b es es' hab _ ih =>
    by_cases ha : a.key = some name
    · rw [List.find?_cons_of_pos (by simpa using ha)] at h
      obtain rfl := Option.some.inj h
      rcases hab with rfl | ⟨hd, -⟩
      · exact List.find?_cons_of_pos (by simpa using ha)
      · rw [hx] at hd
        cases hd
    · rw [List.find?_cons_of_neg (by simpa using ha)] at h
      have hb : b.key ≠ some name := by
        rcases hab with rfl | ⟨-, hn⟩
        · exact ha
        · rw [hn]
          simp
      rw [List.find?_cons_of_neg (by simpa using hb)]
      exact ih h

theorem lookup_first {pre post : List Entry} {e : Entry} (hpre : ∀ x ∈ pre, x.key ≠ some name) (he : e.key = some name) :
    lookup Entry.key name (pre ++ e :: post) = some e := by
  unfold lookup
  rw [List.find?_append, List.find?_eq_none.mpr (fun x hx => by simpa using hpre x hx), Option.none_or,
    List.find?_cons_of_pos (by simpa using he)]

theorem key_of_lookup {es : List Entry} {x : Entry} (h : lookup Entry.key name es = some x) : x.key = some name := by
  simpa using List.find?_some h

theorem register_empty (h : name.isEmpty = true) (control reply : String) (pid now : Int) :
    R.register alive name control reply pid now = (false, R) := by
  unfold Registry.register
  rw [h, if_pos rfl]

namespace Holds

theorem of_register (hn : name.isEmpty = false) (hname : fits name) (hc : fits control) (hr : fits reply)
    (hpid : 0 < pid)
    {now : Int} (h : R.register alive name control reply pid now = (true, R')) : Holds R' name control reply pid := by
  have hf := key_fillEntry hn hname control reply hpid now
  have hcase := R.register_cases alive hn control reply pid now
  rw [h] at hcase
  suffices hl : lookup Entry.key name R'.entries = some (fillEntry name control reply pid now) from
    ⟨_, hl, stored_eq hc, stored_eq hr, rfl⟩
  cases hcase with
  | reuse _ hpre _ _ hR' =>
    rw [hR']
    exact lookup_first hpre hf
  | slot hnone hR _ hR' =>
    rw [hR']
    exact lookup_first (fun x hx => hnone x (by rw [hR]; exact List.mem_append_left _ hx)) hf

theorem alive_entry {e : Entry} (h : lookup Entry.key name R.entries = some e) (hp : e.pid = pid)
    (ha : alive pid = true) :
    e.isAlive alive = true := by
  rw [Entry.isAlive_of_active (Entry.active_of_key (key_of_lookup h)), hp]
  exact ha

theorem refused (h : Holds R name control reply pid) (ha : alive pid = true) (control' reply' : String)
    (pid' now : Int) :
    (R.register alive name control' reply' pid' now).1 = false := by
  obtain ⟨e, he, -, -, hp⟩ := h
  have hal := alive_entry he hp ha
  cases hn : name.isEmpty with
  | true => rw [register_empty hn]
  | false =>
    generalize hres : R.register alive name control' reply' pid' now = res
    have hcase := R.register_cases alive hn control' reply' pid' now
    rw [hres] at hcase
    cases hcase with
    | taken _ _ _ _ => rfl
    | reuse hR hpre hk hdead _ =>
      rw [hR, lookup_first hpre hk] at he
      cases he
      rw [hdead] at hal
      cases hal
    | slot hnone _ _ _ =>
      rw [lookup_eq_none_iff.mpr hnone] at he
      cases he
    | full _ _ => rfl

theorem found (h : Holds R name control reply pid) (ha : alive pid = true) :
    ∃ e, (R.find alive name).1 = some e ∧ e.controlChannelStr = control ∧ e.replyChannelStr = reply := by
  obtain ⟨e, he, hc, hr, hp⟩ := h
  refine ⟨e, (Registry.findLoop_spec name R.entries).1.trans ?_, hc, hr⟩
  have hal := alive_entry he hp ha
  have hhas := Entry.has_iff.mpr (key_of_lookup he)
  obtain ⟨-, pre, post, hR, hpre⟩ := List.find?_eq_some_iff_append.mp he
  rw [hR, List.find?_append, List.find?_eq_none.mpr, Option.none_or, List.find?_cons_of_pos (by simp [hhas, hal])]
  intro x hx
  have hk : x.key ≠ some name := by simpa using hpre x hx
  simp [Entry.has_eq_false.mpr hk]

theorem apply (h : Holds R name control reply pid) {o : Op} (ho : Meanwhile name pid (alive, o)) :
    Holds (R.apply alive o).2 name control reply pid := by
  obtain ⟨ha, hclear, hown, hcut⟩ := ho
  obtain ⟨e, he, hc, hr, hp⟩ := h
  have hal := alive_entry he hp ha
  have hstale : e.stale alive = false := by simp [Entry.stale, hal]
  suffices hl : lookup Entry.key name (R.apply alive o).2.entries = some e from ⟨e, hl, hc, hr, hp⟩
  cases o with
  | register n c r p now =>
    show lookup Entry.key name (R.register alive n c r p now).2.entries = some e
    cases hn : n.isEmpty with
    | true => rwa [register_empty hn]
    | false =>
      -- another name's entry does not come to have this name
      have hfill (hne : n ≠ name) : (fillEntry n c r p now).key ≠ some name := fun hk =>
        hne (hcut n c r p now rfl (Entry.nameStr_of_key hk))
      generalize hres : R.register alive n c r p now = res
      have hcase := R.register_cases alive hn c r p now
      rw [hres] at hcase
      cases hcase with
      | taken _ _ _ _ => exact he
      | @reuse pre post x _ hR hpre hk hdead hR' =>
        have hne : e ≠ x := by
          rintro rfl
          rw [hdead] at hal
          cases hal
        rw [hR] at he
        rw [hR']
        refine lookup_replace_of_ne he hne (hfill ?_)
        rintro rfl
        rw [lookup_first hpre hk] at he
        exact hne (Option.some.inj he).symm
      | @slot pre post x _ hnone hR hfree hR' =>
        have hne : e ≠ x := by
          rintro rfl
          rw [hfree (Entry.active_of_key (key_of_lookup he))] at hal
          cases hal
        refine hR' ▸ lookup_replace_of_ne (hR ▸ he) hne (hfill ?_)
        rintro rfl
        rw [lookup_eq_none_iff.mpr hnone] at he
        cases he
      | full _ _ => exact he
  | unregister n p =>
    show lookup Entry.key name (R.unregister n p).2.entries = some e
    generalize hres : R.unregister n p = res
    have hcase := R.unregister_cases n p
    rw [hres] at hcase
    cases hcase with
    | removed hR hk hp' hR' =>
      refine hR' ▸ lookup_replace_of_ne (hR ▸ he) ?_ (by simp)
      rintro rfl
      have hk' := key_of_lookup he
      rw [hk] at hk'
      cases hk'
      exact hown (by rw [← hp', hp])
    | none _ => exact he
  | find n => exact lookup_sweeps (Registry.findLoop_spec n R.entries).2 he hstale
  | findAll start => exact lookup_sweeps (Registry.sweeps_reaped R.entries) he hstale
  | list => exact lookup_sweeps (Registry.sweeps_reaped R.entries) he hstale
  | gc => exact lookup_sweeps (Registry.sweeps_reaped R.entries) he hstale
  | clear => exact absurd rfl hclear

end Holds

/-- **A registration is found.** If a name and channels that fit are accepted, `find` returns an entry with these
channels and the name is refused to everybody, as long as the process is alive. -/
theorem registered_found (hn : name.isEmpty = false) (hname : fits name) (hc : fits control) (hr : fits reply)
    (hpid : 0 < pid) {now : Int} (hreg : R.register alive name control reply pid now = (true, R'))
    {acts : List ((Int → Bool) × Op)} {S : Registry}
    (hrun : Run Registry.next (fun _ a => Meanwhile name pid a) R' acts S)
    (later : Int → Bool) (hlive : later pid = true) :
    (∃ e, (S.find later name).1 = some e ∧ e.controlChannelStr = control ∧ e.replyChannelStr = reply) ∧
      ∀ control' reply' pid' now', (S.register later name control' reply' pid' now').1 = false := by
  have h : Holds S name control reply pid := by
    refine hrun.inv (Holds · name control reply pid) (Holds.of_register hn hname hc hr hpid hreg) ?_
    intro T a U hT ha hU
    cases hU
    exact hT.apply ha
  exact ⟨h.found hlive, fun control' reply' pid' now' => h.refused hlive control' reply' pid' now'⟩

theorem registered_found_once : ∃ R', Registry.fresh.register (fun _ => true) "svc" "c" "r" 7 0 = (true, R') ∧
    ∃ e, (R'.find (fun _ => true) "svc").1 = some e ∧ e.controlChannelStr = "c" ∧ e.replyChannelStr = "r" := by
  have hreg : (Registry.fresh.register (fun _ => true) "svc" "c" "r" 7 0).1 = true := by decide +kernel
  refine ⟨(Registry.fresh.register (fun _ => true) "svc" "c" "r" 7 0).2, Prod.ext hreg rfl, ?_⟩
  exact (registered_found (by decide +kernel) (by decide +kernel) (by decide +kernel) (by decide +kernel) (by norm_num)
    (Prod.ext hreg rfl) .nil (fun _ => true) rfl).1

/-! ## Strings that do not fit -/

def letters (n : Nat) : String := String.ofList (List.replicate n 'a')

/-- **Strings that do not fit.** A name of 64 bytes, or with a 0 in it, is accepted, not found, and accepted again. A
name of 63 bytes is found with the channel of the name that was cut to it. -/
theorem registered_lost :
    (∀ name ∈ [letters 64, "a\x00b"], ∃ R, Registry.fresh.register (fun _ => true) name "c" "r" 7 0 = (true, R) ∧
      (R.find (fun _ => true) name).1 = none ∧ (R.register (fun _ => true) name "c" "r" 7 0).1 = true) ∧
    (∃ R, Registry.fresh.register (fun _ => true) "svc" (letters 64) (letters 62 ++ "é") 7 0 = (true, R) ∧
      (R.find (fun _ => true) "svc").1.map (fun e => (e.controlChannelStr, e.replyChannelStr)) = some (letters 63, "")) ∧
    ∃ R R' R'', Registry.fresh.register (fun _ => true) "svc" "c" "r" 8 0 = (true, R) ∧
      R.register (fun _ => true) (letters 63) "c" "r" 7 0 = (true, R') ∧
      R'.register (fun p => p != 8) (letters 64) "other" "r" 9 0 = (true, R'') ∧
      (R''.find (fun p => p != 8) (letters 63)).1.map Entry.controlChannelStr = some "other" := by
  refine ⟨List.forall_mem_cons.mpr ⟨?_, List.forall_mem_singleton.mpr ?_⟩, ?_, ?_⟩
  · exact ⟨_, Prod.ext (by decide +kernel) rfl, by decide +kernel, by decide +kernel⟩
  · exact ⟨_, Prod.ext (by decide +kernel) rfl, by decide +kernel, by decide +kernel⟩
  · exact ⟨_, Prod.ext (by decide +kernel) rfl, by decide +kernel⟩
  · exact ⟨_, _, _, Prod.ext (by decide +kernel) rfl, Prod.ext (by decide +kernel) rfl, Prod.ext (by decide +kernel) rfl,
      by decide +kernel⟩

end ThothIpc.ServiceRegistry
