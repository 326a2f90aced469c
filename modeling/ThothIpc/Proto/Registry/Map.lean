import ThothIpc.Proto.Registry.Model
import ThothIpc.Lib.Run

/-!
# The registry as a map

What the registry is for: a map from names to registrations of live processes.

* `MapStep` : what an operation does to such a map, from which entries of dead processes may vanish;
* `map_step` : every operation of the registry does just that to the map that its entries stand for, `Registry.map`;
* `registry_refines_map` : so does every sequence of operations and deaths. `latest` has the registrations that were
  accepted and not taken back.
-/

namespace ThothIpc.ServiceRegistry
open Function Keyed Steps

/-! ## The map -/

/-- What is registered under a name. -/
structure Registration where
  control : String
  reply : String
  pid : Int
  deriving DecidableEq

abbrev Map := String → Option Registration

inductive Op where
  | register (name control reply : String) (pid now : Int)
  | unregister (name : String) (pid : Int)
  | find (name : String)
  | findAll (start : String)
  | list
  | gc
  | clear

inductive Out (ε : Type) where
  | bool (b : Bool)
  | entry (e : Option ε)
  | entries (es : List ε)
  | count (n : Nat)
  | unit

def Live (alive : Int → Bool) (M : Map) (name : String) : Prop := ∃ r, M name = some r ∧ alive r.pid = true

/-- Some registrations of dead processes are gone. -/
def Vanish (alive : Int → Bool) (M M' : Map) : Prop := ∀ n, M' n = M n ∨ (M' n = none ∧ ¬Live alive M n)

/-- `name` has a live registration, or as many other names have one as the registry can hold. -/
def Refused (alive : Int → Bool) (M : Map) (name : String) : Prop :=
  Live alive M name ∨ maxServices ≤ {n | n ≠ name ∧ Live alive M n}.ncard

/-- The result holds the live registrations under names that `p` accepts, each once. -/
def Lists (alive : Int → Bool) (M : Map) (p : String → Bool) (es : List (String × Registration)) : Prop :=
  (es.map Prod.fst).Nodup ∧ ∀ n r, (n, r) ∈ es ↔ M n = some r ∧ alive r.pid = true ∧ p n = true

/-- What an operation does to a map, and what it returns. Channels are kept as a field holds them. -/
inductive MapStep (alive : Int → Bool) (M : Map) : Op → Out (String × Registration) → Map → Prop
  | refuse {name control reply : String} {pid now : Int} : Refused alive M name →
      MapStep alive M (.register name control reply pid now) (.bool false) M
  | accept {name control reply : String} {pid now : Int} {M' : Map} : ¬Refused alive M name →
      M' name = some ⟨stored control, stored reply, pid⟩ →
      Vanish alive (update M name (some ⟨stored control, stored reply, pid⟩)) M' →
      MapStep alive M (.register name control reply pid now) (.bool true) M'
  | remove {name : String} {pid : Int} : (∃ r, M name = some r ∧ r.pid = pid) →
      MapStep alive M (.unregister name pid) (.bool true) (update M name none)
  | keep {name : String} {pid : Int} : (∀ r, M name = some r → r.pid ≠ pid) →
      MapStep alive M (.unregister name pid) (.bool false) M
  | find {name : String} {M' : Map} : Vanish alive M M' →
      MapStep alive M (.find name) (.entry (((M name).filter fun r => alive r.pid).map fun r => (name, r))) M'
  | findAll {start : String} {es : List (String × Registration)} {M' : Map} :
      Lists alive M (fun n => (bytes start).isPrefixOf (bytes n)) es → Vanish alive M M' →
      MapStep alive M (.findAll start) (.entries es) M'
  | list {es : List (String × Registration)} {M' : Map} : Lists alive M (fun _ => true) es → Vanish alive M M' →
      MapStep alive M .list (.entries es) M'
  | gc : MapStep alive M .gc (.count {n | ∃ r, M n = some r ∧ alive r.pid = false}.ncard)
      fun n => (M n).filter fun r => alive r.pid
  | clear : MapStep alive M .clear .unit fun _ => none

/-! ## The registry -/

namespace Entry

def registration (e : Entry) : Registration := ⟨e.controlChannelStr, e.replyChannelStr, e.pid⟩

def view (e : Entry) : String × Registration := (e.nameStr, e.registration)

end Entry

def Out.view : Out Entry → Out (String × Registration)
  | bool b => bool b
  | entry e => entry (e.map Entry.view)
  | entries es => entries (es.map Entry.view)
  | count n => count n
  | unit => unit

namespace Registry

def map (R : Registry) : Map := fun n => (lookup Entry.key n R.entries).map Entry.registration

def apply (alive : Int → Bool) (R : Registry) : Op → Out Entry × Registry
  | .register name control reply pid now =>
    (.bool (R.register alive name control reply pid now).1, (R.register alive name control reply pid now).2)
  | .unregister name pid => (.bool (R.unregister name pid).1, (R.unregister name pid).2)
  | .find name => (.entry (R.find alive name).1, (R.find alive name).2)
  | .findAll start => (.entries (R.findAll alive start).1, (R.findAll alive start).2)
  | .list => (.entries (R.list alive).1, (R.list alive).2)
  | .gc => (.count (R.gc alive).1, (R.gc alive).2)
  | .clear => (.unit, R.clear)

end Registry

/-- A service is registered under a name of 1 to 63 bytes, none of them 0, and a positive pid. -/
def Op.Valid : Op → Prop
  | register name _ _ pid _ => name.isEmpty = false ∧ fits name ∧ 0 < pid
  | _ => True

variable {alive : Int → Bool} {R R' : Registry}

theorem map_eq_some (h : Distinct Entry.key R.entries) {n : String} {r : Registration} :
    R.map n = some r ↔ ∃ e ∈ R.entries, e.key = some n ∧ e.registration = r := by
  simp only [Registry.map, Option.map_eq_some_iff, lookup_eq_some_iff h, and_assoc]

theorem alive_registration {e : Entry} {n : String} (h : e.key = some n) : alive e.registration.pid = e.isAlive alive :=
  (Entry.isAlive_of_active (Entry.active_of_key h)).symm

theorem live_iff (h : Distinct Entry.key R.entries) {n : String} :
    Live alive R.map n ↔ ∃ e, lookup Entry.key n R.entries = some e ∧ e.isAlive alive = true := by
  unfold Live
  constructor
  · rintro ⟨r, hr, ha⟩
    obtain ⟨e, he, hk, rfl⟩ := (map_eq_some h).mp hr
    exact ⟨e, (lookup_eq_some_iff h).mpr ⟨he, hk⟩, (alive_registration hk).symm.trans ha⟩
  · rintro ⟨e, he, ha⟩
    obtain ⟨hmem, hk⟩ := (lookup_eq_some_iff h).mp he
    exact ⟨_, (map_eq_some h).mpr ⟨e, hmem, hk, rfl⟩, (alive_registration hk).trans ha⟩

theorem refused_iff (h : Distinct Entry.key R.entries) {name : String} (hn : ¬Live alive R.map name) :
    Refused alive R.map name ↔ ∀ e ∈ R.entries, e.active = true ∧ e.isAlive alive = true := by
  have hset : {n | n ≠ name ∧ Live alive R.map n} =
    {n | ∃ e, lookup Entry.key n R.entries = some e ∧ e.isAlive alive = true} := by
    ext n
    rw [Set.mem_ofPred_eq, Set.mem_ofPred_eq, ← live_iff h, and_iff_right_iff_imp]
    rintro hl rfl
    exact hn hl
  rw [Refused, or_iff_right hn, hset, ncard_keys h, ← R.size]
  constructor
  · intro hle e he
    have := List.countP_eq_length.mp (Nat.le_antisymm List.countP_le_length hle) e he
    rw [Entry.key_isSome, Bool.and_eq_true] at this
    exact this
  · intro hall
    refine (List.countP_eq_length.mpr fun e he => ?_).ge
    rw [Entry.key_isSome, Bool.and_eq_true]
    exact hall e he

/-! ## Operation by operation -/

/-- An entry that is free or stale is taken for a name that no other entry has. -/
theorem taken_over (h : Distinct Entry.key R.entries) {pre post : List Entry} {e f : Entry} {name : String}
    (hR : R.entries = pre ++ e :: post) (he : e.active = true → e.isAlive alive = false)
    (hname : ∀ x ∈ pre ++ post, x.key ≠ some name) (hf : f.key = some name) (hR' : R'.entries = pre ++ f :: post) :
    Distinct Entry.key R'.entries ∧ R'.map name = some f.registration ∧
      Vanish alive (update R.map name (some f.registration)) R'.map := by
  have hd : Distinct Entry.key (pre ++ e :: post) := hR ▸ h
  have hd' : Distinct Entry.key (pre ++ f :: post) := hd.replace fun x hx k hk => by
    rw [hf] at hk
    cases hk
    exact hname x hx
  have hself : R'.map name = some f.registration :=
    (map_eq_some (hR' ▸ hd')).mpr ⟨f, by rw [hR']; simp, hf, rfl⟩
  refine ⟨hR' ▸ hd', hself, fun n => ?_⟩
  by_cases hn : n = name
  · subst hn
    rw [update_self]
    exact .inl hself
  · have hfn : f.key ≠ some n := by
      rw [hf]
      exact fun hc => hn (Option.some.inj hc).symm
    have hlook := lookup_replace hd hd' hfn
    unfold Live
    rw [update_of_ne hn, Registry.map, hR', hlook]
    split
    · rename_i hk
      -- the entry that is lost was stale
      refine .inr ⟨rfl, fun hlive => ?_⟩
      obtain ⟨x, hx, ha⟩ := (live_iff h).mp hlive
      rw [hR, (lookup_eq_some_iff hd).mpr ⟨by simp, hk⟩] at hx
      cases hx
      rw [he (Entry.active_of_key hk)] at ha
      cases ha
    · rw [← hR]
      exact .inl rfl

theorem step_register (h : Distinct Entry.key R.entries) {name control reply : String} {pid now : Int}
    (hv : (Op.register name control reply pid now).Valid) :
    Distinct Entry.key (R.register alive name control reply pid now).2.entries ∧
      MapStep alive R.map (.register name control reply pid now) (.bool (R.register alive name control reply pid now).1)
        (R.register alive name control reply pid now).2.map := by
  obtain ⟨hn, hfit, hpid⟩ := hv
  have hf := key_fillEntry hn hfit control reply hpid now
  have hreg : (fillEntry name control reply pid now).registration = ⟨stored control, stored reply, pid⟩ := rfl
  generalize hres : R.register alive name control reply pid now = res
  have hcase := R.register_cases alive hn control reply pid now
  rw [hres] at hcase
  cases hcase with
  | taken hR _ hk ha =>
    refine ⟨h, .refuse (.inl ((live_iff h).mpr ⟨_, (lookup_eq_some_iff h).mpr ⟨?_, hk⟩, ha⟩))⟩
    rw [hR]
    simp
  | @reuse pre post e R' hR _ hk ha hR' =>
    have hd := hR ▸ h
    have hlook : lookup Entry.key name R.entries = some e := (lookup_eq_some_iff h).mpr ⟨by rw [hR]; simp, hk⟩
    have hnot : ¬Live alive R.map name := by
      rw [live_iff h, hlook]
      rintro ⟨x, hx, hx'⟩
      cases hx
      rw [ha] at hx'
      cases hx'
    obtain ⟨hd', hself, hvan⟩ := taken_over h hR (fun _ => ha)
      (fun x hx => (distinct_middle.mp hd).2 x hx name hk) hf hR'
    refine ⟨hd', .accept (fun href => ?_) (hself.trans (congrArg some hreg)) (hreg ▸ hvan)⟩
    have := ((refused_iff h hnot).mp href e (by rw [hR]; simp)).2
    rw [ha] at this
    cases this
  | @slot pre post e R' hnone hR ha hR' =>
    have hnot : ¬Live alive R.map name := by
      rw [live_iff h, lookup_eq_none_iff.mpr hnone]
      rintro ⟨x, hx, -⟩
      cases hx
    obtain ⟨hd', hself, hvan⟩ := taken_over h hR ha
      (fun x hx => hnone x (by rw [hR]; exact mem_middle.mpr (.inr hx))) hf hR'
    refine ⟨hd', .accept (fun href => ?_) (hself.trans (congrArg some hreg)) (hreg ▸ hvan)⟩
    obtain ⟨hact, hal⟩ := (refused_iff h hnot).mp href e (by rw [hR]; simp)
    rw [ha hact] at hal
    cases hal
  | full hnone hall =>
    have hnot : ¬Live alive R.map name := by
      rw [live_iff h, lookup_eq_none_iff.mpr hnone]
      rintro ⟨x, hx, -⟩
      cases hx
    exact ⟨h, .refuse ((refused_iff h hnot).mpr hall)⟩

theorem step_unregister (h : Distinct Entry.key R.entries) (name : String) (pid : Int) :
    Distinct Entry.key (R.unregister name pid).2.entries ∧
      MapStep alive R.map (.unregister name pid) (.bool (R.unregister name pid).1) (R.unregister name pid).2.map := by
  generalize hres : R.unregister name pid = res
  have hcase := R.unregister_cases name pid
  rw [hres] at hcase
  cases hcase with
  | @removed pre post e R' hR hk hp hR' =>
    have hd : Distinct Entry.key (pre ++ e :: post) := hR ▸ h
    have hd' : Distinct Entry.key (pre ++ .zeroed :: post) := hd.replace fun x hx k hk => by cases hk
    have hmap : R'.map = update R.map name none := by
      funext n
      rw [Registry.map, hR', lookup_replace hd hd' (by simp), update_apply, hk]
      by_cases hn : n = name
      · rw [if_pos (congrArg some hn.symm), if_pos hn]
        rfl
      · rw [if_neg fun hc => hn (Option.some.inj hc).symm, if_neg hn, ← hR]
        rfl
    refine ⟨hR' ▸ hd', ?_⟩
    rw [hmap]
    exact .remove ⟨_, (map_eq_some h).mpr ⟨e, by rw [hR]; simp, hk, rfl⟩, hp⟩
  | none hall =>
    refine ⟨h, .keep fun r hr => ?_⟩
    obtain ⟨e, he, hk, rfl⟩ := (map_eq_some h).mp hr
    exact hall e he hk

theorem vanish_sweeps (h : Distinct Entry.key R.entries) (R' : Registry)
    (hs : Registry.Sweeps alive R.entries R'.entries) :
    Distinct Entry.key R'.entries ∧ Vanish alive R.map R'.map := by
  refine ⟨hs.distinct h, fun n => ?_⟩
  rcases hs.lookup h n with he | ⟨he, x, hx, hd⟩
  · exact .inl (congrArg (Option.map Entry.registration) he)
  · refine .inr ⟨congrArg (Option.map Entry.registration) he, fun hlive => ?_⟩
    obtain ⟨y, hy, ha⟩ := (live_iff h).mp hlive
    rw [hx] at hy
    cases hy
    simp [Entry.stale, ha] at hd

theorem find_live (h : Distinct Entry.key R.entries) (name : String) :
    (R.find alive name).1 = (lookup Entry.key name R.entries).filter (Entry.isAlive alive) := by
  refine (Registry.findLoop_spec name R.entries).1.trans (Option.ext fun e => ?_)
  rw [Option.filter_eq_some_iff, lookup_eq_some_iff h]
  constructor
  · intro he
    have hp := List.find?_some he
    rw [Bool.and_eq_true] at hp
    exact ⟨⟨List.mem_of_find?_eq_some he, Entry.has_iff.mp hp.1⟩, hp.2⟩
  · rintro ⟨⟨hmem, hk⟩, ha⟩
    cases hx : R.entries.find? (fun e => e.has name && e.isAlive alive) with
    | none =>
      have := List.find?_eq_none.mp hx e hmem
      simp [Entry.has_iff.mpr hk, ha] at this
    | some x =>
      have hp := List.find?_some hx
      rw [Bool.and_eq_true] at hp
      rw [h.eq (List.mem_of_find?_eq_some hx) hmem (Entry.has_iff.mp hp.1) hk]

theorem step_find (h : Distinct Entry.key R.entries) (name : String) :
    Distinct Entry.key (R.find alive name).2.entries ∧
      MapStep alive R.map (.find name) (.entry ((R.find alive name).1.map Entry.view)) (R.find alive name).2.map := by
  obtain ⟨hd, hvan⟩ := vanish_sweeps h (R.find alive name).2 (Registry.findLoop_spec name R.entries).2
  have hout : (R.find alive name).1.map Entry.view = ((R.map name).filter fun r => alive r.pid).map fun r =>
    (name, r) := by
    rw [find_live h, Registry.map]
    cases hl : lookup Entry.key name R.entries with
    | none => rfl
    | some e =>
      have hk := ((lookup_eq_some_iff h).mp hl).2
      simp only [Option.map_some, Option.filter_some, alive_registration hk]
      split
      · rw [Option.map_some, Option.map_some, Entry.view, Entry.nameStr_of_key hk]
      · rfl
  rw [hout]
  exact ⟨hd, .find hvan⟩

theorem lists_scan (h : Distinct Entry.key R.entries) (p : String → Bool) :
    Lists alive R.map p ((R.scan alive fun e => p e.nameStr).1.map Entry.view) := by
  constructor
  · rw [List.map_map, List.nodup_iff_pairwise_ne, List.pairwise_map]
    refine (h.filter _).imp_of_mem fun {x y} hx hy hxy he => ?_
    have hact : ∀ z ∈ (R.scan alive fun e => p e.nameStr).1, z.key = some z.nameStr := fun z hz => by
      simp only [Registry.scan, List.mem_filter, Bool.and_eq_true] at hz
      rw [Entry.key, if_pos hz.2.1.1]
    exact hxy _ (hact x hx) ((hact y hy).trans (congrArg some he.symm))
  · intro n r
    simp only [Registry.scan, List.mem_map, List.mem_filter, Bool.and_eq_true, map_eq_some h]
    constructor
    · rintro ⟨e, ⟨he, ⟨hact, ha⟩, hp⟩, hv⟩
      cases hv
      have hk : e.key = some e.nameStr := by rw [Entry.key, if_pos hact]
      exact ⟨⟨e, he, hk, rfl⟩, (alive_registration hk).trans ha, hp⟩
    · rintro ⟨⟨e, he, hk, rfl⟩, ha, hp⟩
      have hname := Entry.nameStr_of_key hk
      exact ⟨e, ⟨he, ⟨Entry.active_of_key hk, (alive_registration hk).symm.trans ha⟩, hname ▸ hp⟩,
        by rw [Entry.view, hname]⟩

theorem step_gc (h : Distinct Entry.key R.entries) :
    MapStep alive R.map .gc (.count (R.gc alive).1) (R.gc alive).2.map := by
  have hd : Distinct Entry.key (R.gc alive).2.entries := (Registry.sweeps_reaped R.entries).distinct h
  have hcount : (R.gc alive).1 = {n | ∃ r, R.map n = some r ∧ alive r.pid = false}.ncard := by
    have hset : {n | ∃ r, R.map n = some r ∧ alive r.pid = false} =
        {n | ∃ e, lookup Entry.key n R.entries = some e ∧ (!e.isAlive alive) = true} := by
      ext n
      simp only [Set.mem_ofPred_eq, map_eq_some h, lookup_eq_some_iff h, Bool.not_eq_true']
      constructor
      · rintro ⟨r, ⟨e, he, hk, rfl⟩, ha⟩
        exact ⟨e, ⟨he, hk⟩, (alive_registration hk).symm.trans ha⟩
      · rintro ⟨e, ⟨he, hk⟩, ha⟩
        exact ⟨_, ⟨e, he, hk, rfl⟩, (alive_registration hk).trans ha⟩
    rw [hset, ncard_keys h]
    refine List.countP_congr fun e _ => ?_
    rw [Entry.key_isSome, Entry.stale]
  have hmap : (R.gc alive).2.map = fun n => (R.map n).filter fun r => alive r.pid := by
    funext n
    refine Option.ext fun r => ?_
    rw [map_eq_some hd, Option.filter_eq_some_iff, map_eq_some h]
    constructor
    · rintro ⟨e, he, hk, rfl⟩
      obtain ⟨x, hx, rfl⟩ := List.mem_map.mp he
      unfold Registry.reap at hk ⊢
      split at hk
      · cases hk
      · rename_i hs
        rw [if_neg hs]
        have ha : x.isAlive alive = true := by simpa [Entry.stale, Entry.active_of_key hk] using hs
        exact ⟨⟨x, hx, hk, rfl⟩, (alive_registration hk).trans ha⟩
    · rintro ⟨⟨e, he, hk, rfl⟩, ha⟩
      refine ⟨e, List.mem_map.mpr ⟨e, he, ?_⟩, hk, rfl⟩
      have ha : e.isAlive alive = true := (alive_registration hk).symm.trans ha
      rw [Registry.reap, if_neg (by simp [Entry.stale, ha])]
  rw [hcount, hmap]
  exact .gc

/-- **One operation.** -/
theorem map_step (alive : Int → Bool) (h : Distinct Entry.key R.entries) {op : Op} (hv : op.Valid) :
    Distinct Entry.key (R.apply alive op).2.entries ∧
      MapStep alive R.map op (R.apply alive op).1.view (R.apply alive op).2.map := by
  have hreap := vanish_sweeps h (R.reaped alive) (Registry.sweeps_reaped R.entries)
  cases op with
  | register name control reply pid now => exact step_register h hv
  | unregister name pid => exact step_unregister h name pid
  | find name => exact step_find h name
  | findAll start => exact ⟨hreap.1, .findAll (lists_scan h fun n => (bytes start).isPrefixOf (bytes n)) hreap.2⟩
  | list => exact ⟨hreap.1, .list (lists_scan h fun _ => true) hreap.2⟩
  | gc => exact ⟨hreap.1, step_gc h⟩
  | clear =>
    have hnone : ∀ e ∈ R.clear.entries, e.key = none := fun e he => by
      obtain ⟨x, -, rfl⟩ := List.mem_map.mp he
      rfl
    have hd : Distinct Entry.key R.clear.entries := List.pairwise_of_forall_mem_list fun x hx y _ k hk => by
      rw [hnone x hx] at hk
      cases hk
    have hmap : R.clear.map = fun _ => none := funext fun n => by
      rw [Registry.map, lookup_eq_none_iff.mpr fun x hx => by rw [hnone x hx]; simp]
      rfl
    refine ⟨hd, ?_⟩
    show MapStep alive R.map .clear .unit R.clear.map
    rw [hmap]
    exact .clear

/-! ## Sequences of operations and deaths -/

/-- The registrations that were accepted and not taken back, after an operation and what it returned. -/
def Map.after (M : Map) : Op → Out (String × Registration) → Map
  | .register name control reply pid _, .bool true => update M name (some ⟨stored control, stored reply, pid⟩)
  | .unregister name _, .bool true => update M name none
  | .clear, _ => fun _ => none
  | _, _ => M

structure Sys where
  reg : Registry
  alive : Int → Bool
  latest : Map

inductive Act where
  | op (o : Op)
  | die (pid : Int)

namespace Sys

def fresh (alive : Int → Bool) : Sys := ⟨.fresh, alive, fun _ => none⟩

/-- An operation is one step, as it runs under the lock; a process that has died stays dead. -/
def step (s : Sys) : Act → Option Sys
  | .op o => some { s with
      reg := (s.reg.apply s.alive o).2
      latest := s.latest.after o (s.reg.apply s.alive o).1.view }
  | .die pid => some { s with alive := update s.alive pid false }

end Sys

def Act.Valid : Act → Prop
  | op o => o.Valid
  | die _ => True

instance : (o : Op) → Decidable o.Valid
  | .register name _ _ pid _ => inferInstanceAs (Decidable (name.isEmpty = false ∧ fits name ∧ 0 < pid))
  | .unregister _ _ => inferInstanceAs (Decidable True)
  | .find _ => inferInstanceAs (Decidable True)
  | .findAll _ => inferInstanceAs (Decidable True)
  | .list => inferInstanceAs (Decidable True)
  | .gc => inferInstanceAs (Decidable True)
  | .clear => inferInstanceAs (Decidable True)

instance : (a : Act) → Decidable a.Valid
  | .op o => inferInstanceAs (Decidable o.Valid)
  | .die _ => inferInstanceAs (Decidable True)

namespace MapStep

variable {M M' L : Map} {op : Op} {out : Out (String × Registration)} {n : String} {r : Registration}

/-- A live registration stays, unless its own process takes it back or the registry is cleared. -/
theorem kept (h : MapStep alive M op out M') (hr : M n = some r) (ha : alive r.pid = true) (hc : op ≠ .clear)
    (hu : op ≠ .unregister n r.pid) : M' n = some r := by
  have hvan {N N' : Map} (hv : Vanish alive N N') (hN : N n = some r) : N' n = some r := by
    rcases hv n with he | ⟨-, hdead⟩
    · exact he.trans hN
    · exact absurd ⟨r, hN, ha⟩ hdead
  cases h with
  | refuse _ => exact hr
  | @accept name _ _ _ _ _ hnot hself hv =>
    refine hvan hv ?_
    rw [update_of_ne, hr]
    rintro rfl
    exact hnot (.inl ⟨r, hr, ha⟩)
  | @remove name pid hrem =>
    rw [update_of_ne, hr]
    rintro rfl
    obtain ⟨r', hr', rfl⟩ := hrem
    rw [hr] at hr'
    cases hr'
    exact hu rfl
  | keep _ => exact hr
  | find hv => exact hvan hv hr
  | findAll _ hv => exact hvan hv hr
  | list _ hv => exact hvan hv hr
  | gc => exact Option.filter_eq_some_iff.mpr ⟨hr, ha⟩
  | clear => exact absurd rfl hc

/-- Nothing comes to be registered but by an operation that is accepted. -/
theorem after_eq (h : MapStep alive M op out M') (hL : ∀ n r, alive r.pid = true → (M n = some r ↔ L n = some r))
    (ha : alive r.pid = true) : M' n = some r ↔ L.after op out n = some r := by
  have hvan {N N' : Map} (hv : Vanish alive N N') : N' n = some r ↔ N n = some r := by
    rcases hv n with he | ⟨hnone, hdead⟩
    · rw [he]
    · rw [hnone]
      exact ⟨fun h => (by cases h), fun h => absurd ⟨r, h, ha⟩ hdead⟩
  cases h with
  | refuse _ => exact hL n r ha
  | accept _ _ hv =>
    rw [hvan hv, Map.after, update_apply, update_apply]
    split
    · rfl
    · exact hL n r ha
  | remove _ =>
    rw [Map.after, update_apply, update_apply]
    split
    · rfl
    · exact hL n r ha
  | keep _ => exact hL n r ha
  | find hv => exact (hvan hv).trans (hL n r ha)
  | findAll _ hv => exact (hvan hv).trans (hL n r ha)
  | list _ hv => exact (hvan hv).trans (hL n r ha)
  | gc =>
    rw [Option.filter_eq_some_iff, and_iff_left ha]
    exact hL n r ha
  | clear => rfl

theorem register_iff {name control reply : String} {pid now : Int} {b : Bool}
    (h : MapStep alive M (.register name control reply pid now) (.bool b) M') : b = false ↔ Refused alive M name := by
  cases h with
  | refuse href => exact ⟨fun _ => href, fun _ => rfl⟩
  | accept hnot _ _ => exact ⟨fun hb => (by cases hb), fun href => absurd href hnot⟩

end MapStep

/-- The registry is a map of at most 32 names. -/
structure RefinesMap (s : Sys) : Prop where
  /-- at most one active entry has a given name -/
  unique : s.reg.entries.Pairwise fun e e' => e.active = true → e'.active = true → e.nameStr ≠ e'.nameStr
  small : ∃ ns : List String, ns.length ≤ maxServices ∧ ∀ n, s.reg.map n ≠ none → n ∈ ns
  /-- every operation is one of the map -/
  step : ∀ o : Op, o.Valid →
    MapStep s.alive s.reg.map o (s.reg.apply s.alive o).1.view (s.reg.apply s.alive o).2.map
  /-- `find` returns the latest accepted registration, if its process is alive -/
  found : ∀ n, (s.reg.find s.alive n).1.map Entry.registration = (s.latest n).filter fun r => s.alive r.pid
  /-- a live registration is removed only by its own process or by `clear` -/
  kept : ∀ (o : Op) n r, o.Valid → s.reg.map n = some r → s.alive r.pid = true → o ≠ .clear → o ≠ .unregister n r.pid →
    (s.reg.apply s.alive o).2.map n = some r
  refused : ∀ name control reply pid now, (Op.register name control reply pid now).Valid →
    ((s.reg.register s.alive name control reply pid now).1 = false ↔ Refused s.alive s.reg.map name)

/-- Distinct names, and `latest` is right about live processes. -/
structure Inv (s : Sys) : Prop where
  distinct : Distinct Entry.key s.reg.entries
  latest : ∀ n r, s.alive r.pid = true → (s.reg.map n = some r ↔ s.latest n = some r)

theorem inv_fresh (alive : Int → Bool) : Inv (.fresh alive) := by
  have hnone : ∀ e ∈ Registry.fresh.entries, e.key = none := fun e he => by
    rw [List.eq_of_mem_replicate he]
    rfl
  constructor
  · exact List.pairwise_of_forall_mem_list fun x hx y _ k hk => by
      rw [hnone x hx] at hk
      cases hk
  · intro n r _
    show (lookup Entry.key n Registry.fresh.entries).map _ = _ ↔ _
    rw [lookup_eq_none_iff.mpr fun x hx => by rw [hnone x hx]; simp]
    rfl

theorem Inv.step {s t : Sys} (h : Inv s) {a : Act} (hv : a.Valid) (hs : s.step a = some t) : Inv t := by
  cases a with
  | op o =>
    cases hs
    obtain ⟨hd, hm⟩ := map_step s.alive h.distinct hv
    exact ⟨hd, fun n r ha => hm.after_eq h.latest ha⟩
  | die pid =>
    cases hs
    refine ⟨h.distinct, fun n r ha => h.latest n r ?_⟩
    simp only [update_apply] at ha
    split at ha
    · cases ha
    · exact ha

theorem Inv.found {s : Sys} (h : Inv s) (n : String) :
    (s.reg.find s.alive n).1.map Entry.registration = (s.latest n).filter fun r => s.alive r.pid := by
  refine Option.ext fun r => ?_
  rw [find_live h.distinct, Option.filter_eq_some_iff]
  constructor
  · intro hr
    obtain ⟨e, he, rfl⟩ := Option.map_eq_some_iff.mp hr
    obtain ⟨he, ha⟩ := Option.filter_eq_some_iff.mp he
    have hk := ((lookup_eq_some_iff h.distinct).mp he).2
    have ha := (alive_registration hk).trans ha
    exact ⟨(h.latest n _ ha).mp (congrArg (Option.map Entry.registration) he), ha⟩
  · rintro ⟨hr, ha⟩
    obtain ⟨e, he, rfl⟩ := Option.map_eq_some_iff.mp ((h.latest n r ha).mpr hr)
    have hk := ((lookup_eq_some_iff h.distinct).mp he).2
    rw [he, Option.filter_some, if_pos ((alive_registration hk).symm.trans ha)]
    rfl

end ThothIpc.ServiceRegistry
