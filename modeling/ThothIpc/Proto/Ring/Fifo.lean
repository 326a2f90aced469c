import ThothIpc.Proto.Ring.Reads

/-!
# The ring as a queue

A producer that only calls `write` leaves the read index to the consumer.

* `Plain` : what such a run keeps besides the invariant of the ring, the consumer's index is current and no position is
  skipped; `Plain.apart` : the two sides stay apart by themselves;
* `lossless_fifo` : a lossless queue of `2 ^ k` items, while the write index has not wrapped round below the read index;
* `read_wrapped` : where it has, `read` fails with an item unread.
-/

namespace ThothIpc.ShmRing
open Steps

variable {m : Nat} {β : Type} {k : Nat} {s s' : State m β}

/-- Anything but a call of `write_overwrite`. -/
def Act.plain : Act m β → Prop
  | overwrite _ => False
  | _ => True

instance : (a : Act m β) → Decidable a.plain
  | .overwrite _ => inferInstanceAs (Decidable False)
  | .write _ => inferInstanceAs (Decidable True)
  | .producer => inferInstanceAs (Decidable True)
  | .fill _ => inferInstanceAs (Decidable True)
  | .read _ => inferInstanceAs (Decidable True)
  | .consumer => inferInstanceAs (Decidable True)
  | .drain _ => inferInstanceAs (Decidable True)

/-- The call under way is not a `write_overwrite`. -/
def Producer.plain : Producer m β → Prop
  | loadW _ ov => ov = false
  | loadR _ ov _ => ov = false
  | drop _ _ _ => False
  | _ => True

/-- The read index is the consumer's own, and every position was read once. -/
structure Plain (s : State m β) : Prop where
  prod : s.prod.plain
  next : s.cons.next s.readIdx = s.readIdx
  got : s.got.map Prod.fst = List.range s.readIdx

theorem plain_fresh (slots : Nat → Item m β) : Plain (State.fresh slots) := ⟨trivial, rfl, rfl⟩

namespace Plain

theorem pending (h : Plain s) {c : Fin m} {r : Nat} (hr : r ∈ s.cons.pending c) : r = s.readIdx := by
  have hn := h.next
  revert hr hn
  cases s.cons with
  | loadW out q =>
    intro hr hn
    obtain rfl : q = r := by simpa [Consumer.pending] using hr
    exact hn
  | copy out q done =>
    intro hr hn
    obtain rfl : q = r := by
      simp only [Consumer.pending, Option.mem_def] at hr
      split at hr
      · cases hr
      · exact Option.some.inj hr
    exact hn
  | _ => exact fun hr => by cases hr

theorem apart (hk : k < 64) (hi : Inv k s) (h : Plain s) (a : Act m β) : ShmRing.apart k s a := by
  cases a with
  | producer =>
    intro r hr
    have hp := h.prod
    revert hp hr
    cases s.prod with
    | drop x w q => exact fun _ hp => hp.elim
    | _ => exact fun hr => by cases hr
  | fill c =>
    intro w hw r hr hlt
    obtain rfl := h.pending hr
    have hp := hi.prod
    revert hp hw
    cases s.prod with
    | copy x v done =>
      intro hw hp
      obtain rfl : v = w := by simpa [Producer.fills] using hw
      obtain ⟨rfl, hroom, -⟩ := hp
      exact slot_ne hk hlt hroom
    | _ => exact fun hw => by cases hw
  | consumer =>
    intro hc
    have hok := hi.cons
    have hn := h.next
    revert hc hok hn
    cases s.cons with
    | copy out r done =>
      rintro - ⟨-, -, x, hx, -⟩ hn
      obtain rfl : r = s.readIdx := hn
      refine .inr ?_
      rw [← hi.length]
      exact (List.getElem?_eq_some_iff.mp hx).1
    | _ => exact fun hc => by cases hc
  | _ => trivial

theorem step (h : Plain s) {a : Act m β} (ha : a.plain) (hs : s.step k a = some s') : Plain s' := by
  have hp := h.prod
  have hn := h.next
  cases State.does_step hs with
  | write x _ => exact ⟨rfl, h.next, h.got⟩
  | overwrite x _ => exact ha.elim
  | loadW hpc =>
    rw [hpc] at hp
    exact ⟨hp, h.next, h.got⟩
  | full _ _ => exact ⟨trivial, h.next, h.got⟩
  | oldest hpc _ =>
    rw [hpc] at hp
    cases hp
  | room _ _ => exact ⟨trivial, h.next, h.got⟩
  | drop hpc =>
    rw [hpc] at hp
    exact hp.elim
  | fill _ _ => exact ⟨trivial, h.next, h.got⟩
  | publish _ _ => exact ⟨trivial, h.next, h.got⟩
  | read out _ => exact ⟨h.prod, rfl, h.got⟩
  | loadR _ => exact ⟨h.prod, rfl, h.got⟩
  | empty _ _ => exact ⟨h.prod, rfl, h.got⟩
  | item hpc _ =>
    rw [hpc] at hn
    exact ⟨h.prod, hn, h.got⟩
  | drain hpc _ =>
    rw [hpc] at hn
    exact ⟨h.prod, hn, h.got⟩
  | consume hpc _ =>
    rw [hpc] at hn
    obtain rfl := hn
    refine ⟨h.prod, rfl, ?_⟩
    rw [List.map_append, h.got, List.range_succ]
    rfl

theorem length (h : Plain s) : s.got.length = s.readIdx := by
  rw [← List.length_map (f := Prod.fst), h.got, List.length_range]

theorem items (hi : Inv k s) (h : Plain s) : s.got.map Prod.snd <+: s.wrote := by
  rw [List.prefix_iff_eq_take]
  refine List.ext_getElem? fun p => ?_
  rw [List.length_map, List.getElem?_take]
  split
  · rename_i hp
    have hfst : s.got[p].1 = p := by
      have : (s.got.map Prod.fst)[p]? = some p := by
        rw [h.got, List.getElem?_range (h.length ▸ hp)]
      rw [List.getElem?_map, List.getElem?_eq_getElem hp] at this
      exact Option.some.inj this
    have hitem := hi.item _ (List.getElem_mem hp)
    rw [hfst] at hitem
    rw [hitem, List.getElem?_map, List.getElem?_eq_getElem hp]
    rfl
  · rename_i hp
    rw [List.getElem?_eq_none]
    rw [List.length_map]
    omega

end Plain

theorem plain_run (hk : k < 64) {slots : Nat → Item m β} {acts : List (Act m β)}
    (hrun : Run (State.step k) (fun _ a => a.plain) (State.fresh slots) acts s) : Inv k s ∧ Plain s :=
  hrun.inv (fun s => Inv k s ∧ Plain s) ⟨inv_fresh slots, plain_fresh slots⟩
    fun _ a _ h ha hs => ⟨h.1.step hk (h.2.apart hk h.1 a) hs, h.2.step ha hs⟩

/-- **A lossless queue.** The items read are a prefix of those written, at most `2 ^ k` are unread; a `write` fails only
if `2 ^ k` are, a `read` only if none is, while the write index has not wrapped round below the read index. -/
theorem lossless_fifo (hk : k < 64) {slots : Nat → Item m β} {acts : List (Act m β)}
    (hrun : Run (State.step k) (fun _ a => a.plain) (State.fresh slots) acts s) :
    s.got.map Prod.snd <+: s.wrote ∧ s.wrote.length ≤ s.got.length + 2 ^ k ∧
      (∀ s', s.step k .producer = some s' → s'.prod = .ret false → s.wrote.length = s.got.length + 2 ^ k) ∧
      ∀ s', word s.readIdx ≤ word s.writeIdx → s.step k .consumer = some s' → s'.cons = .ret false →
        s.wrote.length = s.got.length := by
  obtain ⟨hi, hp⟩ := plain_run hk hrun
  have hle := hi.le
  have hfit := hi.fit
  rw [hp.length, hi.length]
  refine ⟨hp.items hi, hfit, fun s' hs hret => ?_, fun s' hword hs hret => ?_⟩
  · cases State.does_step hs with
    | full hpc hfull =>
      rw [(hi.compare hk hpc).2] at hfull
      omega
    | _ => cases hret
  · cases State.does_step hs with
    | @empty out r hpc hw =>
      obtain rfl : r = s.readIdx := by
        have := hp.next
        rwa [hpc] at this
      have hpow : 2 ^ k < 2 ^ 64 := Nat.pow_lt_pow_right (by norm_num) hk
      simp only [word, BitVec.le_def, BitVec.toNat_ofNat] at hword hw
      omega
    | _ => cases hret

theorem lossless_fifo_two : ∃ acts, ∃ s : State 1 Nat,
    Run (State.step 1) (fun _ a => a.plain) (State.fresh fun _ _ => 0) acts s ∧ (s.wrote.length, s.got.length) = (2, 1) ∧
      s.got.map Prod.snd <+: s.wrote := by
  refine ⟨List.flatten [writeAll 1, writeAll 2, readAll], ?_⟩
  exact exists_run_imp (fun s => (s.wrote.length, s.got.length) = (2, 1)) (by decide +kernel)
    fun s hrun hx => ⟨hx, (lossless_fifo (by norm_num) hrun).1⟩

/-! ## After `2 ^ 64` items -/

/-- Everything written was read, and no call is under way. -/
structure Idle (n : Nat) (s : State 1 Nat) : Prop where
  writeIdx : s.writeIdx = n
  readIdx : s.readIdx = n
  prod : s.prod.free = true
  cons : s.cons.free = true

theorem all_update (done : Fin 1 → Bool) (c : Fin 1) : Function.update done 0 true c = true := by
  rw [Subsingleton.elim c 0, Function.update_self]

theorem plain_snoc {s t u : State 1 Nat} {acts : List (Act 1 Nat)} {a : Act 1 Nat}
    (hrun : Run (State.step 1) (fun _ a => a.plain) s acts t) (hd : Does 1 t a u) (ha : a.plain) :
    Run (State.step 1) (fun _ a => a.plain) s (acts ++ [a]) u :=
  hrun.snoc ha hd.step

theorem Idle.write {n : Nat} {s : State 1 Nat} (h : Idle n s) :
    ∃ acts s', Run (State.step 1) (fun _ a => a.plain) s acts s' ∧ s'.writeIdx = n + 1 ∧ s'.readIdx = n ∧
      s'.prod = .ret true ∧ s'.cons = s.cons := by
  have hroom : (word s.writeIdx - word s.readIdx).toNat < 2 ^ 1 := by
    rw [h.writeIdx, h.readIdx, BitVec.sub_self]
    decide
  have h1 := plain_snoc .nil (.write (fun _ => 0) h.prod) trivial
  have h2 := plain_snoc h1 (.loadW rfl) trivial
  have h3 := plain_snoc h2 (.room rfl hroom) trivial
  have h4 := plain_snoc h3 (.fill (c := 0) rfl rfl) trivial
  have h5 := plain_snoc h4 (.publish rfl (all_update _)) trivial
  exact ⟨_, _, h5, congrArg (· + 1) h.writeIdx, h.readIdx, rfl, rfl⟩

theorem Idle.read {n : Nat} {s : State 1 Nat} (hn : n + 1 < 2 ^ 64) (hw : s.writeIdx = n + 1) (hr : s.readIdx = n)
    (hp : s.prod.free = true) (hc : s.cons.free = true) :
    ∃ acts s', Run (State.step 1) (fun _ a => a.plain) s acts s' ∧ Idle (n + 1) s' := by
  have hitem : ¬word s.writeIdx ≤ word s.readIdx := by
    rw [hw, hr, word, word, BitVec.le_def, BitVec.toNat_ofNat, BitVec.toNat_ofNat, Nat.mod_eq_of_lt hn,
      Nat.mod_eq_of_lt (by omega)]
    omega
  have h1 := plain_snoc .nil (.read (fun _ => 0) hc) trivial
  have h2 := plain_snoc h1 (.loadR rfl) trivial
  have h3 := plain_snoc h2 (.item rfl hitem) trivial
  have h4 := plain_snoc h3 (.drain (c := 0) rfl rfl) trivial
  have h5 := plain_snoc h4 (.consume rfl (all_update _)) trivial
  exact ⟨_, _, h5, hw, congrArg (· + 1) hr, hp, rfl⟩

theorem run_idle : ∀ n < 2 ^ 64, ∃ acts s, Run (State.step 1) (fun _ a => a.plain) (State.fresh fun _ _ => 0) acts s ∧
    Idle n s := by
  intro n
  induction n with
  | zero => exact fun _ => ⟨[], _, .nil, rfl, rfl, rfl, rfl⟩
  | succ n ih =>
    intro hn
    obtain ⟨acts, s, hrun, h⟩ := ih (by omega)
    obtain ⟨_, t, hwrite, hw, hr, hp, hc⟩ := h.write
    obtain ⟨_, u, hread, hu⟩ := Idle.read hn hw hr (by rw [hp]; rfl) (by rw [hc]; exact h.cons)
    exact ⟨_, u, (hrun.trans hwrite).trans hread, hu⟩

/-- **The index wraps.** After `2 ^ 64 - 1` items have been written and read, one more is written: the word of the write
index is 0, and `read` takes the ring for empty. -/
theorem read_wrapped : ∃ acts, ∃ s s' : State 1 Nat,
    Run (State.step 1) (fun _ a => a.plain) (State.fresh fun _ _ => 0) acts s ∧ s.step 1 .consumer = some s' ∧
      s'.cons = .ret false ∧ s.wrote.length = s.got.length + 1 := by
  obtain ⟨acts, s, hrun, h⟩ := run_idle (2 ^ 64 - 1) (by norm_num)
  obtain ⟨_, t, hwrite, hw, hr, -, hc⟩ := h.write
  have hfree : t.cons.free = true := by
    rw [hc]
    exact h.cons
  have h1 := plain_snoc (hrun.trans hwrite) (.read (fun _ => 0) hfree) trivial
  have h2 := plain_snoc h1 (.loadR rfl) trivial
  have hempty : word t.writeIdx ≤ word t.readIdx := by
    rw [hw, hr]
    decide
  obtain ⟨hi, hp⟩ := plain_run (by norm_num) h2
  refine ⟨_, _, _, h2, Does.step (.empty rfl hempty), rfl, ?_⟩
  rw [hp.length, hi.length]
  show t.writeIdx = t.readIdx + 1
  rw [hw, hr]

end ThothIpc.ShmRing
