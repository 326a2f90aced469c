import ThothIpc.Codecvt.RoundTrip

/-!
# The two passes of a conversion

`cvt_sstr` converts a string twice, first without a buffer to learn the length, then into a buffer of that length.

* `loop_length` : the reported length does not depend on the buffer;
* `put_perm`, `loop_perm` : a pass into a buffer of the reported length stores every unit once;
* `passes_agree`, `refused_stored` : so it does for each conversion, unless a refused string is put in UTF-8.
-/

namespace ThothIpc.Codecvt

theorem loop_length (signed : Bool) (f g : Ufmt) (des : Bool) (fuel : Nat) (src : List (BitVec f.bits))
    (dlen off num : Nat) :
    (loop signed f g des fuel src dlen off num).1 = (loop signed f g false fuel src 0 0 num).1 := by
  induction fuel generalizing des src dlen off num with
  | zero => rfl
  | succ fuel ih =>
    simp only [loop]
    split
    · rfl
    · cases get signed f src with
      | none => rfl
      | some r =>
        obtain ⟨len, c⟩ := r
        simp only [put_length g c des dlen]
        split
        · rfl
        · exact (ih des _ _ _ _).trans (ih false _ _ _ _).symm

theorem le_loop {signed : Bool} {f g : Ufmt} {fuel : Nat} {src : List (BitVec f.bits)} {num : Nat}
    (h : (loop signed f g false fuel src 0 0 num).1 ≠ 0) : num ≤ (loop signed f g false fuel src 0 0 num).1 := by
  induction fuel generalizing src num with
  | zero => exact le_rfl
  | succ fuel ih =>
    simp only [loop] at h ⊢
    split
    · exact le_rfl
    · rename_i hsrc
      rw [if_neg hsrc] at h
      cases hget : get signed f src with
      | none => simp only [hget] at h; exact absurd rfl h
      | some r =>
        obtain ⟨len, c⟩ := r
        simp only [hget] at h ⊢
        split
        · rename_i hput
          rw [if_pos hput] at h
          exact absurd rfl h
        · rename_i hput
          rw [if_neg hput] at h
          dsimp only at h ⊢
          rw [loop_length] at h ⊢
          exact (Nat.le_add_right _ _).trans (ih h)

theorem trail_perm (i src : Nat) : ((trail i src).1.map Prod.fst ++ [0]).Perm (List.range (i + 1)) := by
  induction i generalizing src with
  | zero => exact .refl _
  | succ i ih =>
    rw [List.range_succ]
    exact ((ih (src >>> 6)).cons (i + 1)).trans (List.perm_append_singleton _ _).symm

theorem put_perm {g : Ufmt} {c : Int} {n : Nat} (h : (put g c false 0).1 ≤ n) :
    ((put g c true n).2.map Prod.fst).Perm (List.range (put g c false 0).1) := by
  cases g with
  | utf8 =>
    simp only [put, put8] at h ⊢
    split
    · exact .refl _
    · rename_i hc
      rw [if_neg hc] at h
      rw [if_pos (show _ < n from h), if_pos trivial, List.map_append]
      exact trail_perm _ _
  | utf16 =>
    simp only [put, put16, true_and] at h ⊢
    split_ifs at h ⊢ <;> first | exact .refl _ | (dsimp only at h; omega)
  | utf32 =>
    simp only [put, put32] at h ⊢
    rw [if_pos ⟨trivial, h⟩]
    exact .refl _

/-- The units stored by a loop that has room for exactly what it reports. -/
theorem loop_perm {signed : Bool} {f g : Ufmt} {fuel : Nat} {src : List (BitVec f.bits)} (off num n : Nat)
    (hn : (loop signed f g false fuel src 0 0 num).1 = num + n) (h0 : num + n ≠ 0) :
    ((loop signed f g true fuel src n off num).2.map Prod.fst).Perm (List.range' off n) := by
  induction fuel generalizing src off num n with
  | zero =>
    obtain rfl : n = 0 := by simpa [loop] using hn
    exact .refl _
  | succ fuel ih =>
    simp only [loop] at hn ⊢
    split
    · rename_i hsrc
      rw [if_pos hsrc] at hn
      obtain rfl : n = 0 := by simpa using hn
      exact .refl _
    · rename_i hsrc
      rw [if_neg hsrc] at hn
      cases hget : get signed f src with
      | none =>
        simp only [hget] at hn
        exact absurd hn.symm h0
      | some r =>
        obtain ⟨len, c⟩ := r
        simp only [hget, put_length g c true n] at hn ⊢
        split
        · rename_i hput
          rw [if_pos hput] at hn
          exact absurd hn.symm h0
        · rename_i hput
          rw [if_neg hput] at hn
          dsimp only at hn ⊢
          rw [loop_length] at hn
          have hle : (put g c false 0).1 ≤ n := by
            have := le_loop (hn.trans_ne h0)
            omega
          have hrest := ih (off + (put g c false 0).1) _ (n - (put g c false 0).1) (hn.trans (by omega)) (by omega)
          have hfirst := (put_perm (c := c) hle).map (off + ·)
          rw [List.map_map, ← List.range'_eq_map_range] at hfirst
          rw [List.map_append, List.map_map]
          have happend := hfirst.append hrest
          rw [List.range'_append_1, Nat.add_sub_of_le hle] at happend
          exact happend

theorem stored_congr {g : Ufmt} (m m' : Nat → BitVec g.bits) (off : Nat) {ws : Stores g} {i : Nat}
    (h : m (off + i) = m' (off + i) ∨ i ∈ ws.map Prod.fst) :
    stored m off ws (off + i) = stored m' off ws (off + i) := by
  induction ws generalizing m m' with
  | nil => exact h.resolve_right List.not_mem_nil
  | cons x ws ih =>
    refine ih (Function.update m (off + x.1) x.2) (Function.update m' (off + x.1) x.2) ?_
    by_cases hx : i = x.1
    · exact Or.inl (by rw [hx, Function.update_self, Function.update_self])
    · rw [Function.update_of_ne (by omega), Function.update_of_ne (by omega)]
      exact h.imp_right fun hm => (List.mem_cons.mp hm).resolve_left hx

theorem copy_pass {w : Nat} (src : List (BitVec w)) : (copy src true src.length).1 = src.length ∧
    ((copy src true src.length).2.map Prod.fst).Perm (List.range src.length) := by
  unfold copy
  split
  · rename_i h
    rw [h.resolve_left (by simp)]
    exact ⟨rfl, .refl _⟩
  · rw [Nat.min_self, List.map_map]
    exact ⟨rfl, .of_eq (List.map_id _)⟩

theorem cvtCstr_pass (signed : Bool) (f g : Ufmt) (src : List (BitVec f.bits)) {n : Nat}
    (hn : (cvtCstr signed f g src false 0).1 = n) : (cvtCstr signed f g src true n).1 = n ∧
      (n ≠ 0 → ((cvtCstr signed f g src true n).2.map Prod.fst).Perm (List.range n)) := by
  have hloop : (loop signed f g false src.length src 0 0 0).1 = n → (loop signed f g true src.length src n 0 0).1 = n ∧
      (n ≠ 0 → ((loop signed f g true src.length src n 0 0).2.map Prod.fst).Perm (List.range n)) := by
    intro hn
    refine ⟨(loop_length ..).trans hn, fun h0 => ?_⟩
    rw [List.range_eq_range']
    exact loop_perm 0 0 n (by rw [hn, Nat.zero_add]) (by rwa [Nat.zero_add])
  cases f <;> cases g
  case utf8.utf8 | utf16.utf16 | utf32.utf32 =>
    subst hn
    exact ⟨(copy_pass src).1, fun _ => (copy_pass src).2⟩
  all_goals exact hloop hn

/-- **The two passes agree.** A buffer of the reported length gets the same length; every unit of it is stored once
exactly if no character of a refused string is put in UTF-8. -/
theorem passes_agree (signed : Bool) (f g : Ufmt) (src : List (BitVec f.bits)) :
    let dlen := (cvtCstr signed f g src false 0).1
    (cvtCstr signed f g src true dlen).1 = dlen ∧
    (((cvtCstr signed f g src true dlen).2.map Prod.fst).Perm (List.range dlen) ↔
      (dlen = 0 → f ≠ g → g = .utf8 → starts signed f g src.length src 0 = [])) ∧
    ∀ m, (List.range dlen).map (stored m 0 (cvtCstr signed f g src true dlen).2) = cvtSstr signed f g src := by
  intro dlen
  obtain ⟨hlen, hperm⟩ := cvtCstr_pass signed f g src (n := dlen) rfl
  refine ⟨hlen, ?_, fun m => List.map_congr_left fun i hi => ?_⟩
  · by_cases h0 : dlen = 0
    · have hinside := inside_iff signed f g src true dlen
      rw [h0] at hinside ⊢
      have hnil : (cvtCstr signed f g src true 0).2 = [] ↔ ∀ x ∈ (cvtCstr signed f g src true 0).2, x.1 < 0 :=
        List.eq_nil_iff_forall_not_mem.trans (forall_congr' fun x => by simp)
      rw [List.range_zero, List.perm_nil, List.map_eq_nil_iff, hnil, hinside]
      simp [List.eq_nil_iff_forall_not_mem]
    · exact ⟨fun _ hd => absurd hd h0, fun _ => hperm h0⟩
  · have hpos : dlen ≠ 0 := (Nat.zero_lt_of_lt (List.mem_range.mp hi)).ne'
    have hcongr := stored_congr m (fun _ => 0) 0 (Or.inr ((hperm hpos).mem_iff.mpr hi))
    rwa [Nat.zero_add] at hcongr

/-- **A store into an empty buffer**: the second of two characters is refused, and the first one is stored. -/
theorem refused_stored : (cvtCstr false .utf32 .utf8 [0x41, 0x80000000] false 0).1 = 0 ∧
    (cvtCstr false .utf32 .utf8 [0x41, 0x80000000] true 0).2 = [(0, 0x41)] := by decide

end ThothIpc.Codecvt
