import ThothIpc.Message.Fragment

/-!
# A route's history of senders

A sender numbers its messages from zero (`send_seq`), and a send may stop after any fragment, when `push_fragment`
returns false. The receiver's cache then keeps what has come of the message, under its id.

* `Event`, `sends`: the sender is replaced, or a message is sent up to some fragment;
* `feed_take`: the first fragments of a message whose id the cache does not have;
* `feed_sends`, `no_splice`: otherwise everything the receiver returns is one message that was sent.
-/

namespace ThothIpc.Message
open Function

/-- What happens on the route, as its receiver sees it. -/
inductive Event where
  /-- The sender is dropped, and a new one with this endpoint id is opened. -/
  | reopen (ccId : BitVec 32)
  /-- `send(data)`, of which `pushed` fragments are pushed before a push returns false. -/
  | send (data : List UInt8) (pushed : Nat)

structure Sender where
  ccId : BitVec 32
  sendSeq : BitVec 32

/-- The messages sent, each with the number of its fragments that were pushed. -/
def Sender.sends : Sender → List Event → List (Sent × Nat)
  | _, [] => []
  | _, .reopen ccId :: h => sends ⟨ccId, 0⟩ h
  | s, .send data pushed :: h =>
    -- an empty message is refused before it gets an id
    if data = [] then s.sends h else (⟨s.ccId, s.sendSeq, data⟩, pushed) :: sends ⟨s.ccId, s.sendSeq + 1⟩ h

def pushed (L : List (Sent × Nat)) : List MsgT := L.flatMap fun p => p.1.fragments.take p.2

/-- Some fragments were pushed, and not the last one. -/
def aborted (p : Sent × Nat) : Prop := 0 < p.2 ∧ p.2 < p.1.count

/-! ## One send -/

theorem feed_append {e e' : Inner} {l l' : List Arrival} {outs : List (List UInt8)} (h : feed e l = .ok (e', outs)) :
    feed e (l ++ l') = (feed e' l').map fun r => (r.1, outs ++ r.2) := by
  induction l generalizing e outs with
  | nil =>
    simp only [feed, Except.ok.injEq, Prod.mk.injEq] at h
    obtain ⟨rfl, rfl⟩ := h
    rw [List.nil_append]
    cases feed e l' <;> rfl
  | cons a l ih =>
    rcases ho : receive e a with _ | o
    · simp [feed, ho, bind, Except.bind] at h
    · rcases hr : feed o.inner l with _ | r
      · simp [feed, ho, hr, bind, Except.bind] at h
      · simp only [feed, ho, hr, bind, Except.bind, pure, Except.pure, Except.ok.injEq, Prod.mk.injEq] at h
        obtain ⟨rfl, rfl⟩ := h
        simp only [List.cons_append, feed, ho, ih hr, bind, Except.bind, pure, Except.pure]
        cases feed r.1 l' <;> simp [Except.map]

theorem carries_append {l : List Arrival} {F F' : List MsgT} (h : List.Forall₂ Carries l (F ++ F')) :
    ∃ l₁ l₂, l = l₁ ++ l₂ ∧ List.Forall₂ Carries l₁ F ∧ List.Forall₂ Carries l₂ F' :=
  ⟨_, _, (List.take_append_drop _ _).symm, List.forall₂_take_append _ _ _ h, List.forall₂_drop_append _ _ _ h⟩

theorem take_fragments_succ {m : Sent} {k : Nat} (hlen : m.data.length < 2 ^ 31) (hk : k < m.count) :
    m.fragments.take (k + 1) = m.fragments.take k ++ [m.frag k] := by
  have hl := Sent.length_fragments hlen
  rw [List.take_succ_eq_append_getElem (by omega)]
  congr 2
  simp [Sent.fragments_eq hlen]

def returned (ccId : BitVec 32) (p : Sent × Nat) : List (List UInt8) :=
  if p.1.ccId ≠ ccId ∧ 0 < p.1.count ∧ p.1.count ≤ p.2 then [p.1.data] else []

/-- What the receiver's cache holds after a send. -/
def cached (ccId : BitVec 32) (cache : Cache) (p : Sent × Nat) : Cache :=
  if p.1.ccId = ccId then cache else update cache p.1.id (p.1.entry p.2)

/-- The first fragments of a message whose id the cache does not have. -/
theorem feed_take {m : Sent} (hlen : m.data.length < 2 ^ 31) {e : Inner} (hc : e.recvCache m.id = none) :
    ∀ {k : Nat} {l : List Arrival}, List.Forall₂ Carries l (m.fragments.take k) →
      feed e l = .ok ({ e with recvCache := cached e.ccId e.recvCache (m, k) }, returned e.ccId (m, k)) := by
  intro k
  induction k with
  | zero =>
    intro l hl
    rw [List.take_zero, List.forall₂_nil_right_iff] at hl
    subst hl
    have hup : update e.recvCache m.id none = e.recvCache := update_eq_self_iff.2 hc.symm
    simp only [feed, cached, returned, Sent.entry_zero, hup, ite_self]
    rw [if_neg (by rintro ⟨-, h1, h2⟩; omega)]
  | succ k ih =>
    intro l hl
    by_cases hk : k < m.count
    · -- the fragments before are as in the induction; then comes the next one
      rw [take_fragments_succ hlen hk] at hl
      obtain ⟨l, b, rfl, hl', hb⟩ := carries_append hl
      obtain ⟨a, l', ha, hnil, rfl⟩ := List.forall₂_cons_right_iff.1 hb
      rw [List.forall₂_nil_right_iff] at hnil
      subst hnil
      rw [feed_append (ih hl')]
      by_cases hcc : m.ccId = e.ccId
      · simp [feed, cached, returned, hcc, receive_own ha hlen hk, bind, Except.bind, pure, Except.pure, Except.map]
      · have hne : ¬m.count ≤ k := by omega
        have hnext := receive_frag (e := { e with recvCache := update e.recvCache m.id (m.entry k) }) ha hlen hk
          hcc (update_self ..)
        simp only [feed, cached, returned, if_neg hcc, hnext, update_idem]
        by_cases hlast : k + 1 = m.count
        · have hpos : 0 < m.count := by omega
          simp [bind, Except.bind, pure, Except.pure, Except.map, hcc, hne, hlast, hpos]
        · have hle : ¬m.count ≤ k + 1 := by omega
          simp [bind, Except.bind, pure, Except.pure, Except.map, hcc, hne, hlast, hle]
    · -- all of them have come already
      have hall : m.fragments.take (k + 1) = m.fragments.take k := by
        have hlf := Sent.length_fragments hlen
        rw [List.take_of_length_le (by omega), List.take_of_length_le (by omega)]
      rw [hall] at hl
      rw [ih hl]
      have h1 : m.count ≤ k := by omega
      have h2 : m.count ≤ k + 1 := by omega
      simp [cached, returned, Sent.entry_count h1, Sent.entry_count h2, h1, h2]

/-! ## The whole history -/

/-- After a send that is complete, or has pushed nothing, the cache has nothing under its id. -/
theorem cached_none {ccId x : BitVec 32} {cache : Cache} {p : Sent × Nat} (hx : cache x = none)
    (hp : p.1.id = x → ¬aborted p) : cached ccId cache p x = none := by
  unfold cached
  split
  · exact hx
  · by_cases hid : p.1.id = x
    · subst hid
      rw [update_self]
      exact if_neg (hp rfl)
    · rw [update_of_ne fun he => hid he.symm]
      exact hx

/-- While no message is pushed under the id of an aborted one, each send is returned whole or not at all. -/
theorem feed_sends : ∀ {L : List (Sent × Nat)} {e : Inner} {l : List Arrival},
    (∀ p ∈ L, p.1.data.length < 2 ^ 31) →
    L.Pairwise (fun p q => aborted p → p.1.id = q.1.id → q.2 = 0) →
    (∀ p ∈ L, 0 < p.2 → e.recvCache p.1.id = none) → List.Forall₂ Carries l (pushed L) →
    ∃ e', feed e l = .ok (e', L.flatMap (returned e.ccId))
  | [], e, l, _, _, _, hl => by
    rw [pushed, List.flatMap_nil, List.forall₂_nil_right_iff] at hl
    subst hl
    exact ⟨e, rfl⟩
  | p :: L, e, l, hlen, hpair, hnone, hl => by
    rw [pushed, List.flatMap_cons] at hl
    obtain ⟨l, l', rfl, hl, hl'⟩ := carries_append hl
    rw [List.pairwise_cons] at hpair
    have hlen' : ∀ q ∈ L, q.1.data.length < 2 ^ 31 := fun q hq => hlen q (List.mem_cons_of_mem p hq)
    by_cases h0 : p.2 = 0
    · -- nothing was pushed
      rw [h0, List.take_zero, List.forall₂_nil_right_iff] at hl
      subst hl
      obtain ⟨e', he'⟩ := feed_sends hlen' hpair.2 (fun q hq => hnone q (List.mem_cons_of_mem p hq)) hl'
      refine ⟨e', ?_⟩
      rw [List.nil_append, he', List.flatMap_cons, returned, if_neg (by omega), List.nil_append]
    · have hp := feed_take (hlen p List.mem_cons_self) (hnone p List.mem_cons_self (Nat.pos_of_ne_zero h0)) hl
      obtain ⟨e', he'⟩ := feed_sends (e := { e with recvCache := cached e.ccId e.recvCache p }) hlen' hpair.2
        (fun q hq hq0 => cached_none (hnone q (List.mem_cons_of_mem p hq) hq0)
          fun hid hab => hq0.ne' (hpair.1 q hq hab hid)) hl'
      refine ⟨e', ?_⟩
      rw [feed_append hp, he', List.flatMap_cons]
      rfl

theorem mem_of_sends {p : Sent × Nat} : ∀ {h : List Event} {s : Sender}, p ∈ s.sends h → Event.send p.1.data p.2 ∈ h
  | .reopen _ :: _, _, hp => List.mem_cons_of_mem _ (mem_of_sends hp)
  | .send data k :: h, s, hp => by
    rw [Sender.sends] at hp
    split at hp
    · exact List.mem_cons_of_mem _ (mem_of_sends hp)
    · rcases List.mem_cons.1 hp with rfl | hp
      · exact List.mem_cons_self
      · exact List.mem_cons_of_mem _ (mem_of_sends hp)

/-- **No splicing, while no message is pushed under the id of an aborted one**: whatever sends stop and senders are
replaced, everything returned is, byte for byte, one message passed to `send`. -/
theorem no_splice (s : Sender) (h : List Event) (hlen : ∀ p ∈ s.sends h, p.1.data.length < 2 ^ 31)
    (hfresh : (s.sends h).Pairwise fun p q => aborted p → p.1.id = q.1.id → q.2 = 0) (e : Inner)
    (hempty : ∀ x, e.recvCache x = none) (l : List Arrival) (hl : List.Forall₂ Carries l (pushed (s.sends h))) :
    ∃ e' outs, feed e l = .ok (e', outs) ∧ ∀ b ∈ outs, ∃ k, Event.send b k ∈ h := by
  obtain ⟨e', he'⟩ := feed_sends hlen hfresh (fun _ _ _ => hempty _) hl
  refine ⟨e', _, he', fun b hb => ?_⟩
  obtain ⟨p, hp, hb⟩ := List.mem_flatMap.1 hb
  unfold returned at hb
  split at hb
  · rw [List.mem_singleton] at hb
    exact ⟨p.2, hb ▸ mem_of_sends hp⟩
  · cases hb

/-! ### A sender dropped after an aborted send -/

/-- The slots of an all-zero ring, with the fragments pushed. -/
def arrivals (L : List (Sent × Nat)) : List Arrival := (pushed L).map written

theorem carries_arrivals (L : List (Sent × Nat)) : List.Forall₂ Carries (arrivals L) (pushed L) := by
  rw [arrivals, List.forall₂_map_left_iff]
  exact List.forall₂_same.2 fun f _ => carries_written f

/-- A send of 66 bytes that stops after its first fragment; then `next` of the next sender. -/
def handover (next : List Event) : List Event := .send (List.replicate 66 1) 1 :: .reopen 3 :: next

theorem no_splice_handover :
    let h := handover [.send [5] 0, .send [2] 1]
    ∃ e' outs, feed newcomer (arrivals (Sender.sends ⟨2, 0⟩ h)) = .ok (e', outs) ∧
      ∀ b ∈ outs, ∃ k, Event.send b k ∈ h := by
  refine no_splice ⟨2, 0⟩ _ ?_ ?_ newcomer (fun _ => rfl) _ (carries_arrivals _)
  · decide +kernel
  · simp [handover, Sender.sends]

/-- The next sender's first message has the aborted one's id: the receiver returns 66 bytes, of both. -/
theorem spliced :
    let h := handover [.send [2] 1]
    (feed newcomer (arrivals (Sender.sends ⟨2, 0⟩ h))).map Prod.snd = .ok [List.replicate 64 1 ++ [2, 0]] ∧
      ∀ k, Event.send (List.replicate 64 1 ++ [2, 0]) k ∉ h := by
  refine ⟨rfl, fun k => ?_⟩
  have h1 : (List.replicate 64 1 ++ [2, 0] : List UInt8) ≠ List.replicate 66 1 := by decide
  have h2 : (List.replicate 64 1 ++ [2, 0] : List UInt8) ≠ [2] := by decide
  simp only [handover, List.mem_cons, Event.send.injEq, reduceCtorEq, List.not_mem_nil, h1, h2, false_and, or_false,
    not_false_eq_true]

end ThothIpc.Message
