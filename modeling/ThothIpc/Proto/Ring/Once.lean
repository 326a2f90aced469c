import ThothIpc.Proto.Ring.Reads

/-!
# Constructing the ring

`open_or_create` loads `constructed` and, if the flag is not set, stores 0 to both indices, clears the slots and sets
the flag. Nothing keeps two processes from finding the flag unset.

* `Segment.step` : any number of processes that open the segment, of which one then writes and one reads;
* `settled` : the producer copies into no cell that a process has yet to clear, and publishes nothing while a process
  has yet to store an index;
* `constructed_once` : then the ring does what it does without the stores of `open_or_create`.
-/

namespace ThothIpc.ShmRing
open Function Steps

/-! ## Opening -/

/-- Where a process is in `open_or_create`, and which cells it has cleared. -/
inductive Opener (m : Nat) where
  | idle
  | storeW
  | storeR
  | zero (done : Nat → Fin m → Bool)
  | opened

/-- The segment, with the processes that open it. -/
structure Segment (π : Type) (m : Nat) (β : Type) where
  ring : State m β
  constructed : Bool
  openers : π → Opener m

/-- The next load or store of a process's open, the clearing of one cell, or a step of the producer or the consumer. -/
inductive SegAct (π : Type) (m : Nat) (β : Type) where
  | opener (q : π)
  | clear (q : π) (i : Nat) (c : Fin m)
  | ring (a : Act m β)

def Opener.isOpened {m : Nat} : Opener m → Bool
  | opened => true
  | _ => false

/-- The indices are not both stored. -/
def Opener.resets {m : Nat} : Opener m → Bool
  | storeW => true
  | storeR => true
  | _ => false

/-- Cell `c` of slot `i` is yet to be cleared. -/
def Opener.clears {m : Nat} (i : Nat) (c : Fin m) : Opener m → Bool
  | storeW => true
  | storeR => true
  | zero done => !done i c
  | _ => false

variable {π : Type} {m : Nat} {β : Type}

/-- Who takes the step, of the process that writes and the one that reads. -/
def Act.process (w r : π) : Act m β → π
  | .read _ => r
  | .consumer => r
  | .drain _ => r
  | _ => w

namespace Segment

def fresh (z : β) : Segment π m β := ⟨State.fresh fun _ _ => z, false, fun _ => .idle⟩

variable [DecidableEq π]

def setOpener (s : Segment π m β) (q : π) (o : Opener m) : Segment π m β :=
  { s with openers := update s.openers q o }

variable (k : Nat) (z : β)

def stepOpener (s : Segment π m β) (q : π) : Option (Segment π m β) :=
  match s.openers q with
  | .idle => some (s.setOpener q (if s.constructed then .opened else .storeW))
  | .storeW => some ({ s with ring := { s.ring with writeIdx := 0 } }.setOpener q .storeR)
  | .storeR => some ({ s with ring := { s.ring with readIdx := 0 } }.setOpener q (.zero fun _ _ => false))
  | .zero done =>
    if ∀ i < 2 ^ k, ∀ c, done i c = true then some ({ s with constructed := true }.setOpener q .opened) else none
  | .opened => none

def step (w r : π) (s : Segment π m β) : SegAct π m β → Option (Segment π m β)
  | .opener q => s.stepOpener k q
  | .clear q i c =>
    match s.openers q with
    | .zero done =>
      if i < 2 ^ k ∧ done i c = false then
        some ({ s with ring := s.ring.setCell i c z }.setOpener q
          (.zero (update done i (update (done i) c true))))
      else none
    | _ => none
  | .ring a =>
    -- a process writes or reads after its own open
    if (s.openers (a.process w r)).isOpened then (s.ring.step k a).map fun t => { s with ring := t } else none

end Segment

/-- The producer copies into no cell that a process has yet to clear, and publishes no item while a process has yet to
store an index. -/
def settled (k : Nat) (s : Segment π m β) : SegAct π m β → Prop
  | .ring (.fill c) => ∀ w ∈ s.ring.prod.fills, ∀ q, (s.openers q).clears (slot k w) c = false
  | .ring .producer => s.ring.prod.fills.isSome = true → ∀ q, (s.openers q).resets = false
  | _ => True

instance [Fintype π] (k : Nat) (s : Segment π m β) : (a : SegAct π m β) → Decidable (settled k s a)
  | .ring (.fill c) =>
    inferInstanceAs (Decidable (∀ w ∈ s.ring.prod.fills, ∀ q, (s.openers q).clears (slot k w) c = false))
  | .ring .producer => inferInstanceAs (Decidable (s.ring.prod.fills.isSome = true → ∀ q, (s.openers q).resets = false))
  | .ring (.write _) => inferInstanceAs (Decidable True)
  | .ring (.overwrite _) => inferInstanceAs (Decidable True)
  | .ring (.read _) => inferInstanceAs (Decidable True)
  | .ring .consumer => inferInstanceAs (Decidable True)
  | .ring (.drain _) => inferInstanceAs (Decidable True)
  | .opener _ => inferInstanceAs (Decidable True)
  | .clear _ _ _ => inferInstanceAs (Decidable True)

/-! ## A ring before its first item -/

/-- The producer has loaded 0 as the write index, and drops nothing. -/
def Producer.Quiet : Producer m β → Prop
  | loadR _ _ w => w = 0
  | drop _ _ _ => False
  | _ => True

/-- As long as nothing is written, nothing is dropped and nothing is read. -/
structure Quiet (s : State m β) : Prop where
  readIdx : s.readIdx = 0
  prod : s.prod.Quiet
  cons : s.cons.copying = false

variable {k : Nat} {s s' : State m β} {a : Act m β}

theorem quiet_step (h : s.writeIdx = 0 → Quiet s) (hd : Does k s a s') (h0 : s'.writeIdx = 0) : Quiet s' := by
  cases hd with
  | write x _ => exact ⟨(h h0).readIdx, trivial, (h h0).cons⟩
  | overwrite x _ => exact ⟨(h h0).readIdx, trivial, (h h0).cons⟩
  | loadW _ => exact ⟨(h h0).readIdx, h0, (h h0).cons⟩
  | full _ _ => exact ⟨(h h0).readIdx, trivial, (h h0).cons⟩
  | oldest hp hfull =>
    -- an empty ring is not full
    obtain ⟨hr, hw, -⟩ := h h0
    rw [hp] at hw
    obtain rfl := hw
    rw [hr, BitVec.sub_self] at hfull
    exact absurd hfull (Nat.not_le_of_lt (Nat.two_pow_pos k))
  | room _ _ => exact ⟨(h h0).readIdx, trivial, (h h0).cons⟩
  | drop hp =>
    have := (h h0).prod
    rw [hp] at this
    exact this.elim
  | fill _ _ => exact ⟨(h h0).readIdx, trivial, (h h0).cons⟩
  | publish _ _ => cases h0
  | read out _ => exact ⟨(h h0).readIdx, (h h0).prod, rfl⟩
  | loadR _ => exact ⟨(h h0).readIdx, (h h0).prod, rfl⟩
  | empty _ _ => exact ⟨(h h0).readIdx, (h h0).prod, rfl⟩
  | item _ hw =>
    -- the word of the write index is 0
    have h0 : s.writeIdx = 0 := h0
    rw [h0, word, BitVec.le_def] at hw
    exact absurd (Nat.zero_le _) hw
  | drain hc _ =>
    have := (h h0).cons
    rw [hc] at this
    cases this
  | consume hc _ =>
    have := (h h0).cons
    rw [hc] at this
    cases this

theorem writeIdx_step (hd : Does k s a s') : s'.writeIdx = s.writeIdx ∨
    (a = .producer ∧ s.prod.fills.isSome = true) := by
  cases hd with
  | publish hp _ => exact .inr ⟨rfl, by rw [hp]; rfl⟩
  | _ => exact .inl rfl

theorem slots_step (hd : Does k s a s') {i : Nat} {c : Fin m} (h : s'.slots i c ≠ s.slots i c) :
    a = .fill c ∧ ∃ w ∈ s.prod.fills, slot k w = i := by
  cases hd with
  | @fill x w done d hp _ =>
    have h : (s.setCell (slot k w) d (x d)).slots i c ≠ s.slots i c := h
    rw [State.setCell_slots] at h
    split at h
    · rename_i he
      rw [he.1, he.2]
      exact ⟨rfl, w, by rw [hp]; rfl, rfl⟩
    · exact absurd rfl h
  | _ => exact absurd rfl h

/-! ## The invariant -/

/-- What a process has yet to store is what is there already. -/
structure Built (z : β) (s : Segment π m β) : Prop where
  unset : s.constructed = false → s.ring = State.fresh fun _ _ => z
  opened : ∀ q, (s.openers q).isOpened = true → s.constructed = true
  resets : ∀ q, (s.openers q).resets = true → s.ring.writeIdx = 0
  clears : ∀ q i c, (s.openers q).clears i c = true → s.ring.slots i c = z
  quiet : s.ring.writeIdx = 0 → Quiet s.ring

theorem built_fresh (z : β) : Built z (Segment.fresh z : Segment π m β) where
  unset := fun _ => rfl
  opened := fun _ h => by cases h
  resets := fun _ h => by cases h
  clears := fun _ _ _ h => by cases h
  quiet := fun _ => ⟨rfl, trivial, rfl⟩

variable {z : β} {w r : π}

theorem Built.ring {t : Segment π m β} (h : Built z t) {a : Act m β} (ho : (t.openers (a.process w r)).isOpened = true)
    (hok : settled k t (.ring a)) {u : State m β} (hd : Does k t.ring a u) : Built z { t with ring := u } where
  unset := fun hu => absurd (h.opened _ ho) (by rw [hu]; decide)
  opened := h.opened
  resets := fun q hq => by
    rcases writeIdx_step hd with he | ⟨rfl, hf⟩
    · exact he.trans (h.resets q hq)
    · exact absurd hq (by rw [hok hf q]; decide)
  clears := fun q i c hq => by
    by_contra hne
    obtain ⟨rfl, v, hv, rfl⟩ := slots_step hd (fun he => hne (he.trans (h.clears q i c hq)))
    exact absurd hq (by rw [hok v hv q]; decide)
  quiet := quiet_step h.quiet hd

variable [DecidableEq π]

theorem Built.openerTo {t : Segment π m β} (h : Built z t) {q : π} {o : Opener m}
    (ho : o.isOpened = true → t.constructed = true)
    (hr : o.resets = true → t.ring.writeIdx = 0) (hc : ∀ i c, o.clears i c = true → t.ring.slots i c = z) :
    Built z (t.setOpener q o) := by
  have key {P : Opener m → Prop} (hq : P o) (hall : ∀ p, P (t.openers p)) (p : π) : P ((t.setOpener q o).openers p) := by
    simp only [Segment.setOpener, update_apply]
    split
    · exact hq
    · exact hall p
  exact { h with
    opened := key (P := fun o => o.isOpened = true → t.constructed = true) ho h.opened
    resets := key (P := fun o => o.resets = true → t.ring.writeIdx = 0) hr h.resets
    clears := key (P := fun o => ∀ i c, o.clears i c = true → t.ring.slots i c = z) hc h.clears }

namespace Built

variable {t t' : Segment π m β}

theorem opener (h : Built z t) {q : π} (hs : t.stepOpener k q = some t') : Built z t' ∧ t'.ring = t.ring := by
  unfold Segment.stepOpener at hs
  cases hq : t.openers q with
  | idle =>
    rw [hq] at hs
    cases hs
    refine ⟨?_, rfl⟩
    split
    · rename_i hc
      exact h.openerTo (o := .opened) (fun _ => hc) (fun ho => by cases ho) (fun _ _ ho => by cases ho)
    · rename_i hc
      have hfresh := h.unset (Bool.eq_false_iff.mpr hc)
      exact h.openerTo (o := .storeW) (fun ho => by cases ho) (fun _ => by rw [hfresh]; rfl)
        (fun _ _ _ => by rw [hfresh]; rfl)
  | storeW =>
    have hw : t.ring.writeIdx = 0 := h.resets q (by rw [hq]; rfl)
    have he : { t.ring with writeIdx := 0 } = t.ring := by rw [← hw]
    rw [hq] at hs
    simp only [he] at hs
    cases hs
    exact ⟨h.openerTo (o := .storeR) (fun ho => by cases ho) (fun _ => hw)
      (fun i c _ => h.clears q i c (by rw [hq]; rfl)), rfl⟩
  | storeR =>
    have hr := (h.quiet (h.resets q (by rw [hq]; rfl))).readIdx
    have he : { t.ring with readIdx := 0 } = t.ring := by rw [← hr]
    rw [hq] at hs
    simp only [he] at hs
    cases hs
    exact ⟨h.openerTo (o := .zero fun _ _ => false) (fun ho => by cases ho) (fun ho => by cases ho)
      (fun i c _ => h.clears q i c (by rw [hq]; rfl)), rfl⟩
  | zero done =>
    rw [hq] at hs
    dsimp only at hs
    split at hs
    · cases hs
      have hset : Built z { t with constructed := true } := { h with
        unset := fun hu => by cases hu
        opened := fun _ _ => rfl }
      exact ⟨hset.openerTo (o := .opened) (fun _ => rfl) (fun ho => by cases ho) (fun _ _ ho => by cases ho), rfl⟩
    · cases hs
  | opened =>
    rw [hq] at hs
    cases hs

theorem clear (h : Built z t) {q : π} {i : Nat} {c : Fin m} {done : Nat → Fin m → Bool} (hq : t.openers q = .zero done)
    (hd : done i c = false) : t.ring.setCell i c z = t.ring ∧
      Built z (t.setOpener q (.zero (update done i (update (done i) c true)))) := by
  have hcell : t.ring.slots i c = z := h.clears q i c (by rw [hq]; simp [Opener.clears, hd])
  constructor
  · unfold State.setCell
    rw [← hcell, update_eq_self, update_eq_self]
  · refine h.openerTo (fun ho => by cases ho) (fun ho => by cases ho) fun j d hj => h.clears q j d ?_
    rw [hq]
    simp only [Opener.clears, Bool.not_eq_true', update_apply] at hj ⊢
    split at hj
    · rename_i hji
      subst hji
      rw [update_apply] at hj
      split at hj
      · cases hj
      · exact hj
    · exact hj

/-- **One step.** A step of the ring, or one that leaves the ring as it is. -/
theorem step (h : Built z t) {a : SegAct π m β} (hok : settled k t a) (hs : t.step k z w r a = some t') :
    Built z t' ∧ ((∃ b, a = .ring b ∧ t.ring.step k b = some t'.ring) ∨ t'.ring = t.ring) := by
  cases a with
  | opener q =>
    obtain ⟨h', he⟩ := h.opener hs
    exact ⟨h', .inr he⟩
  | clear q i c =>
    simp only [Segment.step] at hs
    split at hs
    · rename_i done hq
      split at hs
      · rename_i hd
        obtain ⟨he, h'⟩ := h.clear hq hd.2
        rw [he] at hs
        cases hs
        exact ⟨h', .inr rfl⟩
      · cases hs
    · cases hs
  | ring b =>
    simp only [Segment.step] at hs
    split at hs
    · rename_i ho
      obtain ⟨u, hu, rfl⟩ := Option.map_eq_some_iff.mp hs
      exact ⟨h.ring ho hok (State.does_step hu), .inl ⟨b, rfl, hu⟩⟩
    · cases hs

end Built

def SegAct.opens : SegAct π m β → Prop
  | ring _ => False
  | _ => True

/-- All steps of an open that constructs a ring of one slot of one cell. -/
def openAll (q : Bool) : List (SegAct Bool 1 Nat) := [.opener q, .opener q, .opener q, .clear q 0 0, .opener q]

end ThothIpc.ShmRing
