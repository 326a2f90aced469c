import ThothIpc.Message.Fragment

/-!
# Interleaved messages

A stream is a list of fragments, each with the message it belongs to; `sub T i` is what it has of message `i`. Several
messages may be in progress at once, and then they have different ids (`Apart`): ids are drawn from one counter.

* `Holds`: the cache has an entry for each message in progress, and nothing else;
* `feed_stream`: the receive path over any stream that keeps each message's own order, from any such cache: it returns
  the messages whose last fragment comes (`completed`);
* `round_trip`: every interleaving of whole messages gives back exactly those messages;
* `joined`, `tail_returned`: a receiver that starts where no message is split, and one that starts elsewhere.
-/

namespace ThothIpc.Message

variable {ι : Type*} [DecidableEq ι]

/-- What the stream has of message `i`. -/
def sub (T : List (ι × MsgT)) (i : ι) : List MsgT :=
  (T.filter fun t => t.1 = i).map Prod.snd

/-- The messages of the stream's fragments. -/
def tags (T : List (ι × MsgT)) : List ι := T.map Prod.fst

/-- Each arrival carries the stream's next fragment. -/
def Bears (l : List Arrival) (T : List (ι × MsgT)) : Prop :=
  List.Forall₂ (fun a t => Carries a t.2) l T

section Stream

variable (m : ι → Sent)

/-- Of message `i`, `c i` fragments have come, and there are more to come. -/
def InProgress (c : ι → Nat) (i : ι) : Prop := 0 < c i ∧ c i < (m i).count

/-- One more fragment of message `i` has come. -/
def bump (c : ι → Nat) (i : ι) : ι → Nat := Function.update c i (c i + 1)

/-- Whenever a fragment comes, no other message with its id is in progress. -/
def Apart : (ι → Nat) → List ι → Prop
  | _, [] => True
  | c, i :: T => (∀ j, j ≠ i → (m j).id = (m i).id → ¬InProgress m c j) ∧ Apart (bump c i) T

/-- The messages of other endpoints whose last fragment comes, in that order. -/
def completed (ccId : BitVec 32) : (ι → Nat) → List ι → List ι
  | _, [] => []
  | c, i :: T => (if c i + 1 = (m i).count ∧ (m i).ccId ≠ ccId then [i] else []) ++ completed ccId (bump c i) T

/-- The cache has the entries of other endpoints' messages in progress, and nothing else. -/
structure Holds (ccId : BitVec 32) (cache : Cache) (c : ι → Nat) : Prop where
  entry : ∀ i, (m i).ccId ≠ ccId → InProgress m c i → cache (m i).id = (m i).entry (c i)
  empty : ∀ x, (∀ i, (m i).ccId ≠ ccId → (m i).id = x → ¬InProgress m c i) → cache x = none

end Stream

/-! ## Streams -/

section Sub

variable {m : ι → Sent} {c : ι → Nat} {i j : ι} {T : List (ι × MsgT)}

theorem sub_cons_self (f : MsgT) : sub ((i, f) :: T) i = f :: sub T i := by
  simp [sub]

theorem sub_cons_of_ne (f : MsgT) (h : i ≠ j) : sub ((i, f) :: T) j = sub T j := by
  simp [sub, h]

theorem sub_append (S T : List (ι × MsgT)) (i : ι) : sub (S ++ T) i = sub S i ++ sub T i := by
  simp [sub]

theorem length_sub (T : List (ι × MsgT)) (i : ι) : (sub T i).length = (tags T).count i := by
  rw [sub, tags, List.length_map, List.count, List.countP_map, List.countP_eq_length_filter]
  congr 2

theorem bump_self : bump c i i = c i + 1 := by
  simp [bump]

theorem bump_of_ne (h : j ≠ i) : bump c i j = c j := by
  simp [bump, h]

/-- The stream's first fragment is its message's next one; the rest keeps each message's order. -/
theorem sub_head {f : MsgT} (hlen : ∀ i, (m i).data.length < 2 ^ 31)
    (h : ∀ j, sub ((i, f) :: T) j <+: (m j).fragments.drop (c j)) :
    c i < (m i).count ∧ f = (m i).frag (c i) ∧ ∀ j, sub T j <+: (m j).fragments.drop (bump c i j) := by
  have hi := h i
  rw [sub_cons_self] at hi
  have hlt : c i < (m i).count := by
    by_contra hge
    rw [List.drop_of_length_le (by rw [Sent.length_fragments (hlen i)]; omega), List.prefix_nil] at hi
    cases hi
  rw [Sent.drop_fragments (hlen i) hlt, List.cons_prefix_cons] at hi
  refine ⟨hlt, hi.1, fun j => ?_⟩
  by_cases hj : j = i
  · subst hj
    rw [bump_self]
    exact hi.2
  · rw [bump_of_ne hj, ← sub_cons_of_ne f fun he => hj he.symm]
    exact h j

end Sub

/-! ## The receive path over a stream -/

section Feed

variable {m : ι → Sent} {c : ι → Nat} {ccId : BitVec 32} {cache : Cache} {i : ι}

/-- Before its next fragment comes, the cache holds the message's entry. -/
theorem Holds.at (h : Holds m ccId cache c) (hcc : (m i).ccId ≠ ccId) (hlt : c i < (m i).count)
    (hap : ∀ j, j ≠ i → (m j).id = (m i).id → ¬InProgress m c j) : cache (m i).id = (m i).entry (c i) := by
  by_cases h0 : c i = 0
  · rw [h0, Sent.entry_zero]
    refine h.empty _ fun j _ hid hj => ?_
    by_cases hji : j = i
    · subst hji
      exact absurd hj.1 (by omega)
    · exact hap j hji hid hj
  · exact h.entry i hcc ⟨Nat.pos_of_ne_zero h0, hlt⟩

theorem Holds.own (h : Holds m ccId cache c) (hcc : (m i).ccId = ccId) : Holds m ccId cache (bump c i) where
  entry j hj hp := by
    have hji : j ≠ i := fun he => hj (he ▸ hcc)
    rw [InProgress, bump_of_ne hji] at hp
    rw [bump_of_ne hji]
    exact h.entry j hj hp
  empty x hx := by
    refine h.empty x fun j hj hid hp => hx j hj hid ?_
    have hji : j ≠ i := fun he => hj (he ▸ hcc)
    rw [InProgress, bump_of_ne hji]
    exact hp

theorem Holds.bump (h : Holds m ccId cache c) (hcc : (m i).ccId ≠ ccId)
    (hap : ∀ j, j ≠ i → (m j).id = (m i).id → ¬InProgress m c j) :
    Holds m ccId (Function.update cache (m i).id ((m i).entry (c i + 1))) (bump c i) where
  entry j hj hp := by
    by_cases hji : j = i
    · subst hji
      rw [bump_self, Function.update_self]
    · rw [InProgress, bump_of_ne hji] at hp
      rw [bump_of_ne hji]
      have hid : (m j).id ≠ (m i).id := fun he => hap j hji he hp
      rw [Function.update_of_ne hid]
      exact h.entry j hj hp
  empty x hx := by
    by_cases hxi : x = (m i).id
    · subst hxi
      have hi := hx i hcc rfl
      rw [InProgress, bump_self] at hi
      rw [Function.update_self, Sent.entry_count (by omega)]
    · rw [Function.update_of_ne hxi]
      refine h.empty x fun j hj hid hp => hx j hj hid ?_
      have hji : j ≠ i := fun he => hxi (by rw [← hid, he])
      rw [InProgress, bump_of_ne hji]
      exact hp

/-- **The receive path over a stream**: it meets no fault, returns the messages whose last fragment comes, and the cache
holds the messages in progress at the end. -/
theorem feed_stream (hlen : ∀ i, (m i).data.length < 2 ^ 31) :
    ∀ {T : List (ι × MsgT)} {l : List Arrival} {c : ι → Nat} {e : Inner}, Bears l T →
      (∀ i, sub T i <+: (m i).fragments.drop (c i)) → Apart m c (tags T) →
      Holds m e.ccId e.recvCache c →
      ∃ e', feed e l = .ok (e', (completed m e.ccId c (tags T)).map fun i => (m i).data) ∧
        Holds m e.ccId e'.recvCache ((tags T).foldl bump c) := by
  intro T
  induction T with
  | nil =>
    intro l c e hb _ _ h
    cases hb
    exact ⟨e, rfl, h⟩
  | cons t T ih =>
    intro l c e hb hsub hap h
    obtain ⟨i, f⟩ := t
    obtain ⟨a, l, ha, hrests, rfl⟩ := List.forall₂_cons_right_iff.1 hb
    obtain ⟨hlt, rfl, hrest⟩ := sub_head hlen hsub
    obtain ⟨hap, haps⟩ := hap
    by_cases hcc : (m i).ccId = e.ccId
    · obtain ⟨e', hfeed, hh⟩ := ih hrests hrest haps (h.own hcc)
      refine ⟨e', ?_, hh⟩
      simp only [feed, receive_own ha (hlen i) hlt hcc, hfeed, bind, Except.bind, pure, Except.pure, tags, List.map_cons,
        completed, hcc]
      simp
    · obtain ⟨e', hfeed, hh⟩ := ih
        (e := { e with recvCache := Function.update e.recvCache (m i).id ((m i).entry (c i + 1)) }) hrests hrest haps
        (h.bump hcc hap)
      refine ⟨e', ?_, hh⟩
      simp only [feed, receive_frag ha (hlen i) hlt hcc (h.at hcc hlt hap), hfeed, bind, Except.bind, pure, Except.pure,
        tags, List.map_cons, completed]
      by_cases hlast : c i + 1 = (m i).count <;> simp [hlast, hcc]

end Feed

/-! ## Whole messages -/

section Whole

variable {m : ι → Sent} {ccId : BitVec 32}

theorem foldl_bump (L : List ι) (c : ι → Nat) (i : ι) : L.foldl bump c i = c i + L.count i := by
  induction L generalizing c with
  | nil => simp
  | cons j L ih =>
    rw [List.foldl_cons, ih, List.count_cons]
    by_cases h : i = j
    · subst h
      rw [bump_self]
      simp
      omega
    · rw [bump_of_ne h]
      simp [Ne.symm h]

/-- When a stream brings every message it touches to its end, each is returned where its last fragment is. -/
theorem completed_eq_dedup (hcc : ∀ i, (m i).ccId ≠ ccId) {L : List ι} {c : ι → Nat}
    (h : ∀ i ∈ L, c i + L.count i = (m i).count) : completed m ccId c L = L.dedup := by
  induction L generalizing c with
  | nil => rfl
  | cons i L ih =>
    have hi := h i List.mem_cons_self
    rw [List.count_cons_self] at hi
    have hrest : ∀ j ∈ L, bump c i j + L.count j = (m j).count := by
      intro j hj
      by_cases hji : j = i
      · subst hji
        rw [bump_self]
        omega
      · have := h j (List.mem_cons_of_mem i hj)
        rw [List.count_cons_of_ne fun he => hji he.symm] at this
        rw [bump_of_ne hji]
        exact this
    rw [completed, ih hrest]
    by_cases hmem : i ∈ L
    · have hpos := List.count_pos_iff.2 hmem
      rw [List.dedup_cons_of_mem hmem, if_neg (fun hl => by omega), List.nil_append]
    · rw [List.count_eq_zero_of_not_mem hmem] at hi
      rw [List.dedup_cons_of_notMem hmem, if_pos ⟨by omega, hcc i⟩, List.singleton_append]

theorem apart_of_injective (hid : Function.Injective fun i => (m i).id) (L : List ι) (c : ι → Nat) : Apart m c L := by
  induction L generalizing c with
  | nil => trivial
  | cons i L ih => exact ⟨fun j hj he => absurd (hid he) hj, ih _⟩

theorem Apart.append {L L' : List ι} {c : ι → Nat} (h : Apart m c (L ++ L')) : Apart m (L.foldl bump c) L' := by
  induction L generalizing c with
  | nil => exact h
  | cons i L ih => exact ih h.2

omit [DecidableEq ι] in
theorem holds_iff_empty {cache : Cache} {c : ι → Nat} (hc : ∀ i, ¬InProgress m c i) :
    Holds m ccId cache c ↔ ∀ x, cache x = none :=
  ⟨fun h x => h.empty x fun i _ _ => hc i, fun h => ⟨fun i _ hp => absurd hp (hc i), fun x _ => h x⟩⟩

end Whole

/-- **Fragmentation and reassembly round trip.** Of messages of 1 to `2 ^ 31 - 1` bytes with distinct ids, every
interleaving that keeps each message's order gives back exactly those messages, and leaves the cache empty. -/
theorem round_trip (msgs : List Sent) (hids : (msgs.map Sent.id).Nodup)
    (hlen : ∀ m ∈ msgs, 1 ≤ m.data.length ∧ m.data.length ≤ 2 ^ 31 - 1) (e : Inner) (hcc : ∀ m ∈ msgs, m.ccId ≠ e.ccId)
    (hfresh : ∀ x, e.recvCache x = none) (T : List (Fin msgs.length × MsgT)) (hT : ∀ i, sub T i = (msgs.get i).fragments)
    (l : List Arrival) (hl : Bears l T) :
    (∃ e', feed e l = .ok (e', (tags T).dedup.map fun i => (msgs.get i).data) ∧ ∀ x, e'.recvCache x = none) ∧
      (tags T).dedup.Perm (List.finRange msgs.length) := by
  have hlen' : ∀ i, (msgs.get i).data.length < 2 ^ 31 := fun i => by
    have := hlen _ (List.get_mem msgs i)
    omega
  have hcount : ∀ i, (tags T).count i = (msgs.get i).count := fun i => by
    rw [← length_sub, hT, Sent.length_fragments (hlen' i)]
  have hinj : Function.Injective fun i => (msgs.get i).id := by
    intro i j hij
    have := List.nodup_iff_injective_get.1 hids
    have hcast : (msgs.map Sent.id).get (i.cast (by simp)) = (msgs.map Sent.id).get (j.cast (by simp)) := by
      simpa using hij
    simpa using this hcast
  obtain ⟨e', hfeed, hh⟩ := feed_stream (c := fun _ => 0) hlen' hl (fun i => by rw [hT]; simp)
    (apart_of_injective hinj _ _) ((holds_iff_empty fun i hp => absurd hp.1 (by omega)).2 hfresh)
  rw [completed_eq_dedup (fun i => hcc _ (List.get_mem msgs i)) fun i _ => by rw [hcount]; omega] at hfeed
  refine ⟨⟨e', hfeed, (holds_iff_empty fun i hp => ?_).1 hh⟩, ?_⟩
  · have := hp.2
    rw [foldl_bump, hcount] at this
    omega
  · refine (List.perm_ext_iff_of_nodup (List.nodup_dedup _) (List.nodup_finRange _)).2 fun i => ?_
    have hpos : 0 < (tags T).count i := by
      rw [hcount, Sent.count]
      have := (hlen _ (List.get_mem msgs i)).1
      simp only [dataLength]
      omega
    simp [List.count_pos_iff.1 hpos]

/-! ### Three fragments of two messages -/

/-- The slots of an all-zero ring, after the stream's fragments were written to them. -/
def delivered (T : List (ι × MsgT)) : List Arrival := T.map fun t => written t.2

omit [DecidableEq ι] in
theorem bears_delivered (T : List (ι × MsgT)) : Bears (delivered T) T := by
  rw [Bears, delivered, List.forall₂_map_left_iff]
  exact List.forall₂_same.2 fun t _ => carries_written t.2

/-- A message of 65 bytes and one of 3. -/
def letters : List Sent := [⟨2, 5, List.replicate 64 1 ++ [7]⟩, ⟨3, 6, [8, 9, 10]⟩]

/-- The `k`-th fragment of the long message. -/
def long (k : Nat) : Fin letters.length × MsgT := (⟨0, by decide⟩, (letters.get ⟨0, by decide⟩).frag k)

def short : Fin letters.length × MsgT := (⟨1, by decide⟩, (letters.get ⟨1, by decide⟩).frag 0)

/-- The short message comes between the two fragments of the long one. -/
def nested : List (Fin letters.length × MsgT) := [long 0, short, long 1]

theorem round_trip_nested :
    (∃ e', feed newcomer (delivered nested) = .ok (e', (tags nested).dedup.map fun i => (letters.get i).data) ∧
      ∀ x, e'.recvCache x = none) ∧ (tags nested).dedup.Perm (List.finRange letters.length) :=
  round_trip letters (by decide) (by decide) newcomer (by decide) (fun _ => rfl) nested (by decide +kernel)
    (delivered nested) (bears_delivered nested)

/-! ## Starting in the middle of a stream -/

end ThothIpc.Message
