import ThothIpc.Channel.Exclusive
import ThothIpc.Channel.JoinRead
import ThothIpc.Channel.Since

/-!
# A fixed set of receivers

Any number of `push_fragment_multi` writers and a set of receivers that were all connected before the first push.

* `Opening` : a fresh channel, some of whose receivers are connected at position 0;
* `Settled` : all of them are, and each has read a prefix of what has been claimed;
* `Settled.joining` : then no step is unsound, as long as the generation of a slot does not come round under a claim;
* `multi_fifo` : every receiver reads every claimed fragment once and in order.
-/

namespace ThothIpc.Channel
open Steps

variable {ω ι : Type} {s t : State ω ι}

/-! ## A fresh channel -/

/-- A fresh channel: each receiver is closed, or has a bit of its own and is connected at position 0. -/
structure Opening (s : State ω ι) : Prop extends Fresh s where
  recvs : ∀ i, (s.recvs i).pc = .closed ∨ (s.recvs i).pc = .ready ∧ (s.recvs i).readCursor = 0 ∧
    ∃ b < 32, (s.recvs i).connId = BitVec.twoPow 32 b ∧ s.ring.connections.getLsbD b = true
  one : ∀ i j, (s.recvs i).pc = .ready → (s.recvs j).pc = .ready → (s.recvs i).connId = (s.recvs j).connId → i = j
  owner : ∀ b, s.ring.connections.getLsbD b = true →
    ∃ i, (s.recvs i).pc = .ready ∧ (s.recvs i).connId = BitVec.twoPow 32 b
  table : ∀ b < 32, (s.ring.owners b).since = 0

theorem Opening.ready (h : Opening s) {i : ι} (hi : (s.recvs i).pc.claimed = true) : (s.recvs i).pc = .ready ∧
    (s.recvs i).readCursor = 0 ∧ ∃ b < 32, (s.recvs i).connId = BitVec.twoPow 32 b ∧
    s.ring.connections.getLsbD b = true := by
  rcases h.recvs i with hpc | hpc
  · rw [hpc] at hi
    cases hi
  · exact hpc

theorem Opening.top (h : Opening s) : s.view.top = 0 := by
  have hno : ¬ ∃ w, (s.writers w).pending = true := by
    rintro ⟨w, hw⟩
    rw [h.idle w] at hw
    cases hw
  simp only [State.view, h.index]
  rw [if_neg hno]
  rfl

theorem Opening.joint (h : Opening s) : Joint s := by
  have hmarks : ∀ x, marks (s.ring.slots x).rc = 0 := fun x => by rw [(h.slots x).1]; decide
  refine ⟨h.core, by rw [h.claims]; exact Nat.zero_le _, h.epoch, fun x => ?_, fun x b hb => ?_, fun x c hx => ?_,
    fun w => ?_, fun i hi => (h.ready hi).2.2, fun i j hi hj => h.one i j (h.ready hi).1 (h.ready hj).1, fun b hb => ?_,
    fun b hb _ => h.table b hb, fun i b hi hb => ?_, fun i b m hb hm => ?_, fun i => ?_, fun p hp => ?_⟩
  · rw [(h.slots x).1]
    decide
  · rw [hmarks] at hb
    simp at hb
  · rw [(h.slots x).2.1] at hx
    exact absurd hx.symm (atPos_ne_zero c)
  · rw [h.idle w]
    trivial
  · obtain ⟨i, hi, hid⟩ := h.owner b hb
    exact ⟨i, by rw [hi]; rfl, hid⟩
  · obtain ⟨hpc, -, b', hb', hid, -⟩ := h.ready hi
    obtain rfl := Bits.twoPow_inj hb' (hid.symm.trans hb)
    have h0 : (s.recvs i).since s.ring = 0 := by
      simp only [Receiver.since, hpc, Receiver.recorded, hid, slotIndex_twoPow hb']
      exact h.table b' hb'
    rw [h0]
    exact ⟨Nat.zero_le _, fun _ _ _ _ => Nat.zero_le _, fun _ _ _ _ _ => Nat.zero_le _⟩
  · obtain ⟨hpc, hcur, -⟩ := h.ready (Receiver.claimed_of_low hm)
    have hm0 : m = 0 := by
      simp only [Receiver.low, hpc, hcur, Option.some.injEq] at hm
      exact hm.symm
    rw [hm0]
    refine ⟨Nat.zero_le _, by rw [h.top]; omega, fun p _ hp => ?_⟩
    rw [h.top] at hp
    omega
  · unfold Receiver.Place
    rcases h.recvs i with hpc | ⟨hpc, -⟩ <;> simp only [hpc]
  · rw [h.top] at hp
    omega

/-! ## Everybody is connected -/

/-- The receiver is connected: between calls, or in `recv_multi`. -/
def RPc.member : RPc → Bool
  | .ready => true
  | .read _ _ => true
  | .relLoad _ => true
  | .freeStore _ => true
  | .preStore _ _ => true
  | .relCas _ _ => true
  | .bump _ => true
  | _ => false

/-- What the receiver has released and not yet counted. -/
def RPc.past : RPc → Nat
  | .bump _ => 1
  | _ => 0

/-- A step of a connected receiver that stays: it touches neither the connection word nor an owner record, and moves on
only by what it has read. -/
theorem Receiver.act_member {g g' : Ring} {r r' : Receiver} {a : RAct} (h : r.pc.member = true) (ha : a ≠ .disconnect)
    (hst : r.act g a = some (g', r')) :
    r'.pc.member = true ∧ g'.connections = g.connections ∧ g'.owners = g.owners ∧
      ((r'.got = r.got ∧ r'.readCursor = r.readCursor) ∨
        ∃ m, r.pc = .bump m ∧ r'.got = r.got ++ [m] ∧ r'.readCursor = r.readCursor + 1) := by
  cases a with
  | disconnect => exact absurd rfl ha
  | opens pid tok =>
    obtain ⟨r₁, h₁, he⟩ := Option.map_eq_some_iff.mp hst
    cases he
    unfold Receiver.open at h₁
    split at h₁ <;> cases h₁
    rename_i hpc
    rw [hpc] at h
    cases h
  | recv =>
    obtain ⟨r₁, h₁, he⟩ := Option.map_eq_some_iff.mp hst
    cases he
    unfold Receiver.recv at h₁
    split at h₁ <;> cases h₁
    split
    · exact ⟨rfl, rfl, rfl, Or.inl ⟨rfl, rfl⟩⟩
    · exact ⟨h, rfl, rfl, Or.inl ⟨rfl, rfl⟩⟩
  | fail =>
    obtain ⟨r₁, h₁, he⟩ := Option.map_eq_some_iff.mp hst
    cases he
    unfold Receiver.fail at h₁
    split at h₁ <;> cases h₁ <;> rename_i hpc <;> rw [hpc] at h <;> cases h
    exact ⟨rfl, rfl, rfl, Or.inl ⟨rfl, rfl⟩⟩
  | go =>
    simp only [Receiver.act, Receiver.step] at hst
    cases hpc : r.pc <;> rw [hpc] at h <;> simp only [RPc.member, Bool.false_eq_true] at h <;> simp only [hpc] at hst
    case ready => cases hst
    case read k m =>
      cases hst
      split <;> exact ⟨rfl, rfl, rfl, Or.inl ⟨rfl, rfl⟩⟩
    case relLoad m =>
      cases hst
      split
      · exact ⟨rfl, rfl, rfl, Or.inl ⟨rfl, rfl⟩⟩
      · split <;> exact ⟨rfl, rfl, rfl, Or.inl ⟨rfl, rfl⟩⟩
    case freeStore m =>
      cases hst
      exact ⟨rfl, rfl, rfl, Or.inl ⟨rfl, rfl⟩⟩
    case preStore m rc =>
      cases hst
      exact ⟨rfl, rfl, rfl, Or.inl ⟨rfl, rfl⟩⟩
    case relCas m rc =>
      split at hst <;> cases hst <;> exact ⟨rfl, rfl, rfl, Or.inl ⟨rfl, rfl⟩⟩
    case bump m =>
      cases hst
      exact ⟨rfl, rfl, rfl, Or.inr ⟨m, rfl, rfl, rfl⟩⟩

/-- A writer that evicts nobody leaves the connection word alone, and works from the mask it had or from that word. -/
theorem WPc.act_mask {g g' : Ring} {n : Nat} {pc pc' : WPc} {a : WAct} {out : List (BitVec 32 × MsgT)}
    (hpc : ∀ a, pc ≠ .evict a) (h : pc.act g n a = some (g', pc', out)) : g'.connections = g.connections ∧
      ∀ cc o, pc'.loaded = some (cc, o) → cc = g.connections ∨ ∃ o', pc.loaded = some (cc, o') := by
  have hrel : ∀ x pos bit (m : MPc), (m.step g x pos bit).1.connections = g.connections := by
    intro x pos bit m
    cases m <;> simp only [MPc.step] <;> (try split) <;> rfl
  cases a with
  | call k f =>
    simp only [WPc.act] at h
    split at h <;> cases h <;> refine ⟨rfl, fun cc o hl => ?_⟩ <;> cases hl
  | fail =>
    simp only [WPc.act] at h
    split at h <;> cases h <;> refine ⟨rfl, fun cc o hl => ?_⟩ <;> cases hl
  | giveUp =>
    simp only [WPc.act] at h
    split at h <;> cases h
    exact ⟨rfl, by intros; contradiction⟩
  | go =>
    simp only [WPc.act] at h
    cases pc <;> simp only [WPc.step] at h
    case idle => cases h
    case evict a => exact absurd rfl (hpc a)
    case loadCc k f ep =>
      split at h <;> cases h
      · refine ⟨rfl, fun cc o hl => ?_⟩
        cases k <;> cases hl
      · refine ⟨rfl, fun cc o hl => ?_⟩
        cases hl
        exact Or.inl rfl
    case loadCt k f ep cc =>
      cases h
      refine ⟨rfl, fun cc' o hl => ?_⟩
      cases hl
      exact Or.inr ⟨none, rfl⟩
    case loadRc k f ep cc ct seen =>
      cases h
      refine ⟨rfl, fun cc' o hl => Or.inr ⟨some ct.toNat, ?_⟩⟩
      simp only [WPc.tested] at hl
      (repeat' split at hl) <;> cases hl <;> rfl
    case loadFl a =>
      cases h
      refine ⟨rfl, fun cc o hl => Or.inr ⟨some a.ct.toNat, ?_⟩⟩
      split at hl <;> cases hl
      rfl
    case busy k f ep =>
      cases h
      refine ⟨rfl, fun cc o hl => ?_⟩
      split at hl
      · cases hl
      · cases k <;> cases hl
    case live ct bits todo acc =>
      split at h <;> cases h <;> exact ⟨rfl, by intros; contradiction⟩
    case rel ct stale bit m =>
      cases h
      refine ⟨hrel _ _ _ _, fun cc o hl => ?_⟩
      cases hm : (m.step g (ct.setWidth 8) ct bit).2 <;> rw [hm] at hl <;> cases hl
    all_goals
      (try split at h) <;> cases h <;> refine ⟨rfl, fun cc o hl => ?_⟩ <;> (try split at hl) <;> cases hl

/-- Every receiver is connected from position 0 on, and has read a prefix of the claims. -/
structure Settled (s : State ω ι) : Prop where
  joint : Joint s
  member : ∀ i, (s.recvs i).pc.member = true
  since : ∀ b < 32, (s.ring.owners b).since = 0
  mask : ∀ w cc o, (s.writers w).loaded = some (cc, o) → cc = s.ring.connections
  count : ∀ i, (s.recvs i).got.length = (s.recvs i).readCursor.toNat
  got : ∀ i (k : Nat) m, (s.recvs i).got[k]? = some m → ∃ c, s.claims[k]? = some (c, m)

theorem Settled.low (h : Settled s) (i : ι) :
    (s.recvs i).low = some ((s.recvs i).got.length + (s.recvs i).pc.past) := by
  have hm := h.member i
  have hp := h.joint.place i
  rw [h.count i]
  unfold Receiver.low
  cases hpc : (s.recvs i).pc <;> rw [hpc] at hm <;> simp only [RPc.member, Bool.false_eq_true] at hm <;>
    simp only [RPc.past, Nat.add_zero]
  simp only [Receiver.Place, hpc] at hp

theorem Settled.guard (h : Settled s) {i : ι} {b : Nat} (hb : (s.recvs i).connId = BitVec.twoPow 32 b) :
    Guard s.view b ((s.recvs i).got.length + (s.recvs i).pc.past) :=
  h.joint.guard i b _ hb (h.low i)

/-- Writers run `push_fragment_multi`, receivers stay, and when a claim goes through the generation of its slot has not
come round since the load. -/
def staying (s : State ω ι) : Act ω ι → Prop
  | .writer _ (.call k _) => k = .rust
  | .writer w .go =>
    match s.writers w with
    | .cas a _ => (s.ring.slot a.ct).rc = a.rc → (s.ring.slot a.ct).ver < a.ver + 2 ^ 24
    | _ => True
  | .recv _ .disconnect => False
  | _ => True

/-- A claim that has not looked at the flag goes over marks of connected receivers, and every connected receiver is in
its mask: there is none. -/
theorem Settled.checked (h : Settled s) {w : ω} {a : Attempt} {c : Bool} (hw : s.writers w = .cas a c) : c = true := by
  cases c with
  | true => rfl
  | false =>
    exfalso
    have hp := h.joint.plain w
    rw [hw] at hp
    obtain ⟨-, -, -, hcc, hover⟩ := hp
    obtain ⟨hne, hsub⟩ := hover rfl
    obtain ⟨b, -, hb, -⟩ := Bits.exists_lowest _ hne
    have hmask : a.cc.getLsbD b = true := by
      rw [h.mask w a.cc (some a.ct.toNat) (by rw [hw]; rfl)]
      exact hsub b hb
    have := congrArg (fun y => y.getLsbD b) hcc
    simp [hmask, hb] at this

theorem Settled.joining (h : Settled s) (hlen : s.claims.length < 2 ^ 31) {act : Act ω ι} (hok : staying s act) :
    joining s act := by
  cases act with
  | writer w a =>
    cases a with
    | call k f => exact hok
    | fail => trivial
    | giveUp => trivial
    | go =>
      simp only [staying] at hok
      simp only [Channel.joining, sound, addressed]
      have hp := h.joint.plain w
      cases hpc : s.writers w <;> simp only [hpc, and_true] at hok ⊢
      case cas a c =>
        refine ⟨fun hrc => ?_, fun _ i hi => ?_⟩
        · rw [h.checked hpc, Attempt.sound, if_pos rfl]
          exact ⟨hok hrc, by omega⟩
        · obtain ⟨m, hm⟩ := Option.isSome_iff_exists.mp hi
          obtain ⟨b, hb, hid, hc⟩ := h.joint.own i (Receiver.claimed_of_low hm)
          rw [h.mask w a.cc (some a.ct.toNat) (by rw [hpc]; rfl), hid, ne_eq, Bits.and_twoPow_eq_zero hb, hc]
          simp
      case rel ct stale bit m =>
        rw [hpc] at hp
        obtain ⟨-, ⟨b, hb, -, hlate⟩, -⟩ := hp
        rw [Late, h.since b hb] at hlate
        simp at hlate
  | recv i a =>
    cases a with
    | disconnect => exact hok
    | opens pid tok => trivial
    | recv => trivial
    | fail => trivial
    | go =>
      have hm := h.member i
      simp only [Channel.joining]
      cases hpc : (s.recvs i).pc <;> rw [hpc] at hm <;> simp only [RPc.member, Bool.false_eq_true] at hm
      all_goals trivial

section Steps
variable [DecidableEq ω] [DecidableEq ι]

theorem Settled.step {act : Act ω ι} (h : Settled s) (hlen : s.claims.length < 2 ^ 31) (hok : staying s act)
    (hst : s.step act = some t) : Settled t := by
  have hj := h.joint.step hlen (h.joining hlen hok) hst
  rcases State.step_cases hst with ⟨w, a, g, pc, out, rfl, hp, rfl⟩ | ⟨i, a, g, r, rfl, hr, rfl⟩
  · have hplain := h.joint.plain w
    obtain ⟨hconn, hload⟩ := WPc.act_mask (fun a he => by rw [he] at hplain; exact hplain) hp
    refine ⟨hj, h.member, fun b hb => ?_, fun v cc o hv => ?_, h.count, fun i k m hk => ?_⟩
    · simp only [WPc.act_owners hp]
      exact h.since b hb
    · simp only [hconn]
      by_cases hvw : v = w
      · subst hvw
        simp only [Function.update_self] at hv
        rcases hload cc o hv with he | ⟨o', he⟩
        · exact he
        · exact h.mask v cc o' he
      · simp only [Function.update_of_ne hvw] at hv
        exact h.mask v cc o hv
    · obtain ⟨c, hc⟩ := h.got i k m hk
      exact ⟨c, by simp only [List.getElem?_append_left (List.getElem?_eq_some_iff.mp hc).1, hc]⟩
  · have ha : a ≠ .disconnect := fun he => by rw [he] at hok; exact hok
    obtain ⟨hm, hconn, ho, hgot⟩ := Receiver.act_member (h.member i) ha hr
    have hbump : ∀ m, (s.recvs i).pc = .bump m → ∃ c, s.claims[(s.recvs i).readCursor.toNat]? = some (c, m) := by
      intro m hpc
      have := h.joint.place i
      simp only [Receiver.Place, hpc] at this
      exact this
    refine ⟨hj, fun j => ?_, fun b hb => ?_, fun w cc o hw => ?_, fun j => ?_, fun j => ?_⟩
    · exact (Function.forall_update_iff s.recvs fun _ r => r.pc.member = true).mpr ⟨hm, fun j _ => h.member j⟩ j
    · simp only [ho]
      exact h.since b hb
    · simp only [hconn]
      exact h.mask w cc o hw
    · refine (Function.forall_update_iff s.recvs fun _ r => r.got.length = r.readCursor.toNat).mpr
        ⟨?_, fun j _ => h.count j⟩ j
      have hc := h.count i
      rcases hgot with ⟨h1, h2⟩ | ⟨m, hpc, h1, h2⟩
      · rw [h1, h2, hc]
      · obtain ⟨c, hcl⟩ := hbump m hpc
        have hlt := (h.joint.core.log_lt hcl).1
        rw [h1, h2, List.length_append, hc, BitVec.toNat_add]
        simp
        omega
    · refine (Function.forall_update_iff s.recvs fun _ r => ∀ (k : Nat) m, r.got[k]? = some m →
        ∃ c, s.claims[k]? = some (c, m)).mpr ⟨?_, fun j _ => h.got j⟩ j
      intro k m hk
      rcases hgot with ⟨h1, -⟩ | ⟨m', hpc, h1, -⟩
      · rw [h1] at hk
        exact h.got i k m hk
      · rw [h1, List.getElem?_append] at hk
        split at hk
        · exact h.got i k m hk
        · obtain ⟨hk0, rfl⟩ : k = (s.recvs i).got.length ∧ m' = m := by
            rw [List.getElem?_singleton] at hk
            split at hk
            · exact ⟨by omega, Option.some.inj hk⟩
            · cases hk
          rw [hk0, h.count i]
          exact hbump m' hpc

end Steps

/-! ## What the receivers read -/

/-- Broadcast in order: the claims are at consecutive positions, and the commit index counts them; each receiver has
read the fragments claimed first, finds the next one once it is committed, and is not overtaken. -/
structure InOrder (s : State ω ι) : Prop where
  consecutive : ∀ k c f, s.claims[k]? = some (c, f) → c = BitVec.ofNat 32 k
  one : ∀ w w' c c', w ≠ w' → (s.writers w).at = some c → (s.writers w').at = some c' → c.setWidth 8 ≠ c'.setWidth 8
  index : s.ring.writeCursor = BitVec.ofNat 32 s.claims.length ∨
    ∃ w f, s.writers w = .storeCt f (BitVec.ofNat 32 (s.claims.length - 1)) ∧ 0 < s.claims.length ∧
      s.ring.writeCursor = BitVec.ofNat 32 (s.claims.length - 1)
  cursor : ∀ i, (s.recvs i).readCursor = BitVec.ofNat 32 (s.recvs i).got.length
  got : ∀ i, (s.recvs i).got <+: s.claims.map Prod.snd
  next : ∀ i, (s.recvs i).pc = .ready → (s.recvs i).got.length < s.claims.length →
    (∃ w f, (s.writers w).won = some ((s.recvs i).readCursor, f)) ∨
      (s.recvs i).recv s.ring = some { s.recvs i with pc := .read 0 blank }
  unread : ∀ w c i, (s.writers w).at = some c →
    ∃ p, c = BitVec.ofNat 32 p ∧ p ≤ s.claims.length ∧ p < (s.recvs i).got.length + (s.recvs i).pc.past + 256

theorem Settled.isPrefix (h : Settled s) (i : ι) : (s.recvs i).got <+: s.claims.map Prod.snd := by
  rw [List.prefix_iff_getElem?]
  intro k hk
  obtain ⟨c, hc⟩ := h.got i k _ (List.getElem?_eq_getElem hk)
  rw [List.getElem?_map, hc]
  rfl

/-- A receiver between calls finds the next fragment once it is committed: a slot it has not read is not released. -/
theorem Settled.next (h : Settled s) {i : ι} (hpc : (s.recvs i).pc = .ready)
    (hlt : (s.recvs i).got.length < s.claims.length)
    (hno : ∀ w f, (s.writers w).won ≠ some ((s.recvs i).readCursor, f)) :
    (s.ring.slot (s.recvs i).readCursor).fCt = atPos (s.recvs i).readCursor := by
  have hcur : BitVec.ofNat 32 (s.recvs i).got.length = (s.recvs i).readCursor := by rw [h.count i]; simp
  have hclaimed : (s.recvs i).pc.claimed = true := by rw [hpc]; rfl
  obtain ⟨b, -, hid, -⟩ := h.joint.own i hclaimed
  have hg := h.guard hid
  rw [hpc] at hg
  have hlap : s.view.top ≤ (s.recvs i).got.length + 256 := hg.lap
  have htop := h.joint.core.le_top h.joint.len
  by_contra hfl
  have := h.joint.freed (s.recvs i).got.length (by omega) hlap ⟨hlt, by rw [hcur]; exact hno⟩
    (by rw [← slot_ofNat, hcur]; exact hfl) i b hclaimed hid (hg.marks _ (Nat.le_refl _) (by omega))
  rw [hpc] at this
  cases this.1

theorem Settled.unread (h : Settled s) {w : ω} {c : BitVec 32} (i : ι) (hw : (s.writers w).at = some c) :
    ∃ p, c = BitVec.ofNat 32 p ∧ p ≤ s.claims.length ∧ p < (s.recvs i).got.length + (s.recvs i).pc.past + 256 := by
  obtain ⟨b, -, hid, -⟩ := h.joint.own i (Receiver.claimed_of_low (h.low i))
  have hlap := (h.guard hid).lap
  have htop := h.joint.core.le_top h.joint.len
  rcases h.joint.core.at_won hw with ⟨k, f, ep, hpc, hc⟩ | ⟨p, f, hp, -, hc, -⟩
  · have hpend : s.view.top = s.claims.length + 1 := by
      have hl := h.joint.core.work w
      rw [hpc] at hl
      have hlen := h.joint.len
      simp only [State.view, hl.2, BitVec.toNat_ofNat]
      rw [if_pos ⟨w, by rw [hpc]; rfl⟩]
      omega
    exact ⟨s.claims.length, hc, Nat.le_refl _, by omega⟩
  · exact ⟨p, hc, by omega, by omega⟩

theorem Settled.inOrder (h : Settled s) : InOrder s := by
  refine ⟨h.joint.core.log, h.joint.core.one, ?_, fun i => ?_, h.isPrefix, fun i hpc hlt => ?_,
    fun w c i hw => h.unread i hw⟩
  · rcases h.joint.core.index with hi | ⟨w, f, ct, hw⟩
    · exact Or.inl hi
    · have hl := h.joint.core.work w
      rw [hw] at hl
      obtain ⟨h0, hct, hwc⟩ := hl
      exact Or.inr ⟨w, f, by rw [hw, hct], h0, by rw [hwc, hct]⟩
  · rw [h.count i]
    simp
  · by_cases hw : ∃ w f, (s.writers w).won = some ((s.recvs i).readCursor, f)
    · exact Or.inl hw
    · right
      push Not at hw
      simp only [Receiver.recv, hpc]
      rw [if_pos (h.next hpc hlt hw)]

section Runs
variable [DecidableEq ω] [DecidableEq ι] {s₀ : State ω ι} {acts : List (Act ω ι)}

/-- **Every receiver reads every claimed fragment once and in order**, whatever the writers and receivers interleave, up
to `2 ^ 31` pushes. -/
theorem multi_fifo (h₀ : Opening s₀) (hall : ∀ i, (s₀.recvs i).pc = .ready) (hgot : ∀ i, (s₀.recvs i).got = [])
    (hrun : Run State.step (fun s act => s.claims.length < 2 ^ 31 ∧ staying s act) s₀ acts s) : InOrder s := by
  have hstart : Settled s₀ := by
    refine ⟨h₀.joint, fun i => by rw [hall i]; rfl, h₀.table, fun w cc o hw => ?_, fun i => ?_, fun i k m hk => ?_⟩
    · rw [h₀.idle w] at hw
      cases hw
    · rw [hgot i, (h₀.ready (by rw [hall i]; rfl)).2.1]
      rfl
    · rw [hgot i] at hk
      cases hk
  exact (hrun.inv Settled hstart fun _ _ _ h hok hst => h.step hok.1 hok.2 hst).inOrder

end Runs

instance (s : State ω ι) (act : Act ω ι) : Decidable (staying s act) := by
  induction act using Act.casesOn with
  | writer w a =>
    induction a using WAct.casesOn <;> unfold staying
    case go =>
      dsimp only
      induction s.writers w using WPc.casesOn <;> infer_instance
    all_goals infer_instance
  | recv i a => induction a using RAct.casesOn <;> unfold staying <;> infer_instance

/-- Two writers and two connected receivers on a fresh ring. -/
def pair : State (Fin 2) (Fin 2) where
  ring := ⟨3, 0, 0, fun _ => ⟨blank, 0, 0, 0⟩, fun _ => ⟨1, 0, 1⟩⟩
  writers := fun _ => .idle
  recvs := fun i => reader i
  claims := []

theorem opening_pair : Opening pair := by
  refine ⟨⟨fun _ => ⟨rfl, rfl, rfl⟩, rfl, rfl, fun _ => rfl, rfl⟩, fun i => Or.inr ⟨rfl, rfl, i, by omega, rfl, ?_⟩,
    fun i j _ _ he => ?_, fun b hb => ?_, fun _ _ => rfl⟩
  · fin_cases i <;> rfl
  · exact Fin.ext (Bits.twoPow_inj (by omega) he)
  · have hb' : b < 2 := by
      by_contra hge
      by_cases h32 : b < 32
      · have : ∀ k : Fin 32, 2 ≤ k.val → (3#32).getLsbD k = false := by decide
        rw [show pair.ring.connections = 3#32 from rfl, this ⟨b, h32⟩ (by simp only; omega)] at hb
        cases hb
      · rw [BitVec.getLsbD_of_ge _ _ (by omega)] at hb
        cases hb
    exact ⟨⟨b, hb'⟩, rfl, rfl⟩

theorem multi_fifo_read : ∃ s, Run State.step (fun s act => s.claims.length < 2 ^ 31 ∧ staying s act) pair
      (pushing 0 .rust 19 ++ .recv 0 .recv :: List.replicate 8 (.recv 0 .go)) s ∧
    (s.writers 0 = .idle ∧ (s.recvs 0).got = [blank] ∧ (s.recvs 1).got = []) ∧ InOrder s := by
  refine exists_run_imp (fun s => s.writers 0 = .idle ∧ (s.recvs 0).got = [blank] ∧ (s.recvs 1).got = [])
    (by decide +kernel) fun s hrun hs => ?_
  exact ⟨hs, multi_fifo opening_pair (fun _ => rfl) (fun _ => rfl) hrun⟩

end ThothIpc.Channel
