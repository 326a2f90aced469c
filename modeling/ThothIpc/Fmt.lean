import Mathlib

/-!
# The format context

`fmt.cpp`, `fmt_context` and `sprintf`: texts are joined in a buffer of 2048 bytes, and in the caller's string as soon
as they do not fit. Which of the two is in use is told by the offset alone.

* `State.buffer` : the rest of the buffer in use, after a switch to the string if need be;
* `State.append`, `sprintf`, `State.finish`; `sprintf` tries again with the length that `snprintf` gave;
* `Inv` : the buffer that the offset tells holds the texts so far; `buffer_spec`, `append_spec`, `sprintf_spec`;
* `joined_texts` : the string is the texts one after the other.

A text formatted is given as the bytes that `snprintf` makes of it. No allocation fails.
-/

namespace ThothIpc.Fmt

abbrev Text := List UInt8

def sbufSize : Nat := 2048

def intMax : Nat := 2 ^ 31 - 1

structure State where
  sbuf : Text
  joined : Text
  offset : Nat

inductive Buf where
  | sbuf
  | joined

namespace State

def mem (s : State) : Buf → Text
  | .sbuf => s.sbuf
  | .joined => s.joined

/-- Bytes copied to the offset. -/
def write (s : State) (b : Buf) (data : Text) : State :=
  let m := (s.mem b).take s.offset ++ data ++ (s.mem b).drop (s.offset + data.length)
  match b with
  | .sbuf => { s with sbuf := m }
  | .joined => { s with joined := m }

/-- `std::string::resize`. -/
def resize (s : State) (n : Nat) : State :=
  { s with joined := s.joined.take n ++ List.replicate (n - s.joined.length) 0 }

def roundup (sz : Nat) : Nat := sz / 512 * 512 + 512

/-- The buffer, and how long it is from the offset on. -/
def buffer (s : State) (sz : Nat) : State × Buf × Nat :=
  if s.offset < sbufSize then
    if s.offset + sz < sbufSize then (s, .sbuf, sbufSize - s.offset)
    else
      let s := { s with joined := s.sbuf.take s.offset }.resize (roundup (s.offset + sz))
      (s, .joined, s.joined.length - s.offset)
  else
    let s := if s.joined.length ≤ s.offset + sz then s.resize (roundup (s.offset + sz)) else s
    (s, .joined, s.joined.length - s.offset)

def expend (s : State) (sz : Nat) : State := { s with offset := s.offset + sz }

def append (s : State) (str : Text) : State × Bool :=
  if str.length = 0 then (s, true)
  else
    let sz := if str.getLast? = some 0 then str.length - 1 else str.length
    let (s, b, size) := s.buffer sz
    if size < sz then (s, false) else ((s.write b (str.take sz)).expend sz, true)

def finish (s : State) : Text :=
  if s.offset < sbufSize then s.sbuf.take s.offset else (s.resize s.offset).joined

end State

/-- What `snprintf` stores into `size` bytes. -/
def snprintf (text : Text) (size : Nat) : Text := if size = 0 then [] else text.take (size - 1) ++ [0]

/-- The loop of `sprintf`; `none` if it is undefined or has not ended. -/
def sprintf (text : Text) : Nat → State → Int → Option (State × Int)
  | 0, _, _ => none
  | fuel + 1, s, sz =>
    if sz = intMax then none
    else
      let (s, b, size) := s.buffer (sz + 1).toNat
      if size < (sz + 1).toNat then some (s, -1)
      else
        let s := s.write b (snprintf text size)
        let sz : Int := if text.length ≤ intMax then text.length else -1
        if sz ≤ 0 then some (s, sz)
        else if sz.toNat < size then some (s.expend sz.toNat, sz)
        else sprintf text fuel s sz

/-- A call, with the text that it is given or that its format gives. -/
inductive Op where
  | append (str : Text)
  | sprintf (text : Text)

/-- The state and whether the call returned true. -/
def Op.call (fuel : Nat) (s : State) : Op → Option (State × Bool)
  | append str => some (s.append str)
  | sprintf text => (Fmt.sprintf text fuel s (-1)).map fun r => (r.1, decide (0 ≤ r.2))

/-- What the call is to add. -/
def Op.text : Op → Text
  | append str => if str.getLast? = some 0 then str.dropLast else str
  | sprintf text => text

/-- The calls one after the other, which all return true. -/
def calls (fuel : Nat) : State → List Op → Option State
  | s, [] => some s
  | s, op :: ops => do
    let (s, true) ← op.call fuel s | none
    calls fuel s ops

/-! ## The buffer in use -/

structure Inv (s : State) (texts : Text) : Prop where
  size : s.sbuf.length = sbufSize
  offset : s.offset = texts.length
  sbuf : s.offset < sbufSize → s.sbuf.take s.offset = texts
  joined : sbufSize ≤ s.offset → s.offset ≤ s.joined.length ∧ s.joined.take s.offset = texts

/-- The buffer `b` holds the texts, and has `size` more bytes. -/
structure Holds (s : State) (b : Buf) (size : Nat) (texts : Text) : Prop where
  inv : Inv s texts
  length : (s.mem b).length = s.offset + size
  take : (s.mem b).take s.offset = texts

theorem lt_roundup (n : Nat) : n < State.roundup n := by
  unfold State.roundup
  omega

theorem resize_spec {s : State} {texts : Text} {n : Nat} (h : Inv s texts) (hlen : s.offset ≤ s.joined.length)
    (hj : s.joined.take s.offset = texts) (hn : s.offset ≤ n) :
    Inv (s.resize n) texts ∧ (s.resize n).joined.length = n ∧ (s.resize n).joined.take s.offset = texts := by
  have hlength : (s.resize n).joined.length = n := by
    rw [State.resize, List.length_append, List.length_take, List.length_replicate]
    omega
  have htake : (s.resize n).joined.take s.offset = texts := by
    rw [State.resize, List.take_append_of_le_length (by rw [List.length_take]; omega), List.take_take,
      Nat.min_eq_left hn, hj]
  exact ⟨⟨h.size, h.offset, h.sbuf, fun _ => ⟨hn.trans hlength.ge, htake⟩⟩, hlength, htake⟩

/-- **What `buffer` gives** holds the texts and has room; it is the string only if `sz` bytes more do not fit. -/
theorem buffer_spec {s : State} {texts : Text} (h : Inv s texts) (sz : Nat) :
    ∃ s' b size, s.buffer sz = (s', b, size) ∧ Holds s' b size texts ∧ sz < size ∧
      (b = .sbuf → s'.offset + size = sbufSize) ∧ (b = .joined → sbufSize ≤ s'.offset + sz) := by
  have hround := lt_roundup (s.offset + sz)
  -- the string, if it holds the texts and is long enough
  have hstring : ∀ t : State, t.offset = s.offset → Inv t texts → t.joined.take s.offset = texts →
      s.offset + sz < t.joined.length → sbufSize ≤ s.offset + sz →
      ∃ s' b size, (t, Buf.joined, t.joined.length - s.offset) = (s', b, size) ∧ Holds s' b size texts ∧ sz < size ∧
        (b = .sbuf → s'.offset + size = sbufSize) ∧ (b = .joined → sbufSize ≤ s'.offset + sz) := by
    intro t hoff hinv htake hlt hge
    refine ⟨_, _, _, rfl, ⟨hinv, ?_, hoff ▸ htake⟩, by omega, nofun, fun _ => hoff ▸ hge⟩
    change t.joined.length = _
    omega
  unfold State.buffer
  split
  · rename_i hoff
    split
    · exact ⟨_, _, _, rfl, ⟨h, by rw [State.mem, h.size]; omega, h.sbuf hoff⟩, by omega, fun _ => by omega, nofun⟩
    · -- the texts so far are copied to the string
      have hcopied : Inv { s with joined := s.sbuf.take s.offset } texts :=
        ⟨h.size, h.offset, h.sbuf, fun hge => absurd hoff (Nat.not_lt.mpr hge)⟩
      obtain ⟨hinv, hlength, htake⟩ := resize_spec (n := State.roundup (s.offset + sz)) hcopied
        (by dsimp only; rw [List.length_take, h.size]; omega) (by rw [List.take_take, Nat.min_self]; exact h.sbuf hoff)
        (show s.offset ≤ _ by omega)
      exact hstring _ rfl hinv htake (by omega) (by omega)
  · rename_i hoff
    obtain ⟨hlen, hj⟩ := h.joined (Nat.not_lt.mp hoff)
    dsimp only
    split
    · obtain ⟨hinv, hlength, htake⟩ := resize_spec (n := State.roundup (s.offset + sz)) h hlen hj (by omega)
      exact hstring _ rfl hinv htake (by omega) (by omega)
    · exact hstring s rfl h hj (by omega) (by omega)

/-! ## Writing -/

section Write

variable {s : State} {b : Buf} {size : Nat} {texts x y : Text}

theorem mem_write : (s.write b x).mem b = (s.mem b).take s.offset ++ x ++ (s.mem b).drop (s.offset + x.length) := by
  cases b <;> rfl

theorem Holds.mem_write (h : Holds s b size texts) (hle : (x ++ y).length ≤ size) :
    ((s.write b (x ++ y)).mem b).length = s.offset + size ∧
      ((s.write b (x ++ y)).mem b).take (s.offset + x.length) = texts ++ x := by
  have hlen := h.length
  rw [Fmt.mem_write, h.take]
  constructor
  · rw [List.length_append, List.length_append, List.length_drop, ← h.inv.offset]
    omega
  · rw [h.inv.offset, ← List.length_append, ← List.append_assoc texts, List.append_assoc (texts ++ x)]
    exact List.take_left

theorem Holds.write (h : Holds s b size texts) (hle : y.length ≤ size) : Inv (s.write b y) texts := by
  obtain ⟨hlen, htake⟩ := h.mem_write (x := []) (y := y) hle
  rw [List.append_nil] at htake
  have hlength := h.length
  cases b with
  | sbuf => exact ⟨hlen.trans (hlength.symm.trans h.inv.size), h.inv.offset, fun _ => htake, h.inv.joined⟩
  | joined => exact ⟨h.inv.size, h.inv.offset, h.inv.sbuf, fun _ => ⟨(Nat.le_add_right _ _).trans hlen.ge, htake⟩⟩

theorem Holds.expend (h : Holds s b size texts) (hle : (x ++ y).length ≤ size)
    (hs : b = .sbuf → s.offset + x.length < sbufSize) (hj : b = .joined → sbufSize ≤ s.offset + x.length) :
    Inv ((s.write b (x ++ y)).expend x.length) (texts ++ x) := by
  obtain ⟨hlen, htake⟩ := h.mem_write hle
  have hlength := h.length
  have hoff : s.offset + x.length = (texts ++ x).length := by rw [List.length_append, h.inv.offset]
  rw [List.length_append] at hle
  cases b with
  | sbuf =>
    refine ⟨hlen.trans (hlength.symm.trans h.inv.size), hoff, fun _ => htake, fun hge => ?_⟩
    exact absurd (hs rfl) (Nat.not_lt.mpr hge)
  | joined =>
    refine ⟨h.inv.size, hoff, fun hlt => absurd hlt (Nat.not_lt.mpr (hj rfl)), fun _ => ⟨?_, htake⟩⟩
    exact (show s.offset + x.length ≤ s.offset + size by omega).trans hlen.ge

end Write

/-! ## The calls -/

theorem append_spec {s : State} {texts : Text} (h : Inv s texts) (str : Text) :
    (s.append str).2 = true ∧ Inv (s.append str).1 (texts ++ (Op.append str).text) := by
  unfold State.append
  split
  · rename_i hnil
    rw [List.length_eq_zero_iff.mp hnil]
    exact ⟨rfl, by rw [Op.text]; simpa using h⟩
  · have htext : str.take (if str.getLast? = some 0 then str.length - 1 else str.length) = (Op.append str).text := by
      rw [Op.text]
      by_cases h0 : str.getLast? = some 0
      · rw [if_pos h0, if_pos h0, List.dropLast_eq_take]
      · rw [if_neg h0, if_neg h0, List.take_length]
    have hlen := congrArg List.length htext
    rw [List.length_take, Nat.min_eq_left (by split <;> omega)] at hlen
    obtain ⟨s', b, size, hbuf, hholds, hroom, hsbuf, hjoined⟩ := buffer_spec h
      (if str.getLast? = some 0 then str.length - 1 else str.length)
    dsimp only
    rw [hbuf, htext, hlen]
    rw [hlen] at hroom hjoined
    dsimp only
    rw [if_neg (Nat.not_lt.mpr hroom.le)]
    have hexpend := hholds.expend (x := (Op.append str).text) (y := []) (by rw [List.append_nil]; exact hroom.le)
      (fun hb => by have := hsbuf hb; omega) hjoined
    rw [List.append_nil] at hexpend
    exact ⟨rfl, hexpend⟩

/-- One turn of the loop: the text is in the buffer, or it did not fit and the next turn has its length. -/
theorem turn_spec {text texts : Text} {s : State} {sz : Int} (h : Inv s texts) (hlen : text.length < intMax)
    (hsz : sz < intMax) (hover : sz = -1 ∨ sbufSize ≤ texts.length + text.length) (fuel : Nat) :
    (∃ s', sprintf text (fuel + 1) s sz = some (s', (text.length : Int)) ∧ Inv s' (texts ++ text)) ∨
      sz < text.length ∧ ∃ s', sprintf text (fuel + 1) s sz = sprintf text fuel s' text.length ∧ Inv s' texts ∧
        sbufSize ≤ texts.length + text.length := by
  obtain ⟨s', b, size, hbuf, hholds, hroom, hsbuf, hjoined⟩ := buffer_spec h (sz + 1).toNat
  have hoff := hholds.inv.offset
  have hdata : (snprintf text size).length ≤ size := by
    rw [snprintf, if_neg (by omega), List.length_append, List.length_take, List.length_singleton]
    omega
  simp only [sprintf, hbuf]
  rw [if_neg hsz.ne, if_neg (Nat.not_lt.mpr hroom.le), if_pos hlen.le]
  split
  · -- nothing to write
    have hnil : text = [] := List.length_eq_zero_iff.mp (by omega)
    subst hnil
    exact Or.inl ⟨_, rfl, by rw [List.append_nil]; exact hholds.write hdata⟩
  · split
    · rename_i hfit
      have hwhole : snprintf text size = text ++ [0] := by
        rw [snprintf, if_neg (by omega), List.take_of_length_le (by omega)]
      rw [hwhole] at hdata ⊢
      refine Or.inl ⟨_, rfl, hholds.expend hdata (fun hb => by have := hsbuf hb; omega) fun hb => ?_⟩
      have := hjoined hb
      omega
    · rename_i hfit
      refine Or.inr ⟨by omega, _, rfl, hholds.write hdata, ?_⟩
      cases b with
      | sbuf => have := hsbuf rfl; omega
      | joined => have := hjoined rfl; omega

theorem sprintf_spec {text texts : Text} {s : State} (h : Inv s texts) (hlen : text.length < intMax) :
    ∃ s', sprintf text 2 s (-1) = some (s', (text.length : Int)) ∧ Inv s' (texts ++ text) := by
  obtain hdone | ⟨-, s', hr, h', hover⟩ := turn_spec h hlen (by omega) (Or.inl rfl) 1
  · exact hdone
  · rw [hr]
    exact (turn_spec h' hlen (by omega) (Or.inr hover) 0).resolve_right fun hlt => lt_irrefl _ hlt.1

theorem Op.call_spec {op : Op} {texts : Text} {s : State} (h : Inv s texts)
    (hlen : ∀ text, op = .sprintf text → text.length < intMax) :
    ∃ s', op.call 2 s = some (s', true) ∧ Inv s' (texts ++ op.text) := by
  cases op with
  | append str =>
    obtain ⟨hr, h'⟩ := append_spec h str
    exact ⟨_, congrArg some (Prod.ext rfl hr), h'⟩
  | sprintf text =>
    obtain ⟨s', hr, h'⟩ := sprintf_spec h (hlen text rfl)
    exact ⟨s', by rw [call, hr]; simp, h'⟩

theorem calls_spec {ops : List Op} {texts : Text} {s : State} (h : Inv s texts)
    (hlen : ∀ text, Op.sprintf text ∈ ops → text.length < intMax) :
    ∃ s', calls 2 s ops = some s' ∧ Inv s' (texts ++ ops.flatMap Op.text) := by
  induction ops generalizing s texts with
  | nil => exact ⟨s, rfl, by rw [List.flatMap_nil, List.append_nil]; exact h⟩
  | cons op ops ih =>
    obtain ⟨s₁, hcall, h₁⟩ := Op.call_spec h fun text he => hlen text (he ▸ List.mem_cons_self ..)
    obtain ⟨s', hr, h'⟩ := ih h₁ fun text hm => hlen text (List.mem_cons_of_mem _ hm)
    refine ⟨s', ?_, ?_⟩
    · simp only [calls, hcall, Option.bind_eq_bind, Option.bind_some]
      exact hr
    · rw [List.flatMap_cons, ← List.append_assoc]
      exact h'

theorem Inv.finish {s : State} {texts : Text} (h : Inv s texts) : s.finish = texts := by
  unfold State.finish
  split
  · exact h.sbuf ‹_›
  · obtain ⟨hlen, hj⟩ := h.joined (Nat.not_lt.mp ‹_›)
    rw [State.resize, hj, Nat.sub_eq_zero_of_le hlen, List.replicate_zero, List.append_nil]

/-- **The texts are joined.** From a fresh context every call succeeds, and `finish` leaves the texts one after the
other, if every formatted text is shorter than 2³¹ - 1 bytes. -/
theorem joined_texts (sbuf joined : Text) (hs : sbuf.length = sbufSize) (ops : List Op)
    (hlen : ∀ text, Op.sprintf text ∈ ops → text.length < intMax) :
    ∃ s, calls 2 ⟨sbuf, joined, 0⟩ ops = some s ∧ s.finish = ops.flatMap Op.text := by
  have hfresh : Inv ⟨sbuf, joined, 0⟩ [] :=
    ⟨hs, rfl, fun _ => rfl, fun h => absurd (show sbufSize ≤ 0 from h) (by decide)⟩
  obtain ⟨s, hr, h⟩ := calls_spec hfresh hlen
  exact ⟨s, hr, h.finish⟩

theorem joined_texts_two : ∃ s, calls 2 ⟨List.replicate sbufSize 0, [], 0⟩ [.append [97, 0], .sprintf [98]] = some s ∧
    s.finish = [97, 98] :=
  joined_texts _ _ List.length_replicate _ (by simp [intMax])

theorem sprintf_none {text : Text} (h : text.length = intMax) (sbuf joined : Text) (fuel : Nat) :
    sprintf text fuel ⟨sbuf, joined, 0⟩ (-1) = none := by
  have hbuf : (State.mk sbuf joined 0).buffer (-1 + 1 : Int).toNat = (⟨sbuf, joined, 0⟩, .sbuf, sbufSize) := by rfl
  have hmax : ∀ fuel t, sprintf text fuel t intMax = none := by
    intro fuel t
    cases fuel with
    | zero => rfl
    | succ fuel => exact if_pos rfl
  cases fuel with
  | zero => rfl
  | succ fuel =>
    simp only [sprintf, hbuf, h]
    rw [if_neg (by decide), if_neg (by decide), if_pos le_rfl, if_neg (by decide), if_neg (by decide), hmax]

/-- **A text of 2³¹ - 1 bytes**, after which the loop adds 1 to the largest `int`. -/
theorem sprintf_undefined : ¬∃ fuel s,
    calls fuel ⟨List.replicate sbufSize 0, [], 0⟩ [.sprintf (List.replicate intMax 97)] = some s := by
  rintro ⟨fuel, s, hs⟩
  rw [calls, Op.call, sprintf_none List.length_replicate] at hs
  exact absurd hs nofun

end ThothIpc.Fmt
