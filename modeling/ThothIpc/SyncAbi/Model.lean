import ThothIpc.Lib.Run

/-!
# The sync ABI stamp

`sync_abi.rs` keeps a stamp beside every named mutex and condition: a magic word and five fields that say which ABI the
payload follows. Whoever finds the magic word 0 claims it, writes its own fields and publishes the magic; everybody else
waits for the magic and compares.

* `Expected`, `Stamp` : the five fields, and the stamp in shared memory;
* `Err` : what `init_or_validate` fails with, and its texts;
* `Opener.step` : the next access of `init_or_validate_within`, or of `validate`;
* `State.step` : any number of openers, each of which may die at any access.

The clock is left to the environment: an opener that finds the stamp in progress may find its deadline passed (`late`).
-/

namespace ThothIpc.SyncAbi

def syncAbiMagic : BitVec 32 := 1279873857
def syncAbiInitInProgress : BitVec 32 := BitVec.allOnes 32

inductive PrimitiveKind where
  | mutex
  | condition
  deriving DecidableEq, Repr

def PrimitiveKind.label : PrimitiveKind → String
  | .mutex => "mutex"
  | .condition => "condition"

/-- `SyncAbiExpected`. -/
structure Expected where
  abiVersionMajor : BitVec 32
  abiVersionMinor : BitVec 32
  backendId : BitVec 32
  primitiveKind : BitVec 32
  payloadSize : BitVec 32
  deriving DecidableEq, Repr

/-- The fields, in the order in which they are stored and loaded. -/
inductive Field where
  | major
  | minor
  | backend
  | kind
  | payload
  deriving DecidableEq, Repr

namespace Field

def next : Field → Option Field
  | major => some minor
  | minor => some backend
  | backend => some kind
  | kind => some payload
  | payload => none

/-- The place of the field in that order. -/
def index : Field → Nat
  | major => 0
  | minor => 1
  | backend => 2
  | kind => 3
  | payload => 4

end Field

namespace Expected

def get (x : Expected) : Field → BitVec 32
  | .major => x.abiVersionMajor
  | .minor => x.abiVersionMinor
  | .backend => x.backendId
  | .kind => x.primitiveKind
  | .payload => x.payloadSize

def set (x : Expected) (v : BitVec 32) : Field → Expected
  | .major => { x with abiVersionMajor := v }
  | .minor => { x with abiVersionMinor := v }
  | .backend => { x with backendId := v }
  | .kind => { x with primitiveKind := v }
  | .payload => { x with payloadSize := v }

/-- What the locals of `validate` hold before the first load. -/
def blank : Expected := ⟨0, 0, 0, 0, 0⟩

end Expected

/-- `SyncAbiStamp`. -/
structure Stamp where
  magic : BitVec 32
  fields : Expected
  deriving DecidableEq, Repr

/-! ## Errors -/

inductive ErrorKind where
  | timedOut
  | invalidData
  deriving DecidableEq, Repr

/-- What `init_or_validate` fails with: a stamp that stays in progress, a magic word that is none, or other fields. -/
inductive Err where
  | stalled
  | badMagic (found : BitVec 32)
  | mismatch (actual : Expected)
  deriving DecidableEq, Repr

def hex (v : BitVec 32) : String := "0x" ++ String.ofList (Nat.toDigits 16 v.toNat)

def dec (v : BitVec 32) : String := toString v.toNat

/-- `backend_mismatch_hint`; empty where the target is not macOS. -/
def backendMismatchHint (macos : Bool) (expectedBackend actualBackend : BitVec 32) : String :=
  if macos ∧ ((expectedBackend = 2 ∧ actualBackend = 3) ∨ (expectedBackend = 3 ∧ actualBackend = 2)) then
    "; macOS profile mismatch: apple_ulock (2) cannot interop with apple_mach (3)"
  else ""

def Expected.text (x : Expected) : String :=
  "major.minor=" ++ dec x.abiVersionMajor ++ "." ++ dec x.abiVersionMinor ++ ", backend=" ++ dec x.backendId ++ ", kind=" ++
    dec x.primitiveKind ++ ", payload=" ++ dec x.payloadSize

namespace Err

def kind : Err → ErrorKind
  | stalled => .timedOut
  | badMagic _ => .invalidData
  | mismatch _ => .invalidData

def text (macos : Bool) (primitive : PrimitiveKind) (expected : Expected) : Err → String
  | stalled => "sync ABI init stalled for " ++ primitive.label ++ ": stuck at INIT_IN_PROGRESS"
  | badMagic found =>
    "sync ABI stamp magic mismatch for " ++ primitive.label ++ ": expected " ++ hex syncAbiMagic ++ ", found " ++ hex found
  | mismatch actual =>
    "sync ABI mismatch for " ++ primitive.label ++ ": expected " ++ expected.text ++ " but found " ++ actual.text ++
      backendMismatchHint macos expected.backendId actual.backendId

end Err

/-! ## Openers -/

/-- Where an opener stands: about to load the magic word, to claim it, to store a field, to publish, or to load a field
in `validate`; returned; or dead. -/
inductive Pc where
  | idle
  | load
  | claim
  | store (f : Field)
  | publish
  | read (f : Field) (got : Expected)
  | returned (r : Except Err Unit)
  | dead
  deriving DecidableEq, Repr

structure Opener where
  expected : Expected
  pc : Pc
  deriving DecidableEq, Repr

/-- The end of `validate`: all five fields are as expected, or the error names them. -/
def validate (expected actual : Expected) : Except Err Unit :=
  if actual.abiVersionMajor = expected.abiVersionMajor ∧ actual.abiVersionMinor = expected.abiVersionMinor ∧
      actual.backendId = expected.backendId ∧ actual.primitiveKind = expected.primitiveKind ∧
      actual.payloadSize = expected.payloadSize then .ok ()
  else .error (.mismatch actual)

inductive Act where
  | opens (expected : Expected)
  | go
  | late
  | die
  deriving DecidableEq, Repr

def Opener.step (m : Stamp) (o : Opener) : Option (Stamp × Opener) :=
  match o.pc with
  | .idle => none
  | .load =>
    if m.magic = syncAbiMagic then some (m, { o with pc := .read .major .blank })
    else if m.magic = syncAbiInitInProgress then some (m, o)
    else if m.magic = 0 then some (m, { o with pc := .claim })
    else some (m, { o with pc := .returned (.error (.badMagic m.magic)) })
  | .claim =>
    if m.magic = 0 then some ({ m with magic := syncAbiInitInProgress }, { o with pc := .store .major })
    else some (m, { o with pc := .load })
  | .store f =>
    some ({ m with fields := m.fields.set (o.expected.get f) f }, { o with pc := match f.next with
      | some f' => .store f'
      | none => .publish })
  | .publish => some ({ m with magic := syncAbiMagic }, { o with pc := .returned (.ok ()) })
  | .read f got =>
    let got' := got.set (m.fields.get f) f
    some (m, { o with pc := match f.next with
      | some f' => .read f' got'
      | none => .returned (validate o.expected got') })
  | .returned _ => none
  | .dead => none

def Opener.act (m : Stamp) (o : Opener) : Act → Option (Stamp × Opener)
  | .opens x =>
    match o.pc with
    | .idle => some (m, ⟨x, .load⟩)
    | _ => none
  | .go => o.step m
  | .late =>
    match o.pc with
    | .load => if m.magic = syncAbiInitInProgress then some (m, { o with pc := .returned (.error .stalled) }) else none
    | _ => none
  | .die =>
    match o.pc with
    | .returned _ => none
    | _ => some (m, { o with pc := .dead })

structure State (ι : Type) where
  stamp : Stamp
  openers : ι → Opener

def State.step {ι : Type} [DecidableEq ι] (s : State ι) (a : ι × Act) : Option (State ι) :=
  ((s.openers a.1).act s.stamp a.2).map fun r => ⟨r.1, Function.update s.openers a.1 r.2⟩

end ThothIpc.SyncAbi
