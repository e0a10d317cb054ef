import CodeMemory.Lib.JsonFields
import CodeMemory.Lib.Result

/-! Session events and the checks made on them before they are persisted and after
they are read back. Kinds and freshness classes are closed sets; a text outside
them is kept as `unknown` so that the checks have something to reject. -/

namespace CodeMemory.SessionLog

open Lib Lib.GoString Lib.Decimal

inductive Kind where
  | taskStart
  | contextServed
  | read
  | refresh
  | edit
  | test
  | failure
  | compaction
  | completion
  | unknown (text : GoString)
  deriving DecidableEq

namespace Kind

def allKinds : List Kind :=
  [taskStart, contextServed, read, refresh, edit, test, failure, compaction, completion]

def text : Kind → GoString
  | taskStart => lit "task_start"
  | contextServed => lit "context_served"
  | read => lit "read"
  | refresh => lit "refresh"
  | edit => lit "edit"
  | test => lit "test"
  | failure => lit "failure"
  | compaction => lit "compaction"
  | completion => lit "completion"
  | unknown t => t

def valid (k : Kind) : Bool := k ∈ allKinds

end Kind

inductive Freshness where
  | unset
  | timeless
  | asOf
  | pointer
  | stale
  | superseded
  | unknown (text : GoString)
  deriving DecidableEq

namespace Freshness

def freshnessSet : List Freshness := [timeless, asOf, pointer, stale, superseded]

def text : Freshness → GoString
  | unset => []
  | timeless => lit "timeless"
  | asOf => lit "as_of"
  | pointer => lit "pointer"
  | stale => lit "stale"
  | superseded => lit "superseded"
  | unknown t => t

def valid (f : Freshness) : Bool := f ∈ freshnessSet

end Freshness

/-- A `float64` by its bits, with one zero, as `==` has it. -/
structure Float64 where
  bits : UInt64
  canonical : bits ≠ 0x8000000000000000
  deriving DecidableEq

namespace Float64

def zero : Float64 := ⟨0, by decide⟩

def one : Float64 := ⟨0x3FF0000000000000, by decide⟩

def sign (f : Float64) : Bool := 0x8000000000000000 ≤ f.bits

def magnitude (f : Float64) : UInt64 := f.bits &&& 0x7FFFFFFFFFFFFFFF

def isNaN (f : Float64) : Bool := 0x7FF0000000000000 < f.magnitude

/-- Neither infinite nor not a number: what JSON can write. -/
def isFinite (f : Float64) : Bool := f.magnitude < 0x7FF0000000000000

def ltZero (f : Float64) : Bool := !f.isNaN && f.sign

def gtOne (f : Float64) : Bool := !f.isNaN && !f.sign && one.bits < f.bits

end Float64

/-- A half-open source range; zero at both ends is the whole file. -/
structure Range where
  start : Int64
  stop : Int64
  deriving DecidableEq

def Range.valid (r : Range) : Bool := 0 ≤ r.start && 0 ≤ r.stop && (r.stop == 0 || r.start ≤ r.stop)

structure Provenance where
  repository : GoString
  tree : GoString
  baseDigest : GoString
  path : GoString
  range : Range
  symbol : GoString
  handle : GoString
  confidence : Float64

structure Event where
  schema : GoString
  id : GoString
  seq : UInt64
  session : GoString
  kind : Kind
  time : GoString
  verb : GoString
  provenance : Provenance
  freshness : Freshness
  predictedDigest : GoString
  observedDigest : GoString
  counts : GoMap GoString Int64
  coverageWarnings : List GoString
  freeText : GoString
  folded : Int64

def Provenance.zero : Provenance := ⟨[], [], [], [], ⟨0, 0⟩, [], [], .zero⟩

def Event.zero : Event :=
  ⟨[], [], 0, [], .unknown [], [], [], .zero, .unset, [], [], ∅, [], [], 0⟩

def currentSchema : GoString := lit "sentra-scm.sessionlog/v1"

def maxFreeTextBytes : Nat := 512

/-- A text cut at the limit, in the middle of a rune if it falls there. -/
def cut (s : GoString) : GoString := if maxFreeTextBytes < s.length then s.take maxFreeTextBytes else s

/-- `canonicalCounts` copies the map, so nothing happens to the counts. -/
def Event.sanitize (ev : Event) : Event :=
  { ev with freeText := cut ev.freeText, coverageWarnings := ev.coverageWarnings.map cut }

inductive LogError where
  | unknownKind (k : Kind)
  | unsupportedSchema (s : GoString)
  | unknownFreshness (f : Freshness)
  | invalidRange
  | confidenceRange
  | freeTextTooLong
  | emptyPath
  | absolutePath (p : GoString)
  | backslashPath (p : GoString)
  | pathEncoding (p : GoString)
  | pathEscape (p : GoString)
  | repositoryRequired (k : Kind)
  | locatorRequired (k : Kind)
  | seqRequired
  | timeRequired
  | timeFormat (t : GoString)
  | unsupportedValue
  | eventTooLarge (size : Nat)
  | writeFailed
  deriving DecidableEq

/-- Whether `url.PathUnescape` accepts the text: two hexadecimal digits after each percent sign. -/
def escapesOk : GoString → Bool
  | [] => true
  | b :: t =>
    (b != 0x25 || match t with
      | x :: y :: _ => (Json.hexValue x).isSome && (Json.hexValue y).isSome
      | _ => false) && escapesOk t

def validatePath (p : GoString) : Except LogError Unit :=
  if p = [] then .error .emptyPath
  else if hasPrefix p (lit "/") then .error (.absolutePath p)
  else if 0x5C ∈ p then .error (.backslashPath p)
  else if 0x25 ∈ p ∧ escapesOk p = false then .error (.pathEncoding p)
  else if lit ".." ∈ p.splitOn 0x2F then .error (.pathEscape p)
  else .ok ()

def Event.validateFields (ev : Event) : Except LogError Unit :=
  if ¬ ev.kind.valid then .error (.unknownKind ev.kind)
  else if ev.schema ≠ [] ∧ ev.schema ≠ currentSchema then .error (.unsupportedSchema ev.schema)
  else if ev.freshness ≠ .unset ∧ ¬ ev.freshness.valid then .error (.unknownFreshness ev.freshness)
  else if ¬ ev.provenance.range.valid then .error .invalidRange
  else if ev.provenance.confidence.ltZero ∨ ev.provenance.confidence.gtOne then .error .confidenceRange
  else if maxFreeTextBytes < ev.freeText.length then .error .freeTextTooLong
  else if ev.provenance.path ≠ [] then validatePath ev.provenance.path
  else .ok ()

def requireProvenance (k : Kind) : Bool := k ∈ [Kind.edit, .compaction, .contextServed]

def validateProvenance (ev : Event) : Except LogError Unit :=
  let p := ev.provenance
  if ¬ requireProvenance ev.kind then .ok ()
  else if trimSpace p.repository = [] ∧ trimSpace p.tree = [] then .error (.repositoryRequired ev.kind)
  else if trimSpace p.path = [] ∧ trimSpace p.symbol = [] ∧ trimSpace p.handle = [] then
    .error (.locatorRequired ev.kind)
  else if p.path ≠ [] then validatePath p.path
  else .ok ()

/-- `timeOk` is whether `time.Parse` reads a text as RFC 3339. -/
def Event.validate (timeOk : GoString → Bool) (ev : Event) : Except LogError Unit := do
  ev.validateFields
  if ev.seq = 0 then .error .seqRequired
  else if ev.time = [] then .error .timeRequired
  else if ¬ timeOk ev.time then .error (.timeFormat ev.time)
  else .ok ()

/-- What `validateFields` asks of an event, apart from the length of its free text. -/
structure Event.FieldsOk (ev : Event) : Prop where
  kind : ev.kind.valid = true
  schema : ev.schema = [] ∨ ev.schema = currentSchema
  freshness : ev.freshness = .unset ∨ ev.freshness.valid = true
  range : ev.provenance.range.valid = true
  confidence : ¬ (ev.provenance.confidence.ltZero = true ∨ ev.provenance.confidence.gtOne = true)
  path : ev.provenance.path = [] ∨ validatePath ev.provenance.path = .ok ()

theorem Event.validateFields_ok_iff {ev : Event} :
    ev.validateFields = .ok () ↔ ev.FieldsOk ∧ ev.freeText.length ≤ maxFreeTextBytes := by
  have hpath : (if ev.provenance.path ≠ [] then validatePath ev.provenance.path else .ok ()) = .ok () ↔
      ev.provenance.path = [] ∨ validatePath ev.provenance.path = .ok () := by
    by_cases hp : ev.provenance.path = [] <;> simp [hp]
  simp only [validateFields, Result.guard_eq_ok_iff, hpath]
  constructor
  · rintro ⟨hk, hs, hf, hr, hc, ht, hp⟩
    exact ⟨⟨not_not.mp hk, by simpa [or_iff_not_imp_left] using hs, by simpa [or_iff_not_imp_left] using hf,
      not_not.mp hr, hc, hp⟩, Nat.not_lt.mp ht⟩
  · rintro ⟨h, ht⟩
    exact ⟨not_not.mpr h.kind, by simpa [or_iff_not_imp_left] using h.schema,
      by simpa [or_iff_not_imp_left] using h.freshness, not_not.mpr h.range, h.confidence, Nat.not_lt.mpr ht,
      h.path⟩

theorem Event.validate_ok_iff {timeOk : GoString → Bool} {ev : Event} :
    ev.validate timeOk = .ok () ↔
      ev.validateFields = .ok () ∧ ev.seq ≠ 0 ∧ ev.time ≠ [] ∧ timeOk ev.time = true := by
  simp only [validate, Result.bind_eq_ok_iff, Result.guard_eq_ok_iff]
  constructor
  · rintro ⟨⟨⟩, hf, hs, ht, ho, -⟩
    exact ⟨hf, hs, ht, not_not.mp ho⟩
  · rintro ⟨hf, hs, ht, ho⟩
    exact ⟨(), hf, hs, ht, not_not.mpr ho, trivial⟩

end CodeMemory.SessionLog
