import CodeMemory.Lib.JsonFields
import CodeMemory.Lib.Result

/-! The savings ledger: steps with their counters, of which the last 256 are kept and the
older ones are added to a rollup, in one total and in one subtotal for each category. The
ledger is written to one JSON file before it changes in memory, and read back by `Open`. -/

namespace CodeMemory.Savings

open Lib Lib.GoString Lib.Json

def currentVersion : Int64 := 2

def defaultMaxSteps : ℕ := 256

structure Step where
  name : GoString
  category : GoString
  estimator : GoString
  baselineModel : GoString
  baselineBytes : Int64
  servedBytes : Int64
  baselineTokensEst : Int64
  servedTokensEst : Int64
  dedupCount : UInt64
  compressionCount : UInt64
  avoidedReads : UInt64
  modelCalls : UInt64
  avoidedModelCalls : UInt64
  deriving DecidableEq

structure Totals where
  baselineBytes : Int64
  servedBytes : Int64
  savedBytes : Int64
  baselineTokensEst : Int64
  servedTokensEst : Int64
  savedTokensEst : Int64
  dedupCount : UInt64
  compressionCount : UInt64
  avoidedReads : UInt64
  modelCalls : UInt64
  avoidedModelCalls : UInt64
  deriving DecidableEq

structure CategorySummary where
  category : GoString
  steps : Int64
  totals : Totals
  deriving DecidableEq

structure Summary where
  version : Int64
  steps : Int64
  totals : Totals
  categories : List CategorySummary
  deriving DecidableEq

structure Rollup where
  steps : Int64
  totals : Totals
  categories : List CategorySummary
  deriving DecidableEq

structure DiskLedger where
  version : Int64
  steps : List Step
  rollup : Option Rollup
  deriving DecidableEq

structure Ledger where
  steps : List Step
  rolledSteps : Int64
  rolledTotals : Totals
  rolledCategories : List CategorySummary
  deriving DecidableEq

def Step.zero : Step := ⟨[], [], [], [], 0, 0, 0, 0, 0, 0, 0, 0, 0⟩

def Totals.zero : Totals := ⟨0, 0, 0, 0, 0, 0, 0, 0, 0, 0, 0⟩

def CategorySummary.zero : CategorySummary := ⟨[], 0, .zero⟩

def Rollup.zero : Rollup := ⟨0, .zero, []⟩

def DiskLedger.zero : DiskLedger := ⟨0, [], none⟩

def Ledger.empty : Ledger := ⟨[], 0, .zero, []⟩

inductive Error where
  | cacheDirectoryRequired
  | readFailed
  | decodeFailed
  | trailingData
  | unsupportedVersion (version : Int64)
  | invalidPersistedStep (index : ℕ) (error : Error)
  | stepNameRequired
  | stepCategoryRequired
  | negativeCount
  | writeFailed
  deriving DecidableEq

def validateStep (step : Step) : Except Error Unit :=
  if trimSpace step.name = [] then .error .stepNameRequired
  else if trimSpace step.category = [] then .error .stepCategoryRequired
  else if step.baselineBytes < 0 ∨ step.servedBytes < 0 ∨ step.baselineTokensEst < 0 ∨ step.servedTokensEst < 0 then
    .error .negativeCount
  else .ok ()

def addStep (total : Totals) (step : Step) : Totals where
  baselineBytes := total.baselineBytes + step.baselineBytes
  servedBytes := total.servedBytes + step.servedBytes
  savedBytes := (total.baselineBytes + step.baselineBytes) - (total.servedBytes + step.servedBytes)
  baselineTokensEst := total.baselineTokensEst + step.baselineTokensEst
  servedTokensEst := total.servedTokensEst + step.servedTokensEst
  savedTokensEst := (total.baselineTokensEst + step.baselineTokensEst) - (total.servedTokensEst + step.servedTokensEst)
  dedupCount := total.dedupCount + step.dedupCount
  compressionCount := total.compressionCount + step.compressionCount
  avoidedReads := total.avoidedReads + step.avoidedReads
  modelCalls := total.modelCalls + step.modelCalls
  avoidedModelCalls := total.avoidedModelCalls + step.avoidedModelCalls

def CategorySummary.add (c : CategorySummary) (step : Step) : CategorySummary :=
  { c with steps := c.steps + 1, totals := addStep c.totals step }

def addRollupCategory : List CategorySummary → Step → List CategorySummary
  | [], step => [⟨step.category, 1, addStep .zero step⟩]
  | c :: categories, step =>
    if c.category = step.category then c.add step :: categories else c :: addRollupCategory categories step

namespace Ledger

variable (l : Ledger)

/-- A step that leaves the list of steps is added to the rollup. -/
def roll (old : Step) : Ledger :=
  { l with
    rolledSteps := l.rolledSteps + 1
    rolledTotals := addStep l.rolledTotals old
    rolledCategories := addRollupCategory l.rolledCategories old }

def sortCategories (categories : List CategorySummary) : List CategorySummary :=
  categories.insertionSort fun c c' => strLe c.category c'.category = true

def next (step : Step) : Ledger :=
  let steps := l.steps ++ [step]
  let overflow := steps.length - defaultMaxSteps
  let rolled := (steps.take overflow).foldl roll l
  { rolled with steps := steps.drop overflow, rolledCategories := sortCategories rolled.rolledCategories }

def disk : DiskLedger :=
  ⟨currentVersion, l.steps,
    if l.rolledSteps > 0 then some ⟨l.rolledSteps, l.rolledTotals, l.rolledCategories⟩ else none⟩

/-- The ledger that a decoded file stands for. -/
def ofDisk (d : DiskLedger) : Ledger :=
  match d.rollup with
  | none => ⟨d.steps, 0, .zero, []⟩
  | some r => ⟨d.steps, r.steps, r.totals, r.categories⟩

/-- One live step in the subtotals by category. -/
def addCategory (byCategory : GoMap GoString CategorySummary) (step : Step) : GoMap GoString CategorySummary :=
  byCategory.insert step.category
    (((byCategory.lookup step.category).getD ⟨step.category, 0, .zero⟩).add step)

def byCategory : GoMap GoString CategorySummary :=
  l.steps.foldl addCategory (l.rolledCategories.foldl (fun m c => m.insert c.category c) ∅)

def summary : Summary where
  version := currentVersion
  steps := l.rolledSteps + Int64.ofNat l.steps.length
  totals := l.steps.foldl addStep l.rolledTotals
  categories := (GoMap.sortedKeys l.byCategory).filterMap fun c => l.byCategory.lookup c

end Ledger

def totalsFields (t : Totals) : List (GoString × Option Json) :=
  [(lit "baseline_bytes", some (int64 t.baselineBytes)),
    (lit "served_bytes", some (int64 t.servedBytes)),
    (lit "saved_bytes", some (int64 t.savedBytes)),
    (lit "baseline_tokens_est", some (int64 t.baselineTokensEst)),
    (lit "served_tokens_est", some (int64 t.servedTokensEst)),
    (lit "saved_tokens_est", some (int64 t.savedTokensEst)),
    (lit "dedup_count", some (uint64 t.dedupCount)),
    (lit "compression_count", some (uint64 t.compressionCount)),
    (lit "avoided_reads", some (uint64 t.avoidedReads)),
    (lit "model_calls", some (uint64 t.modelCalls)),
    (lit "avoided_model_calls", some (uint64 t.avoidedModelCalls))]

def stepFields (s : Step) : List (GoString × Option Json) :=
  [(lit "name", some (.str s.name)),
    (lit "category", some (.str s.category)),
    (lit "estimator", some (.str s.estimator)),
    (lit "baseline_model", some (.str s.baselineModel)),
    (lit "baseline_bytes", some (int64 s.baselineBytes)),
    (lit "served_bytes", some (int64 s.servedBytes)),
    (lit "baseline_tokens_est", some (int64 s.baselineTokensEst)),
    (lit "served_tokens_est", some (int64 s.servedTokensEst)),
    (lit "dedup_count", some (uint64 s.dedupCount)),
    (lit "compression_count", some (uint64 s.compressionCount)),
    (lit "avoided_reads", some (uint64 s.avoidedReads)),
    (lit "model_calls", some (uint64 s.modelCalls)),
    (lit "avoided_model_calls", some (uint64 s.avoidedModelCalls))]

def stepJson (s : Step) : Json := .obj (emit (stepFields s))

def totalsJson (t : Totals) : Json := .obj (emit (totalsFields t))

def categoryFields (c : CategorySummary) : List (GoString × Option Json) :=
  [(lit "category", some (.str c.category)),
    (lit "steps", some (int64 c.steps)),
    (lit "totals", some (totalsJson c.totals))]

def categoryJson (c : CategorySummary) : Json := .obj (emit (categoryFields c))

def rollupFields (r : Rollup) : List (GoString × Option Json) :=
  [(lit "steps", some (int64 r.steps)),
    (lit "totals", some (totalsJson r.totals)),
    (lit "categories", if r.categories = [] then none else some (.arr (r.categories.map categoryJson)))]

def rollupJson (r : Rollup) : Json := .obj (emit (rollupFields r))

def diskFields (d : DiskLedger) : List (GoString × Option Json) :=
  [(lit "version", some (int64 d.version)),
    (lit "steps", some (.arr (d.steps.map stepJson))),
    (lit "rollup", d.rollup.map rollupJson)]

def diskJson (d : DiskLedger) : Json := .obj (emit (diskFields d))

/-- The bytes that `writeAtomic` renames into place. -/
def marshal (d : DiskLedger) : GoString := renderWith .indented 0 (diskJson d) ++ [0x0A]

def totalsNames : List GoString :=
  ["baseline_bytes", "served_bytes", "saved_bytes", "baseline_tokens_est", "served_tokens_est", "saved_tokens_est",
    "dedup_count", "compression_count", "avoided_reads", "model_calls", "avoided_model_calls"].map lit

def stepNames : List GoString :=
  ["name", "category", "estimator", "baseline_model", "baseline_bytes", "served_bytes", "baseline_tokens_est",
    "served_tokens_est", "dedup_count", "compression_count", "avoided_reads", "model_calls",
    "avoided_model_calls"].map lit

def categoryNames : List GoString := ["category", "steps", "totals"].map lit

def rollupNames : List GoString := ["steps", "totals", "categories"].map lit

def diskNames : List GoString := ["version", "steps", "rollup"].map lit

def decodeTotals (old : Totals) : Json → Option Totals
  | .obj ms =>
    if known totalsNames ms then do
      let baselineBytes ← readField totalsNames ms decodeInt64 (lit "baseline_bytes") old.baselineBytes
      let servedBytes ← readField totalsNames ms decodeInt64 (lit "served_bytes") old.servedBytes
      let savedBytes ← readField totalsNames ms decodeInt64 (lit "saved_bytes") old.savedBytes
      let baselineTokensEst ← readField totalsNames ms decodeInt64 (lit "baseline_tokens_est") old.baselineTokensEst
      let servedTokensEst ← readField totalsNames ms decodeInt64 (lit "served_tokens_est") old.servedTokensEst
      let savedTokensEst ← readField totalsNames ms decodeInt64 (lit "saved_tokens_est") old.savedTokensEst
      let dedupCount ← readField totalsNames ms decodeUint64 (lit "dedup_count") old.dedupCount
      let compressionCount ← readField totalsNames ms decodeUint64 (lit "compression_count") old.compressionCount
      let avoidedReads ← readField totalsNames ms decodeUint64 (lit "avoided_reads") old.avoidedReads
      let modelCalls ← readField totalsNames ms decodeUint64 (lit "model_calls") old.modelCalls
      let avoidedModelCalls ← readField totalsNames ms decodeUint64 (lit "avoided_model_calls") old.avoidedModelCalls
      return ⟨baselineBytes, servedBytes, savedBytes, baselineTokensEst, servedTokensEst, savedTokensEst, dedupCount,
        compressionCount, avoidedReads, modelCalls, avoidedModelCalls⟩
    else none
  | .null => some old
  | _ => none

def decodeStep (old : Step) : Json → Option Step
  | .obj ms =>
    if known stepNames ms then do
      let name ← readField stepNames ms decodeString (lit "name") old.name
      let category ← readField stepNames ms decodeString (lit "category") old.category
      let estimator ← readField stepNames ms decodeString (lit "estimator") old.estimator
      let baselineModel ← readField stepNames ms decodeString (lit "baseline_model") old.baselineModel
      let baselineBytes ← readField stepNames ms decodeInt64 (lit "baseline_bytes") old.baselineBytes
      let servedBytes ← readField stepNames ms decodeInt64 (lit "served_bytes") old.servedBytes
      let baselineTokensEst ← readField stepNames ms decodeInt64 (lit "baseline_tokens_est") old.baselineTokensEst
      let servedTokensEst ← readField stepNames ms decodeInt64 (lit "served_tokens_est") old.servedTokensEst
      let dedupCount ← readField stepNames ms decodeUint64 (lit "dedup_count") old.dedupCount
      let compressionCount ← readField stepNames ms decodeUint64 (lit "compression_count") old.compressionCount
      let avoidedReads ← readField stepNames ms decodeUint64 (lit "avoided_reads") old.avoidedReads
      let modelCalls ← readField stepNames ms decodeUint64 (lit "model_calls") old.modelCalls
      let avoidedModelCalls ← readField stepNames ms decodeUint64 (lit "avoided_model_calls") old.avoidedModelCalls
      return ⟨name, category, estimator, baselineModel, baselineBytes, servedBytes, baselineTokensEst, servedTokensEst,
        dedupCount, compressionCount, avoidedReads, modelCalls, avoidedModelCalls⟩
    else none
  | .null => some old
  | _ => none

def decodeCategory (old : CategorySummary) : Json → Option CategorySummary
  | .obj ms =>
    if known categoryNames ms then do
      let category ← readField categoryNames ms decodeString (lit "category") old.category
      let steps ← readField categoryNames ms decodeInt64 (lit "steps") old.steps
      let totals ← readField categoryNames ms decodeTotals (lit "totals") old.totals
      return ⟨category, steps, totals⟩
    else none
  | .null => some old
  | _ => none

def decodeRollup (old : Rollup) : Json → Option Rollup
  | .obj ms =>
    if known rollupNames ms then do
      let steps ← readField rollupNames ms decodeInt64 (lit "steps") old.steps
      let totals ← readField rollupNames ms decodeTotals (lit "totals") old.totals
      let categories ← readField rollupNames ms (decodeArray .zero decodeCategory) (lit "categories") old.categories
      return ⟨steps, totals, categories⟩
    else none
  | .null => some old
  | _ => none

def decodeDisk (old : DiskLedger) : Json → Option DiskLedger
  | .obj ms =>
    if known diskNames ms then do
      let version ← readField diskNames ms decodeInt64 (lit "version") old.version
      let steps ← readField diskNames ms (decodeArray .zero decodeStep) (lit "steps") old.steps
      let rollup ← readField diskNames ms (decodePointer .zero decodeRollup) (lit "rollup") old.rollup
      return ⟨version, steps, rollup⟩
    else none
  | .null => some old
  | _ => none

/-- The version in a text that is read for nothing else. -/
def probeVersion (raw : GoString) : Option Int64 :=
  match parseAll raw with
  | some (.obj ms) => readField [lit "version"] ms decodeInt64 (lit "version") 0
  | some .null => some 0
  | _ => none

/-- The file as it is found on disk. -/
inductive Stored where
  | missing
  | unreadable
  | bytes (raw : GoString)
  deriving DecidableEq

def validateSteps (index : ℕ) : List Step → Except Error Unit
  | [] => .ok ()
  | step :: steps =>
    match validateStep step with
    | .error e => .error (.invalidPersistedStep index e)
    | .ok () => validateSteps (index + 1) steps

/-- `Open` on a file with some bytes. -/
def decodeLedger (raw : GoString) : Except Error Ledger :=
  match (parseValue raw.length raw).bind fun x => (decodeDisk .zero x.1).map fun d => (d, x.2) with
  | none =>
    -- a file of an earlier version is discarded
    match probeVersion raw with
    | some v => if v ≠ currentVersion then .ok .empty else .error .decodeFailed
    | none => .error .decodeFailed
  | some (d, rest) =>
    if skipSpace rest ≠ [] then .error .trailingData
    else if d.version ≠ currentVersion then .error (.unsupportedVersion d.version)
    else do
      validateSteps 0 d.steps
      .ok (.ofDisk d)

def openLedger (cacheDir : GoString) (stored : Stored) : Except Error Ledger :=
  if trimSpace cacheDir = [] then .error .cacheDirectoryRequired
  else match stored with
    | .missing => .ok .empty
    | .unreadable => .error .readFailed
    | .bytes raw => decodeLedger raw

/-- Whether the file system lets `writeAtomic` rename its temporary file into place. -/
inductive Disk where
  | writable
  | failing
  deriving DecidableEq

def writeAtomic (disk : Disk) (file : Stored) (d : DiskLedger) : Except Error Unit × Stored :=
  match disk with
  | .writable => (.ok (), .bytes (marshal d))
  | .failing => (.error .writeFailed, file)

/-- A ledger in memory and the file it was opened from. -/
structure Store where
  ledger : Ledger
  file : Stored
  deriving DecidableEq

def record (s : Store) (step : Step) (disk : Disk) : Except Error Unit × Store :=
  match validateStep step with
  | .error e => (.error e, s)
  | .ok () =>
    let next := s.ledger.next step
    match writeAtomic disk s.file next.disk with
    | (.error e, file) => (.error e, { s with file := file })
    | (.ok (), file) => (.ok (), ⟨next, file⟩)

end CodeMemory.Savings
