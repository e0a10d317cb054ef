import CodeMemory.Broker.Applied

/-! The sealed runner: `RunLeaf` calls on one candidate store, cut at the points where
other calls can come in between. What the authorizer, git and the synthesizer do is
given by the act that takes a run a step further. Candidate directories are named by
the ids of their candidates. -/

namespace CodeMemory.Broker

open Lib Lib.GoString Lib.Path Capability

structure LeafSpec where
  runID : Identifier
  nodeID : GoString
  ownedPaths : List GoString
  forbiddenPaths : List GoString
  baseGitOID : GoString
  identity : Identity
  grant : LeafGrant
  changeSetID : GoString
  idempotencyKey : GoString
  now : Int

def validateSpec (spec : LeafSpec) : Bool :=
  spec.runID.idNamespace = lit "run" && spec.runID.value ≠ [] && spec.nodeID ≠ [] && spec.nodeID.length ≤ 64 &&
    spec.changeSetID ≠ [] && spec.idempotencyKey ≠ [] && spec.now ≠ 0 && spec.ownedPaths ≠ [] &&
    spec.ownedPaths.length ≤ 64 && spec.forbiddenPaths.length ≤ 64 &&
    (spec.baseGitOID.length = 40 || spec.baseGitOID.length = 64) &&
    spec.ownedPaths.all (fun p => validatePath p = .ok ())
      && spec.forbiddenPaths.all (fun p => validatePath p = .ok ()) &&
    decide (validateGrant spec.grant spec.now = .ok ()) && spec.grant.repositoryGitOID = spec.baseGitOID

/-- What the authorizer is asked: at admission, for a proposed edit, for a read or another effect, and for an edit that
is about to be applied. -/
inductive Ask where
  | admission (request : Request)
  | propose (e : Edit)
  | effect (request : Request)
  | mutate (e : Edit)
  deriving DecidableEq

/-- What happens in a run, in order: the answers of the authorizer (a denial has a reason) and the applied edits. -/
inductive Note where
  | authorize (ask : Ask) (denied : Option Reason)
  | applied (e : Edit)
  deriving DecidableEq

inductive DenialCode where
  | broker (reason : Reason)
  | invalidEdit
  | text (code : GoString)
  deriving DecidableEq

def DenialCode.isEscape : DenialCode → Bool
  | .broker .escapePathScope | .broker .escapeForbiddenPath | .broker .escapePathShape | .broker .escapeDispatch
  | .broker .escapeEffectKind => true
  | .broker _ | .invalidEdit => false
  | .text code => hasPrefix code (lit "escape_")

structure DenialRecord where
  action : GoString
  path : GoString
  reasonCode : DenialCode
  deriving DecidableEq

/-- An escape attempt among the denials discards with its own reason. -/
def discardReason (denials : List DenialRecord) : RollbackReason :=
  if denials.any (fun record => record.reasonCode.isEscape) then .escapeDenied else .rejected

inductive RunState where
  | completed
  | failed
  deriving DecidableEq

/-- A malformed specification gives a result without a state. -/
structure RunResult where
  state : Option RunState
  outcome : Option Outcome
  rollback : Option RollbackReceipt
  denials : List DenialRecord
  deriving DecidableEq

inductive RunError where
  | invalid
  | apply (err : ApplyError)
  deriving DecidableEq

/-- Where a run is: in `Begin`, in the synthesizer, in `Discard`, in a section of `Apply`, or back. -/
inductive Phase where
  | beginning
  | hydrating
  | synthesizing
  | discarding (reason : RollbackReason) (setDigest : Digest) (denials : List DenialRecord) (err : Option RunError)
  | applying
  | rejecting
  | removing
  | validated
  | replaying (rec : RecordedOutcome)
  | waiting
  | mutating (i : ℕ)
  | authorized (i : ℕ)
  | failing (executed : ℕ) (err : CandidateError)
  | recording (outcome : Outcome) (err : Option CandidateError)
  | finished (result : RunResult) (err : Option RunError)

structure Run where
  spec : LeafSpec
  candidate : Option GoString
  staged : List Edit
  denials : List DenialRecord
  trace : List Note
  removed : List GoString
  phase : Phase

/-- The store as the runs share it: the directories below the candidate root, the records, the lock of the applications,
and the candidate ids that were drawn so far. -/
structure Shared where
  dirs : Finset GoString
  seen : GoMap GoString RecordedOutcome
  locked : Bool
  drawn : List GoString

/-- One step of a run. `mkdir` has the random part of the candidate id; the other arguments are answers of the
authorizer, of git, of the disk and of the synthesizer. -/
inductive Act where
  | start (spec : LeafSpec) (denied : Option Reason)
  | beginFails (base : Bool)
  | mkdir (random : GoString)
  | hydrated (ok : Bool)
  | propose (e : Edit) (denied : Option Reason)
  | readFile (path : GoString) (denied : Option Reason)
  | requestEffect (action path : GoString) (denied : Option Reason)
  | returned (failure : Option DenialCode)
  | proceed
  | cancelled
  | authorize (denied : Option Reason)
  | applyOne (failure : Option CandidateError)
  | checked (facts : Except CandidateError (Digest × GoString))

def candidateID (random : GoString) : GoString := lit "candidate-" ++ random

namespace Run

variable (run : Run)

def id : GoString := run.candidate.getD []

def theCandidate : Candidate := ⟨run.id, [run.id], run.spec.baseGitOID⟩

def request : ApplyRequest :=
  ⟨run.spec.changeSetID, run.spec.idempotencyKey, run.spec.identity.tenant, run.spec.identity.principal, run.staged⟩

variable (cfg : StoreConfig)

def requestDigest : Digest := digestApplyRequest cfg.sha256 run.spec.baseGitOID run.request

def stagedDigest : Digest :=
  if run.staged = [] then ⟨[], []⟩ else changeSetDigest cfg.sha256 run.spec.baseGitOID run.staged

def note (n : Note) : Run := { run with trace := run.trace ++ [n] }

def deny (record : DenialRecord) : Run := { run with denials := run.denials ++ [record] }

def goto (phase : Phase) : Run := { run with phase := phase }

def finish (result : RunResult) (err : Option RunError) : Run := run.goto (.finished result err)

def failClosed (outcome : Option Outcome) (rollback : Option RollbackReceipt) (denials : List DenialRecord)
    (err : Option RunError) : Run := run.finish ⟨some .failed, outcome, rollback, denials⟩ err

/-- `Apply` returned without an outcome: the candidate is discarded and the cause returned. -/
def rejectWith (err : CandidateError) : Run :=
  run.goto (.discarding .rejected (run.stagedDigest cfg) run.denials (some (.apply (.store err))))

def removeAll : Run := { run with removed := run.removed ++ run.candidate.toList }

def answered (ask : Ask) (action path : GoString) (denied : Option Reason) : Run :=
  match denied with
  | none => run.note (.authorize ask none)
  | some reason => (run.note (.authorize ask (some reason))).deny ⟨action, path, .broker reason⟩

def propose (e : Edit) (denied : Option Reason) : Run :=
  if validateEdit cfg.sha256 e ≠ .ok () then
    let shape := validatePath e.path ≠ .ok () ∨ validatePath e.oldPath ≠ .ok () ∧ e.op = .rename
    run.deny ⟨actionFileWrite, e.path, if shape then .broker .escapePathShape else .invalidEdit⟩
  else if denied = none then { run.answered (.propose e) actionFileWrite e.path denied with
    staged := run.staged ++ [e] }
  else run.answered (.propose e) actionFileWrite e.path denied

def effectRequest (action path : GoString) : Request := ⟨action, path, run.spec.grant.resources.headD ⟨[], []⟩, []⟩

/-- After the synthesizer returned: any failure or denial discards the candidate, and so does an empty edit set. -/
def synthesized (failure : Option DenialCode) : Run :=
  let denials := run.denials ++ (failure.map fun code => ⟨lit "leaf.synthesize", [], code⟩).toList
  if denials ≠ [] then run.goto (.discarding (discardReason denials) (run.stagedDigest cfg) denials none)
  else if run.staged = [] then run.goto (.discarding .rejected ⟨[], []⟩ run.denials none)
  else run.goto .applying

/-- The checks of `Apply` before it looks at the records. -/
def enterApply : Run :=
  if ¬ run.request.wellFormed then run.rejectWith cfg .invalidInput
  else if validate cfg.sha256 run.staged ≠ .ok () then run.goto .rejecting
  else run.goto .validated

def replayed (rec : RecordedOutcome) : Run :=
  match rec.answer (run.requestDigest cfg) with
  | .error err => run.rejectWith cfg err
  | .ok outcome =>
    if outcome.state = .applied then run.finish ⟨some .completed, some outcome, none, run.denials⟩ none
    else run.failClosed (some outcome) outcome.rollback run.denials none

def reported (outcome : Outcome) (err : Option CandidateError) : Run :=
  match err with
  | none => run.finish ⟨some .completed, some outcome, none, run.denials⟩ none
  | some (.denied reason) =>
    run.failClosed (some outcome) outcome.rollback (run.denials ++ [⟨actionFileWrite, [], .broker reason⟩]) none
  | some _ => run.failClosed (some outcome) outcome.rollback run.denials none

end Run

def Shared.removeAll (sh : Shared) (run : Run) : Shared :=
  { sh with dirs := sh.dirs.filter fun d => run.candidate ≠ some d }

def Shared.mkdir (sh : Shared) (run : Run) (id : GoString) : Shared × Run :=
  let sh := { sh with drawn := sh.drawn ++ [id] }
  if id ∈ sh.dirs then
    (sh, run.failClosed none none [⟨lit "candidate.begin", run.spec.baseGitOID, .broker .policyDenied⟩] none)
  else ({ sh with dirs := insert id sh.dirs }, { run with candidate := some id, phase := .hydrating })

variable (cfg : StoreConfig)

/-- The section of `Apply` that looks for a record and leaves one if there is none. -/
def Shared.lookup (sh : Shared) (run : Run) : Shared × Run :=
  match sh.seen.lookup (replayKey run.request) with
  | some rec => (sh, run.goto (.replaying rec))
  | none =>
    ({ sh with seen := sh.seen.insert (replayKey run.request) ⟨run.requestDigest cfg, none, run.id⟩ },
      run.goto .waiting)

def Shared.record (sh : Shared) (run : Run) (outcome : Outcome) : Shared :=
  { sh with seen := sh.seen.insert (replayKey run.request) ⟨run.requestDigest cfg, some outcome, []⟩ }

/-- The next section of a call that waits for nothing but the lock. -/
def Shared.proceed (sh : Shared) (run : Run) : Option (Shared × Run) :=
  match run.phase with
  | .discarding reason setDigest denials err =>
    if sh.locked then none
    else
      let receipt := run.theCandidate.rollback reason setDigest 0 (-1)
      some (sh.removeAll run, run.removeAll.failClosed none (some receipt) denials err)
  | .applying => some (sh, run.enterApply cfg)
  | .rejecting =>
    if candidateInFlight sh.seen run.id then some (sh, run.rejectWith cfg .conflict) else some (sh, run.goto .removing)
  | .removing =>
    let outcome := run.theCandidate.invalidOutcome cfg run.staged
    some (sh.removeAll run, run.removeAll.failClosed (some outcome) outcome.rollback run.denials none)
  | .validated => some (sh.lookup cfg run)
  | .replaying rec =>
    if rec.unused run.id then some (sh.removeAll run, run.removeAll.replayed cfg rec)
      else some (sh, run.replayed cfg rec)
  | .waiting => if sh.locked then none else some ({ sh with locked := true }, run.goto (.mutating 0))
  | .failing executed err =>
    let outcome := run.theCandidate.failedOutcome cfg run.staged executed
    some ({ sh.removeAll run with locked := false }, run.removeAll.goto (.recording outcome (some err)))
  | .recording outcome err => some (sh.record cfg run outcome, run.reported outcome err)
  | _ => none

/-- The loop over the edits and what follows it, under the lock. -/
def Shared.mutate (sh : Shared) (run : Run) (i : ℕ) : Act → Option (Shared × Run)
  | .cancelled => if i < run.staged.length then some (sh, run.goto (.failing i .apply)) else none
  | .authorize denied =>
    run.staged[i]?.map fun e =>
      let run := run.note (.authorize (.mutate e) denied)
      (sh, run.goto (denied.elim (.authorized i) fun reason => .failing i (.denied reason)))
  | .checked facts =>
    if i < run.staged.length then none
    else match facts with
      | .error err => some (sh, run.goto (.failing i err))
      | .ok (digest, treeOID) =>
        some ({ sh with locked := false },
          run.goto (.recording (run.theCandidate.appliedOutcome cfg run.staged digest treeOID) none))
  | _ => none

/-- What an act does to the run and the store; nothing if the run cannot take it. -/
def Shared.advance (sh : Shared) (run : Run) (act : Act) : Option (Shared × Run) :=
  match run.phase, act with
  | .beginning, .beginFails base =>
    let code := if base then Reason.baseMismatch else .policyDenied
    some (sh, run.failClosed none none [⟨lit "candidate.begin", run.spec.baseGitOID, .broker code⟩] none)
  | .beginning, .mkdir random => some (sh.mkdir run (candidateID random))
  | .hydrating, .hydrated ok =>
    if ok then some (sh, run.goto .synthesizing)
    else
      let record := ⟨lit "candidate.begin", run.spec.baseGitOID, .broker .policyDenied⟩
      some (sh.removeAll run, run.removeAll.failClosed none none [record] none)
  | .synthesizing, .propose e denied => some (sh, run.propose cfg e denied)
  | .synthesizing, .readFile path denied =>
    some (sh, run.answered (.effect (run.effectRequest actionFileRead path)) actionFileRead path denied)
  | .synthesizing, .requestEffect action path denied =>
    some (sh, run.answered (.effect (run.effectRequest action path)) action path denied)
  | .synthesizing, .returned failure => some (sh, run.synthesized cfg failure)
  | .mutating i, act => sh.mutate cfg run i act
  | .authorized i, .applyOne failure =>
    run.staged[i]?.map fun e =>
      match failure with
      | none => (sh, (run.note (.applied e)).goto (.mutating (i + 1)))
      | some err => (sh, run.goto (.failing i err))
  | _, .proceed => sh.proceed cfg run
  | _, _ => none

/-- A call of `RunLeaf` up to the admission check. -/
def startRun (spec : LeafSpec) (denied : Option Reason) : Run :=
  let run : Run := ⟨spec, none, [], [], [], [], .beginning⟩
  if ¬ validateSpec spec then run.finish ⟨none, none, none, []⟩ (some .invalid)
  else
    let path := spec.ownedPaths.headD []
    let run := run.note (.authorize (.admission (run.effectRequest actionFileWrite path)) denied)
    match denied with
    | none => run
    | some reason => run.failClosed none none [⟨actionFileWrite, path, .broker reason⟩] none

structure System where
  shared : Shared
  runs : ℕ → Option Run

/-- A new store over a directory that may hold anything. -/
def System.initial (dirs : Finset GoString) : System := ⟨⟨dirs, ∅, false, []⟩, fun _ => none⟩

def System.step (s : System) (event : ℕ × Act) : System :=
  match s.runs event.1, event.2 with
  | none, .start spec denied => { s with runs := Function.update s.runs event.1 (some (startRun spec denied)) }
  | none, _ => s
  | some run, act =>
    match s.shared.advance cfg run act with
    | none => s
    | some (sh, run) => ⟨sh, Function.update s.runs event.1 (some run)⟩

def System.run (s : System) (events : List (ℕ × Act)) : System := events.foldl (System.step cfg) s

end CodeMemory.Broker
