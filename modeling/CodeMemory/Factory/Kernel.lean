import CodeMemory.Factory.Plan
import CodeMemory.Factory.Roster
import CodeMemory.Lib.Order
import CodeMemory.Lib.Utf8

/-! The commands of the factory kernel. The kernel's mutex and its transactions
make every command one step that commits as a whole or leaves the tables as they
were. What a command learns from outside (policy, Git base, vault, router, clock
and the session table) is an argument. -/

namespace CodeMemory.Factory

open Lib Lib.GoString

structure Staged where
  artifactID : GoString
  digest : GoString

/-- `put` is the vault's answer to this payload. -/
def Config.stagePayload (cfg : Config) (put : GoString → Option GoString) (payload : GoString) :
    Except Err Staged :=
  if payload = [] then .error .invalidInput
  else match put payload with
    | none => .error .failed
    | some artifactID =>
      if artifactID = [] then .error .payloadUnavailable else .ok ⟨artifactID, cfg.digestBytes payload⟩

/-- The fields of a `ChangeIntent` that admission reads. -/
structure Intent where
  intentID : GoString
  repositoryGitOID : GoString
  scopeDigest : GoString
  evidence : Nat
  requestedByPrincipal : GoString
  requestedByTenant : GoString
  receiptCompleted : Bool
  approvalExpiresAtMs : Option Int
  encoding : Option GoString

structure AdmitRequest where
  authenticated : Identity
  caller : Identity
  intent : Option Intent
  approvedScopePaths : List GoString
  leaves : List LeafSpec
  review : Bool
  idempotencyKey : GoString

structure RouteDecision where
  profileDigest : GoString
  modelIdentity : GoString
  rationaleCode : GoString

def digitByte (b : UInt8) : Bool := 0x30 ≤ b && b ≤ 0x39

def modelIdentityOk : GoString → Bool
  | [] => false
  | b :: t =>
    (lowerLetter b || digitByte b) && t.length ≤ 127 &&
      t.all (fun c => lowerLetter c || digitByte c || c ∈ lit "._:-")

/-- `rationaleCodePattern`, with the bound on the length. -/
def rationaleCodeOk : GoString → Bool
  | [] => false
  | b :: t => lowerLetter b && t.length ≤ 63 && t.all (fun c => lowerLetter c || digitByte c || c = 0x5F)

def RouteDecision.ok (d : RouteDecision) : Bool :=
  isHexDigest d.profileDigest && modelIdentityOk d.modelIdentity && rationaleCodeOk d.rationaleCode

/-- What admission learns from outside; the vault's answers are numbered in the order of the calls. -/
structure AdmitWorld where
  allowed : Bool
  approvalNow : Int
  cancelled : Bool
  base : Option GoString
  put : Nat → GoString → Option GoString
  planNow : Int
  route : GoString → Option RouteDecision
  planWellFormed : Bool
  sessionKnown : Bool
  issueNow : GoString → Int

structure AdmitResult where
  runID : GoString
  replayed : Bool

def revalidateIntent (request : AdmitRequest) (intent : Intent) (w : AdmitWorld) : Except Err Unit :=
  if intent.intentID = [] ∨ ¬ isGitOID intent.repositoryGitOID ∨ ¬ isHexDigest intent.scopeDigest ∨
      intent.evidence = 0 then .error .notFoundOrDenied
  else if intent.requestedByPrincipal ≠ request.authenticated.principal ∨
      intent.requestedByTenant ≠ request.authenticated.tenant then .error .notFoundOrDenied
  else if ¬ intent.receiptCompleted then .error .notFoundOrDenied
  else if intent.approvalExpiresAtMs.any (fun t => t ≤ w.approvalNow) then .error .notFoundOrDenied
  else if w.cancelled then .error .failed
  else .ok ()

def joinPaths (paths : List GoString) : GoString := [0x1F].intercalate paths

def Config.admissionRequestDigest (cfg : Config) (intentDigest : GoString) (request : AdmitRequest) : GoString :=
  cfg.identity (lit "ouroboros.stage05.admit-request.v1")
    (intentDigest :: request.leaves.flatMap (fun leaf => [leaf.nodeID, cfg.digestBytes leaf.goal,
      joinPaths leaf.ownedPaths, joinPaths leaf.forbiddenPaths, leaf.holderPrincipal]) ++
    if request.review then [lit "review"] else [])

def goalText (role runID intentID : GoString) : GoString :=
  lit "ouroboros.stage05.goal." ++ role ++ lit ".v1\nrun=" ++ runID ++ lit "\nintent=" ++ intentID ++ lit "\n"

/-- A path column: paths go through JSON, which replaces what is not UTF-8. -/
def storedPaths (paths : List GoString) : List GoString := paths.map toValid

def planNode (kind : NodeKind) (staged : Staged) (owned forbidden : List GoString) : Node :=
  ⟨kind, staged.artifactID, staged.digest, storedPaths owned, storedPaths forbidden, [], none⟩

namespace Config

variable (cfg : Config)

/-- The leaf rows, with the goals staged as payloads `i`, `i + 1`, … -/
def leafRows (w : AdmitWorld) : Nat → List LeafSpec → Except Err (List (GoString × Node))
  | _, [] => .ok []
  | i, leaf :: leaves => do
    let staged ← cfg.stagePayload (w.put i) leaf.goal
    let rows ← leafRows w (i + 1) leaves
    .ok ((leaf.nodeID, planNode .leaf staged leaf.ownedPaths leaf.forbiddenPaths) :: rows)

/-- `stageGoals` and the node rows of the compiled plan. -/
def nodeRows (request : AdmitRequest) (intent : Intent) (runID : GoString) (w : AdmitWorld) :
    Except Err (List (GoString × Node)) := do
  let orchestrator ← cfg.stagePayload (w.put 0) (goalText orchestratorNodeID runID intent.intentID)
  let leaves ← cfg.leafRows w 1 request.leaves
  let head := (orchestratorNodeID, planNode .orchestrator orchestrator [] [])
  if request.review then do
    let review ← cfg.stagePayload (w.put (request.leaves.length + 1)) (goalText reviewNodeID runID intent.intentID)
    .ok (head :: leaves ++ [(reviewNodeID, planNode .review review [] [])])
  else .ok (head :: leaves)

def routeLeaves (w : AdmitWorld) : List LeafSpec → Except Err Unit
  | [] => .ok ()
  | leaf :: leaves =>
    match w.route leaf.nodeID with
    | none => .error .failed
    | some d => if d.ok then routeLeaves w leaves else .error .invalidInput

def gateRows (runID : GoString) : List (GoString × Gate) :=
  GateKind.all.map (fun kind =>
    (cfg.identity (lit "ouroboros.stage05.gate.v1") [runID, gateKindText kind], ⟨kind, true, [.pending]⟩))

def holderOf (leaf : LeafSpec) : GoString :=
  if leaf.holderPrincipal = [] then leaf.nodeID ++ lit "-worker" else leaf.holderPrincipal

def issueLeases (key : RunKey) (w : AdmitWorld) :
    List LeafSpec → GoMap GoString Node → Except Err (GoMap GoString Node)
  | [], nodes => .ok nodes
  | leaf :: leaves, nodes => do
    let issued ← Roster.issue cfg key leaf.nodeID (holderOf leaf) (w.planNow + cfg.leaseTTLMillis)
      (w.issueNow leaf.nodeID) nodes
    issueLeases key w leaves issued.2

/-- Everything from the staging of the goals to the last insert of the admission transaction. -/
def openRun (request : AdmitRequest) (intent : Intent) (encoded : GoString) (w : AdmitWorld) :
    Except Err (GoString × Run) := do
  let who := request.authenticated
  let intentDigest := cfg.digestBytes encoded
  let runID := cfg.identity (lit "ouroboros.stage05.run.v1")
    [who.tenant, who.principal, intentDigest, request.idempotencyKey]
  let rows ← cfg.nodeRows request intent runID w
  let artifact ← cfg.stagePayload (w.put (request.leaves.length + 2)) encoded
  routeLeaves w request.leaves
  if ¬ w.planWellFormed then .error .planInvalid
  else if ¬ w.sessionKnown then .error .failed
  else do
    let nodes ← Ledger.insertAll Err.failed ∅ rows
    let gates ← Ledger.insertAll Err.failed ∅ (cfg.gateRows runID)
    let nodes ← cfg.issueLeases (who.run runID) w request.leaves nodes
    .ok (runID,
      { session := who.session, intentID := intent.intentID, intentDigest := intentDigest,
        intentArtifactID := artifact.artifactID, repositoryGitOID := intent.repositoryGitOID,
        planID := cfg.identity (lit "ouroboros.stage05.plan.v1") [runID],
        states := [.planning], nodes := nodes, gates := gates,
        candidate := none, candidateStates := [], rollback := none })

end Config

def DB.intentAdmitted (db : DB) (who : Identity) (intentID : GoString) : Bool :=
  decide (∃ key ∈ db.runs.keys, key.tenant = who.tenant ∧ key.principal = who.principal ∧
    (db.runs.lookup key).any (·.intentID = intentID) = true)

def Identity.idempotency (who : Identity) (operation : Operation) (key : GoString) : IdempotencyKey :=
  ⟨who.tenant, who.principal, operation, key⟩

variable (cfg : Config)

def Config.admitChangeIntent (db : DB) (request : AdmitRequest) (w : AdmitWorld) :
    Except Err (AdmitResult × DB) :=
  let who := request.authenticated
  match request.intent with
  | none => .error .invalidInput
  | some intent =>
    if ¬ (validIdentity who ∧ printableID request.idempotencyKey) then .error .invalidInput
    else if who ≠ request.caller then .error .notFoundOrDenied
    else if ¬ w.allowed then .error .notFoundOrDenied
    else do
      revalidateIntent request intent w
      cfg.validateLeafSpecs request.leaves request.approvedScopePaths
      match intent.encoding with
      | none => .error .failed
      | some encoded =>
        let requestDigest := cfg.admissionRequestDigest (cfg.digestBytes encoded) request
        let key := who.idempotency .admitIntent request.idempotencyKey
        match db.idempotency.lookup key with
        | some row =>
          if row.requestDigest ≠ requestDigest then .error .notFoundOrDenied else .ok (⟨row.runID, true⟩, db)
        | none =>
          if w.base ≠ some intent.repositoryGitOID then .error .notFoundOrDenied
          else if db.intentAdmitted who intent.intentID then .error .notFoundOrDenied
          else do
            let opened ← cfg.openRun request intent encoded w
            let runs ← Ledger.insertNew Err.failed db.runs (who.run opened.1) opened.2
            .ok (⟨opened.1, false⟩, ⟨runs, db.idempotency.insert key ⟨requestDigest, opened.1⟩⟩)

def Run.state (r : Run) : Option RunState := r.states.getLast?

def Run.candidateState (r : Run) : Option CandidateState := r.candidateStates.getLast?

def Gate.status (g : Gate) : Option GateStatus := g.states.getLast?

/-- The run a command names, scoped to the authenticated principal. -/
def DB.onRun {α : Type} (db : DB) (who : Identity) (runID : GoString) (f : Run → Except Err (α × Run)) :
    Except Err (α × DB) :=
  match db.runs.lookup (who.run runID) with
  | none => .error .notFoundOrDenied
  | some r => do
    let out ← f r
    .ok (out.1, { db with runs := db.runs.insert (who.run runID) out.2 })

def Run.currentState (r : Run) : Except Err RunState :=
  match r.state with
  | none => .error .notFoundOrDenied
  | some s => .ok s

def Run.appendRunState (r : Run) (s : RunState) : Except Err Run := do
  let states ← appendState terminalRunState r.states s
  .ok { r with states := states }

def Run.appendCandidateState (r : Run) (s : CandidateState) : Except Err Run := do
  let states ← appendState terminalCandidateState r.candidateStates s
  .ok { r with candidateStates := states }

def Run.transition (next : RunState) (r : Run) : Except Err (Unit × Run) := do
  let current ← r.currentState
  if next = .cancelled ∨ ¬ validRunTransition current next then .error .transitionInvalid
  else if next = .completed ∧ r.candidateState ≠ some .retained then .error .transitionInvalid
  else do
    let r ← r.appendRunState next
    .ok ((), r)

def transitionRun (db : DB) (who : Identity) (runID : GoString) (next : Option RunState) :
    Except Err (Unit × DB) :=
  match next with
  | none => .error .invalidInput
  | some next =>
    if ¬ validIdentity who ∨ runID = [] then .error .invalidInput else db.onRun who runID (Run.transition next)

structure CancelRequest where
  authenticated : Identity
  caller : Identity
  runID : GoString
  idempotencyKey : GoString

structure CancelResult where
  runID : GoString
  replayed : Bool

def Run.cancel (r : Run) : Except Err (Unit × Run) := do
  let current ← r.currentState
  if terminalRunState current then .error .notFoundOrDenied
  else do
    let r ← r.appendRunState .cancelled
    .ok ((), r)

def Config.cancelChangeRun (db : DB) (request : CancelRequest) (allowed : Bool) :
    Except Err (CancelResult × DB) :=
  let who := request.authenticated
  if ¬ (validIdentity who ∧ printableID request.idempotencyKey) ∨ request.runID = [] then .error .invalidInput
  else if who ≠ request.caller then .error .notFoundOrDenied
  else if ¬ allowed then .error .notFoundOrDenied
  else
    let requestDigest := cfg.identity (lit "ouroboros.stage05.cancel-request.v1") [request.runID]
    let key := who.idempotency .cancel request.idempotencyKey
    match db.idempotency.lookup key with
    | some row =>
      if row.requestDigest ≠ requestDigest then .error .notFoundOrDenied else .ok (⟨row.runID, true⟩, db)
    | none => do
      let out ← db.onRun who request.runID Run.cancel
      .ok (⟨request.runID, false⟩,
        { out.2 with idempotency := out.2.idempotency.insert key ⟨requestDigest, request.runID⟩ })

def Run.recordGate (gateID : GoString) (status : GateStatus) (r : Run) : Except Err (Unit × Run) := do
  let current ← r.currentState
  if terminalRunState current then .error .notFoundOrDenied
  else match r.gates.lookup gateID with
    | none => .error .notFoundOrDenied
    | some gate =>
      match gate.status with
      | none => .error .notFoundOrDenied
      | some current =>
        if terminalGateStatus current then
          if current = status then .ok ((), r) else .error .transitionInvalid
        else if status = .running ∧ current ≠ .pending then .error .transitionInvalid
        else do
          let states ← appendState terminalGateStatus gate.states status
          .ok ((), { r with gates := r.gates.insert gateID { gate with states := states } })

def recordGateResult (db : DB) (who : Identity) (runID gateID : GoString) (status : Option GateStatus) :
    Except Err (Unit × DB) :=
  match status with
  | none => .error .invalidInput
  | some status =>
    if ¬ validIdentity who ∨ runID = [] ∨ gateID = [] ∨ status = .pending then .error .invalidInput
    else db.onRun who runID (Run.recordGate gateID status)

def Run.leafScopes (r : Run) : List GoString :=
  r.nodes.sortedKeys.flatMap (fun id => match r.nodes.lookup id with
    | some node => if node.kind = .leaf then node.ownedPaths else []
    | none => [])

def Run.requirePreviewGatesMatchRoster (r : Run) : List PreviewGate → Except Err Unit
  | [] => .ok ()
  | g :: gates =>
    match r.gates.lookup g.id with
    | none => .error .notFoundOrDenied
    | some gate =>
      if gate.required ≠ g.required then .error .planInvalid else r.requirePreviewGatesMatchRoster gates

def Config.propose (preview : Preview) (put : GoString → Option GoString) (r : Run) :
    Except Err (Unit × Run) := do
  let current ← r.currentState
  if current ≠ .running ∧ current ≠ .review then .error .notFoundOrDenied
  else do
    cfg.validatePreview preview r.repositoryGitOID r.leafScopes
    r.requirePreviewGatesMatchRoster preview.gates
    match preview.encoding with
    | none => .error .failed
    | some encoded => do
      let staged ← cfg.stagePayload put encoded
      match r.candidate with
      | some existing => if existing.digest = staged.digest then .ok ((), r) else .error .notFoundOrDenied
      | none => do
        let r ← r.appendCandidateState .proposed
        .ok ((), { r with candidate := some ⟨preview.changeSetID, staged.artifactID, staged.digest⟩ })

def Config.proposeCandidate (db : DB) (who : Identity) (runID : GoString)
    (preview : Option Preview) (put : GoString → Option GoString) : Except Err (Unit × DB) :=
  match preview with
  | none => .error .invalidInput
  | some preview =>
    if ¬ validIdentity who ∨ runID = [] then .error .invalidInput
    else db.onRun who runID (cfg.propose preview put)

structure RollbackReceipt where
  reasonCode : GoString
  artifactDigest : GoString

def Run.requiredGates (r : Run) : Finset GoString :=
  r.gates.keys.filter (fun id => (r.gates.lookup id).any (·.required) = true)

def Run.requireRequiredGatesPassed (r : Run) : Except Err Unit :=
  if (∀ id ∈ r.requiredGates, (r.gates.lookup id).bind Gate.status = some .passed) ∧
      r.requiredGates.card = 4 then .ok ()
  else .error .transitionInvalid

def needsGates (s : CandidateState) : Bool := s = .verified || s = .reviewed || s = .retained

def Run.requireGatesFor (r : Run) (next : CandidateState) : Except Err Unit :=
  if needsGates next then r.requireRequiredGatesPassed else .ok ()

/-- The rollback receipt is inserted in the same transaction, once in the life of a run. -/
def Run.insertRollback (r : Run) (receiptID : GoString) : Option RollbackReceipt → Except Err Run
  | none => .ok r
  | some receipt =>
    if r.rollback.isSome then .error .failed
    else .ok { r with rollback := some ⟨receiptID, receipt.reasonCode, receipt.artifactDigest⟩ }

def Run.moveCandidate (next : CandidateState) (receiptID : GoString) (rollback : Option RollbackReceipt)
    (r : Run) : Except Err (Unit × Run) := do
  let current ← r.currentState
  if terminalRunState current then .error .notFoundOrDenied
  else match r.candidateState with
    | none => .error .transitionInvalid
    | some candidate =>
      if ¬ validCandidateTransition candidate next then .error .transitionInvalid
      else do
        r.requireGatesFor next
        let r ← r.insertRollback receiptID rollback
        let r ← r.appendCandidateState next
        .ok ((), r)

def Config.transitionCandidate (db : DB) (who : Identity) (runID : GoString)
    (next : Option CandidateState) (rollback : Option RollbackReceipt) : Except Err (Unit × DB) :=
  match next with
  | none => .error .invalidInput
  | some next =>
    if ¬ validIdentity who ∨ runID = [] ∨ next = .proposed then .error .invalidInput
    else if (next = .rejected) ≠ (rollback.isSome = true) then .error .invalidInput
    else if rollback.any (fun receipt => !isHexDigest receipt.artifactDigest || receipt.reasonCode = []) then
      .error .invalidInput
    else db.onRun who runID (Run.moveCandidate next
      (cfg.identity (lit "ouroboros.stage05.rollback-receipt.v1") [who.tenant, who.principal, runID]) rollback)

/-- What the commit of a leaf result learns from outside: the vault's answer and three clock readings. -/
structure CommitWorld where
  put : GoString → Option GoString
  authorizedNow : Int
  commitNow : Int
  committedAt : Int

def Config.commitLeaf (key : RunKey) (nodeID : GoString) (fence : Nat) (result : GoString)
    (w : CommitWorld) (r : Run) : Except Err (Commit × Run) := do
  let current ← r.currentState
  if current ≠ .running then .error .notFoundOrDenied
  else do
    let _ ← Roster.authorize key nodeID fence w.authorizedNow r.nodes
    match Roster.lookupResult nodeID r.nodes with
    | some existing =>
      if existing.fence = fence ∧ existing.digest = cfg.digestBytes result then .ok (⟨existing, true⟩, r)
      else .error .resultConflict
    | none => do
      let staged ← cfg.stagePayload w.put result
      let out ← Roster.commitResult key nodeID fence staged.artifactID staged.digest w.commitNow w.committedAt r.nodes
      .ok (out.1, { r with nodes := out.2 })

def Config.commitLeafResult (db : DB) (who : Identity) (runID nodeID : GoString) (fence : Nat)
    (result : GoString) (w : CommitWorld) : Except Err (Commit × DB) :=
  if ¬ validIdentity who ∨ runID = [] ∨ nodeID = [] ∨ fence = 0 ∨ result = [] then .error .invalidInput
  else db.onRun who runID (cfg.commitLeaf (who.run runID) nodeID fence result w)

def Config.issueLease (db : DB) (key : RunKey) (nodeID holder : GoString) (expiresAtMs now : Int) :
    Except Err (Lease × DB) :=
  match db.runs.lookup key with
  | none => .error .failed
  | some r => do
    let out ← Roster.issue cfg key nodeID holder expiresAtMs now r.nodes
    .ok (out.1, { db with runs := db.runs.insert key { r with nodes := out.2 } })

inductive Command where
  | admitIntent (request : AdmitRequest) (world : AdmitWorld)
  | transitionRun (who : Identity) (runID : GoString) (next : Option RunState)
  | cancel (request : CancelRequest) (allowed : Bool)
  | recordGate (who : Identity) (runID gateID : GoString) (status : Option GateStatus)
  | propose (who : Identity) (runID : GoString) (preview : Option Preview) (put : GoString → Option GoString)
  | transitionCandidate (who : Identity) (runID : GoString) (next : Option CandidateState)
      (rollback : Option RollbackReceipt)
  | issue (key : RunKey) (nodeID holder : GoString) (expiresAtMs now : Int)
  | commitLeaf (who : Identity) (runID nodeID : GoString) (fence : Nat) (result : GoString) (world : CommitWorld)

def Config.execute (db : DB) : Command → Except Err DB
  | .admitIntent request w => (·.2) <$> cfg.admitChangeIntent db request w
  | .transitionRun who runID next => (·.2) <$> Factory.transitionRun db who runID next
  | .cancel request allowed => (·.2) <$> cfg.cancelChangeRun db request allowed
  | .recordGate who runID gateID status => (·.2) <$> recordGateResult db who runID gateID status
  | .propose who runID preview put => (·.2) <$> cfg.proposeCandidate db who runID preview put
  | .transitionCandidate who runID next rollback => (·.2) <$> cfg.transitionCandidate db who runID next rollback
  | .issue key nodeID holder expiresAtMs now => (·.2) <$> cfg.issueLease db key nodeID holder expiresAtMs now
  | .commitLeaf who runID nodeID fence result w => (·.2) <$> cfg.commitLeafResult db who runID nodeID fence result w

/-- A refused command rolls its transaction back. -/
def Config.step (db : DB) (c : Command) : DB :=
  match cfg.execute db c with
  | .ok db' => db'
  | .error _ => db

def Config.run (history : List Command) : DB := history.foldl cfg.step DB.empty

/-- Identities that keep only their last field, and one digest for all payloads. -/
def exampleConfig : Config where
  identity := fun _ fields => fields.getLastD []
  digestBytes := fun _ => List.replicate 64 0x61
  isHexDigest_digestBytes := fun _ => by decide +kernel
  toLower := id
  leaseTTLMillis := 1000

/-- The same with ASCII lower case. -/
def foldingConfig : Config := { exampleConfig with toLower := mapRunes asciiLower }

theorem foldingConfig_lowers : foldingConfig.LowersRunes asciiLower := ⟨rfl, rfl⟩

def exampleIdentity : Identity := ⟨lit "t", lit "p", lit "s"⟩

def exampleBase : GoString := List.replicate 40 0x30

def exampleRequest : AdmitRequest where
  authenticated := exampleIdentity
  caller := exampleIdentity
  intent := some ⟨lit "intent", exampleBase, List.replicate 64 0x61, 1, lit "p", lit "t", true, none, some (lit "i")⟩
  approvedScopePaths := [lit "src"]
  leaves := [⟨lit "leaf", lit "goal", [lit "src/a.go"], [], []⟩]
  review := false
  idempotencyKey := lit "run"

def exampleWorld : AdmitWorld where
  allowed := true
  approvalNow := 0
  cancelled := false
  base := some exampleBase
  put := fun _ _ => some (lit "artifact")
  planNow := 0
  route := fun _ => some ⟨List.replicate 64 0x61, lit "model", lit "static"⟩
  planWellFormed := true
  sessionKnown := true
  issueNow := fun _ => 0

def exampleOpening : List Command :=
  [.admitIntent exampleRequest exampleWorld, .transitionRun exampleIdentity (lit "run") (some .ready),
    .transitionRun exampleIdentity (lit "run") (some .running)]

end CodeMemory.Factory
