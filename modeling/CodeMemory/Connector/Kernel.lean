import CodeMemory.Lib.Order
import CodeMemory.Lib.Routine

/-! The connector kernel after a source was connected: `ReconcileConnector`,
`RevokeConnector`, `PurgeConnector` and `QueryConnectorEvidence`. All but the query hold
the mutex to their end. On an opaque scope the query releases it for a read of the grant
and again for the probes of the provider, whose answers are free. -/

namespace CodeMemory.Connector

open Lib Lib.GoString

inductive Err where
  | invalidInput
  | notFoundOrDenied
  | idempotencyConflict
  | source
  deriving DecidableEq

inductive ObjectKind where
  | repository
  | issue
  | file
  deriving DecidableEq

structure Object where
  id : GoString
  kind : ObjectKind
  title : GoString
  body : GoString
  path : GoString
  issueNumber : Int
  startLine : Int
  endLine : Int
  version : GoString
  deleted : Bool
  deriving DecidableEq

/-- A time that is not set is `none`. -/
structure SnapshotPage where
  cursor : GoString
  revision : GoString
  connectorDigest : GoString
  observedAt : Option Int
  objects : List Object
  complete : Bool
  errorCode : GoString

inductive ConnectionState where
  | ready
  | degraded
  | revoked
  | purged
  deriving DecidableEq

structure Connection where
  id : GoString
  tenant : GoString
  principal : GoString
  owner : GoString
  repo : GoString
  sourceScope : GoString
  state : ConnectionState
  cursor : GoString
  sourceRevision : GoString
  connectorDigest : GoString
  observedAt : Option Int
  aclEpoch : UInt64
  lastError : GoString
  objects : GoMap GoString Object

structure IdempotencyRow where
  requestDigest : GoString
  connectionID : GoString
  deriving DecidableEq

structure Kernel where
  conns : GoMap GoString Connection
  idem : GoMap GoString IdempotencyRow

structure Identity where
  tenant : GoString
  principal : GoString
  session : GoString
  deriving DecidableEq

/-- `opaqueScope` is that of the delegated gate; without a gate no scope is opaque. -/
structure Config where
  sha256Hex : GoString → GoString
  toLower : GoString → GoString
  opaqueScope : GoString → Bool

structure ReconcileCommand where
  identity : Identity
  connectionID : Option GoString
  knownCursor : GoString
  idempotencyKey : GoString
  reason : GoString
  deriving DecidableEq

structure LifecycleCommand where
  identity : Identity
  connectionID : GoString
  idempotencyKey : GoString
  deriving DecidableEq

structure QueryCommand where
  identity : Identity
  connectionID : Option GoString
  query : GoString
  idempotencyKey : GoString
  deriving DecidableEq

/-- The provider behind `gateDelegatedQuery`: what it lets through of the objects it is given, its reasons for a
served answer, and the reason if the query must fail. -/
structure Gate where
  selects : List Object → List Object
  reasons : List Object → List GoString
  abstain : List Object → Option GoString
  selects_subperm : ∀ objects, (selects objects).Subperm objects

inductive Request where
  | reconcile (command : ReconcileCommand)
  | revoke (command : LifecycleCommand)
  | purge (command : LifecycleCommand)
  | query (command : QueryCommand) (gate : Gate)

/-- What comes from outside: a page of the source, the order in which a map is iterated and the outcome of the
preauthorization. -/
structure Answers where
  page : Option SnapshotPage
  order : List GoString
  preauthOutcome : Option GoString

def contains (s sub : GoString) : Bool := decide (sub <:+: s)

def runeStart (b : UInt8) : Bool := !cont b

/-- `textbound.Bytes`. -/
def truncate (s : GoString) (limit : ℕ) : GoString :=
  if limit = 0 then []
  else if s.length ≤ limit then s
  else
    match (List.range 4).find? fun back => (s[limit - back]?).any runeStart with
    | some back => s.take (limit - back)
    | none => s.take limit

def validIdentity (identity : Identity) : Bool :=
  identity.tenant ≠ [] && identity.principal ≠ [] && identity.session ≠ []

def validBoundedID (value : GoString) : Bool := 0 < value.length && value.length ≤ 128

def validDelegatedCursor (value : GoString) : Bool :=
  trimSpace value ≠ [] && trimSpace value = value && value.length ≤ 512 && !contains value [0]

def validDelegatedField (value : GoString) : Bool :=
  trimSpace value ≠ [] && trimSpace value = value && value.length ≤ 128 && !contains value (lit "*") &&
    !contains value [0]

def isLowerHexSHA256 (value : GoString) : Bool :=
  value.length = 64 && (runes value).all fun c => (0x30 ≤ c && c ≤ 0x39) || (0x61 ≤ c && c ≤ 0x66)

def validDelegatedSourcePage (page : SnapshotPage) : Bool :=
  page.complete && validDelegatedCursor page.cursor && validDelegatedField page.revision &&
    isLowerHexSHA256 page.connectorDigest && page.observedAt.isSome

def idempotencyKey (identity : Identity) (op key : GoString) : GoString :=
  identity.tenant ++ lit "|" ++ identity.principal ++ lit "|" ++ op ++ lit "|" ++ key

def Kernel.lookupActive (k : Kernel) (identity : Identity) (connectionID : GoString) : Option Connection :=
  match k.conns.lookup connectionID with
  | none => none
  | some conn =>
    if conn.tenant ≠ identity.tenant ∨ conn.principal ≠ identity.principal then none
    else if conn.state = .revoked ∨ conn.state = .purged then none
    else some conn

/-- What is left of a page's objects, how many were admitted and how many deleted. -/
structure Admitted where
  objects : GoMap GoString Object
  admitted : UInt32
  deleted : UInt32

def Admitted.object (a : Admitted) (obj : Object) : Admitted :=
  if obj.deleted then
    if (a.objects.lookup obj.id).isSome then
      { a with objects := a.objects.erase obj.id, deleted := a.deleted + 1 }
    else a
  else { a with objects := a.objects.insert obj.id obj, admitted := a.admitted + 1 }

structure Reconciled where
  connectionID : GoString
  state : ConnectionState
  priorCursor : GoString
  nextCursor : GoString
  admittedObjectCount : UInt32
  deletedObjectCount : UInt32
  pageComplete : Bool

inductive AnswerStatus where
  | answered
  | partially
  | abstained
  deriving DecidableEq

structure Anchor where
  issue : Bool
  owner : GoString
  repo : GoString
  path : GoString
  issueNumber : UInt32
  startLine : UInt32
  endLine : UInt32
  supportingTextDigest : GoString
  evidenceID : GoString
  sourceRevisionID : GoString
  deriving DecidableEq

structure Claim where
  claimID : GoString
  statement : GoString
  citation : Anchor
  deriving DecidableEq

structure Answer where
  status : AnswerStatus
  prose : GoString
  claim : Option Claim
  degradedReasons : List GoString
  deriving DecidableEq

structure QuerySuccess where
  answer : Answer
  connectionID : GoString
  state : ConnectionState
  deriving DecidableEq

/-- What an opaque scope's answer rests on: `support` are the objects handed to `buildAnswer`, `submitted` those handed
to the gate. -/
structure Basis where
  query : GoString
  aclEpoch : UInt64
  submitted : List Object
  support : List Object

inductive Result where
  | error (e : Err)
  | reconciled (success : Reconciled)
  | revoked (connectionID : GoString)
  | purged (connectionID : GoString) (count : UInt32)
  | evidence (success : QuerySuccess)
  | delegated (success : QuerySuccess) (basis : Basis)

section Lifecycle

variable (cfg : Config)

def reconcileDigest (command : ReconcileCommand) : GoString :=
  cfg.sha256Hex (command.connectionID.getD [] ++ [0] ++ command.knownCursor ++ [0] ++ command.reason ++ [0] ++
    command.idempotencyKey)

/-- A complete page of an opaque scope that does not say how fresh it is counts as incomplete. -/
def freshPage (sourceScope : GoString) (page : SnapshotPage) : SnapshotPage :=
  if page.complete && cfg.opaqueScope sourceScope && !validDelegatedSourcePage page then
    { page with complete := false, errorCode := lit "source_freshness_unavailable" }
  else page

def Connection.admitPage (conn : Connection) (page : SnapshotPage) : Admitted × Connection :=
  if page.complete then
    let a := page.objects.foldl Admitted.object ⟨conn.objects, 0, 0⟩
    (a, { conn with
      state := .ready
      lastError := []
      objects := a.objects
      cursor := page.cursor
      sourceRevision := page.revision
      connectorDigest := page.connectorDigest
      observedAt := page.observedAt })
  else (⟨conn.objects, 0, 0⟩, { conn with state := .degraded, lastError := page.errorCode })

def reconcileConnector (command : ReconcileCommand) (delta : Option SnapshotPage) (k : Kernel) : Result × Kernel :=
  let digest := reconcileDigest cfg command
  let idemKey := idempotencyKey command.identity (lit "reconcile") command.idempotencyKey
  match k.idem.lookup idemKey with
  | some row =>
    if row.requestDigest ≠ digest then (.error .idempotencyConflict, k)
    else match k.lookupActive command.identity row.connectionID with
      | none => (.error .notFoundOrDenied, k)
      | some conn =>
        (.reconciled ⟨conn.id, conn.state, command.knownCursor, conn.cursor, 0, 0, true⟩, k)
  | none =>
    let connectionID := command.connectionID.getD []
    match k.lookupActive command.identity connectionID with
    | none => (.error .notFoundOrDenied, k)
    | some conn =>
      if conn.cursor ≠ command.knownCursor then (.error .notFoundOrDenied, k)
      else match delta with
        | none => (.error .source, k)
        | some page =>
          let page := freshPage cfg conn.sourceScope page
          let (a, next) := conn.admitPage page
          (.reconciled ⟨next.id, next.state, conn.cursor, next.cursor, a.admitted, a.deleted, page.complete⟩,
            { conns := k.conns.insert connectionID next, idem := k.idem.insert idemKey ⟨digest, conn.id⟩ })

/-- `RevokeConnector` and `PurgeConnector` differ in the digest, in the states that answer a retry, and in what they
make of the connection. -/
def endConnector (op digest : GoString) (settled : ConnectionState → Bool) (ends : Connection → Connection)
    (success : GoString → ℕ → Result) (command : LifecycleCommand) (k : Kernel) : Result × Kernel :=
  let idemKey := idempotencyKey command.identity op command.idempotencyKey
  match k.idem.lookup idemKey with
  | some row =>
    if row.requestDigest ≠ digest then (.error .idempotencyConflict, k)
    else match k.conns.lookup row.connectionID with
      | none => (.error .notFoundOrDenied, k)
      | some conn =>
        if conn.tenant ≠ command.identity.tenant ∨ conn.principal ≠ command.identity.principal then
          (.error .notFoundOrDenied, k)
        else if settled conn.state then (success conn.id 0, k)
        else (.error .notFoundOrDenied, k)
  | none =>
    match k.conns.lookup command.connectionID with
    | none => (.error .notFoundOrDenied, k)
    | some conn =>
      if conn.tenant ≠ command.identity.tenant ∨ conn.principal ≠ command.identity.principal then
        (.error .notFoundOrDenied, k)
      else if conn.state = .purged then (.error .notFoundOrDenied, k)
      else
        (success conn.id conn.objects.keys.card,
          { conns := k.conns.insert command.connectionID (ends conn)
            idem := k.idem.insert idemKey ⟨digest, conn.id⟩ })

def revokeConnector (command : LifecycleCommand) : Kernel → Result × Kernel :=
  endConnector (lit "revoke") (cfg.sha256Hex (command.connectionID ++ [0] ++ command.idempotencyKey))
    (fun state => state = .revoked || state = .purged)
    (fun conn => { conn with state := .revoked, aclEpoch := conn.aclEpoch + 1 }) (fun id _ => .revoked id) command

def purgeConnector (command : LifecycleCommand) : Kernel → Result × Kernel :=
  endConnector (lit "purge")
    (cfg.sha256Hex (command.connectionID ++ [0] ++ lit "purge" ++ [0] ++ command.idempotencyKey))
    (fun state => state = .purged)
    (fun conn => { conn with objects := ∅, state := .purged, aclEpoch := conn.aclEpoch + 1 })
    (fun id count => .purged id (.ofNat count)) command

end Lifecycle

section Query

variable (cfg : Config)

def objectMatchesQuery (obj : Object) (query : GoString) : Bool :=
  !obj.deleted && contains (cfg.toLower (obj.title ++ lit " " ++ obj.body ++ lit " " ++ obj.path)) query

def matchingObjects (order : List GoString) (conn : Connection) (query : GoString) : List Object :=
  ((GoMap.iterated order conn.objects).filterMap conn.objects.lookup).filter fun obj => objectMatchesQuery cfg obj query

def buildAnswer (conn : Connection) (support : List Object) (query : GoString) : Answer :=
  match support with
  | [] => ⟨.abstained, [], none, [lit "absent_support"]⟩
  | obj :: _ =>
    let anchor : Anchor :=
      { issue := obj.kind = .issue
        owner := conn.owner
        repo := conn.repo
        path := obj.path
        issueNumber := .ofInt obj.issueNumber
        startLine := .ofInt obj.startLine
        endLine := .ofInt obj.endLine
        supportingTextDigest := cfg.sha256Hex obj.body
        evidenceID := cfg.sha256Hex (conn.id ++ lit ":" ++ obj.id)
        sourceRevisionID := cfg.sha256Hex (obj.version ++ lit ":" ++ obj.id) }
    let claim : Claim :=
      ⟨cfg.sha256Hex (obj.id ++ lit ":" ++ query),
        truncate (lit "Evidence matches query in " ++ obj.title) 4096, anchor⟩
    let prose := truncate (lit "Found " ++ obj.title ++ lit ": " ++ obj.body) 8192
    if conn.state = .degraded then ⟨.partially, prose, some claim, [lit "partial_coverage"]⟩
    else ⟨.answered, prose, some claim, []⟩

def querySuccess (conn : Connection) (answer : Answer) : QuerySuccess := ⟨answer, conn.id, conn.state⟩

def delegatedAbstain (conn : Connection) (reason : GoString) : Result :=
  .evidence (querySuccess conn ⟨.abstained, [], none, [reason]⟩)

structure Captured where
  connectionID : GoString
  aclEpoch : UInt64

/-- The first section: it answers for a scope that is not opaque. -/
def capture (command : QueryCommand) (query : GoString) (answers : Answers) (k : Kernel) : Result ⊕ Captured :=
  match k.lookupActive command.identity (command.connectionID.getD []) with
  | none => .inl (.error .notFoundOrDenied)
  | some conn =>
    if cfg.opaqueScope conn.sourceScope then .inr ⟨conn.id, conn.aclEpoch⟩
    else .inl
      (.evidence (querySuccess conn (buildAnswer cfg conn (matchingObjects cfg answers.order conn query) query)))

def enumerate (command : QueryCommand) (query : GoString) (c : Captured) (answers : Answers) (k : Kernel) :
    Result ⊕ List Object :=
  match k.lookupActive command.identity c.connectionID with
  | none => .inl (.error .notFoundOrDenied)
  | some conn =>
    if conn.aclEpoch ≠ c.aclEpoch then .inl (.error .notFoundOrDenied)
    else match answers.preauthOutcome with
      | some outcome => .inl (delegatedAbstain conn (lit "delegated_" ++ outcome))
      | none => .inr (matchingObjects cfg answers.order conn query)

/-- Of the objects that the gate selected, those that the connection still has as they were. -/
def stillLive (conn : Connection) (query : GoString) (gated : List Object) : List Object :=
  gated.filter fun obj => conn.objects.lookup obj.id = some obj && objectMatchesQuery cfg obj query

/-- Whether the connection has another version of an object that the gate selected. -/
def objectChanged (conn : Connection) (query : GoString) (gated : List Object) : Bool :=
  gated.any fun obj =>
    match conn.objects.lookup obj.id with
    | none => false
    | some live => decide (live ≠ obj) || !objectMatchesQuery cfg live query

/-- The reasons of the gate make an answer partial. -/
def Answer.degrade (answer : Answer) (reasons : List GoString) : Answer :=
  if reasons = [] then answer
  else
    { answer with
      status := if answer.status = .answered then .partially else answer.status
      degradedReasons := answer.degradedReasons ++ reasons }

def release (command : QueryCommand) (gate : Gate) (query : GoString) (c : Captured) (submitted : List Object)
    (k : Kernel) : Result :=
  match k.lookupActive command.identity c.connectionID with
  | none => .error .notFoundOrDenied
  | some conn =>
    if conn.aclEpoch ≠ c.aclEpoch then .error .notFoundOrDenied
    else match gate.abstain submitted with
      | some reason => delegatedAbstain conn reason
      | none =>
        let gated := gate.selects submitted
        let current := stillLive cfg conn query gated
        let changed := objectChanged cfg conn query gated
        let reasons :=
          if changed then gate.reasons submitted ++ [lit "delegated_object_changed"] else gate.reasons submitted
        if current = [] ∧ changed then delegatedAbstain conn (lit "delegated_object_changed")
        else
          let answer := (buildAnswer cfg conn current query).degrade reasons
          .delegated (querySuccess conn answer) ⟨query, c.aclEpoch, submitted, current⟩

def queryConnectorEvidence (command : QueryCommand) (gate : Gate) : Routine Answers Kernel Result :=
  if validIdentity command.identity && command.connectionID.isSome && command.query ≠ [] &&
      command.idempotencyKey ≠ [] then do
    let query := cfg.toLower (trimSpace command.query)
    match ← Routine.asks (capture cfg command query) with
    | .inl result => pure result
    | .inr captured =>
      match ← Routine.asks (enumerate cfg command query captured) with
      | .inl result => pure result
      | .inr submitted => Routine.asks fun _ k => release cfg command gate query captured submitted k
  else pure (.error .invalidInput)

end Query

def routine (cfg : Config) : Request → Routine Answers Kernel Result
  | .reconcile command =>
    if validIdentity command.identity && command.connectionID.isSome && command.knownCursor ≠ [] &&
        command.idempotencyKey ≠ [] && command.reason ≠ [] then
      .atomic fun answers k => reconcileConnector cfg command answers.page k
    else pure (.error .invalidInput)
  | .revoke command =>
    if validIdentity command.identity && validBoundedID command.connectionID && command.idempotencyKey ≠ [] then
      .atomic fun _ k => revokeConnector cfg command k
    else pure (.error .invalidInput)
  | .purge command =>
    if validIdentity command.identity && validBoundedID command.connectionID && command.idempotencyKey ≠ [] then
      .atomic fun _ k => purgeConnector cfg command k
    else pure (.error .invalidInput)
  | .query command gate => queryConnectorEvidence cfg command gate

end CodeMemory.Connector
