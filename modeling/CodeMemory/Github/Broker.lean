import CodeMemory.Lib.Decimal
import CodeMemory.Lib.GoMap
import CodeMemory.Lib.Schedule

/-! The broker that publishes a change as a draft pull request. A `Publish` call
is cut where other calls and the provider come in between: at its sections under the
mutex and at its calls of the provider. What the provider answers to a look at a ref,
whether a creation is carried out and whether its answer arrives, and what the
authorization says are free. -/

namespace CodeMemory.Github

open Lib Lib.GoString

inductive OutboxState where
  | branchPending
  | branchInFlight
  | branchPublished
  | prPending
  | prInFlight
  | prCreated
  | terminalConflict
  | prAlreadyClosed
  deriving DecidableEq

/-- The digests are in hexadecimal. -/
structure PublicationTuple where
  tenantID : GoString
  installationID : GoString
  repositoryOwner : GoString
  repositoryName : GoString
  baseRef : GoString
  baseCommitOID : GoString
  headCommitOID : GoString
  changeSetDigest : GoString
  effectApprovalDigest : GoString
  policyDigest : GoString
  configDigest : GoString
  deriving DecidableEq

structure PRContent where
  title : GoString
  body : GoString
  deriving DecidableEq

/-- A request that passed its validation. The grant and the identity only decide the authorization. -/
structure PublishRequest where
  tuple : PublicationTuple
  content : PRContent
  idempotencyKey : GoString
  actionID : GoString
  deriving DecidableEq

structure Receipt where
  actionID : GoString
  headRef : GoString
  baseRef : GoString
  baseCommitOID : GoString
  headCommitOID : GoString
  repositoryFullName : GoString
  providerPRID : GoString
  publicationTupleDigest : GoString
  contentDigest : GoString
  effectApprovalDigest : GoString
  changeSetDigest : GoString
  deriving DecidableEq, Inhabited

/-- The SHA-256 of the canonical JSON texts. -/
structure Digests where
  tuple : PublicationTuple → GoString
  content : PRContent → GoString

def headRef (D : Digests) (tuple : PublicationTuple) : GoString :=
  lit "refs/heads/ouroboros/tracer-001/" ++ (D.tuple tuple).take 24

def normalizeRef (ref : GoString) : GoString := if hasPrefix ref (lit "refs/") then ref else lit "refs/heads/" ++ ref

def branchName (ref : GoString) : GoString := trimPrefix ref (lit "refs/heads/")

def repositoryFullName (tuple : PublicationTuple) : GoString :=
  tuple.repositoryOwner ++ lit "/" ++ tuple.repositoryName

inductive PullState where
  | opened
  | closed
  deriving DecidableEq

structure PullRequest where
  number : ℕ
  nodeID : GoString
  headRef : GoString
  baseRef : GoString
  draft : Bool
  state : PullState
  title : GoString
  body : GoString
  deriving DecidableEq

structure CreatePRInput where
  title : GoString
  body : GoString
  head : GoString
  base : GoString
  deriving DecidableEq

/-- The pull requests of the repository and how many of them were created for a broker. -/
structure Provider where
  pulls : List PullRequest
  created : ℕ

def PullRequest.joins (pr : PullRequest) (head base : GoString) : Bool := pr.headRef = head && pr.baseRef = base

variable (p : Provider)

def Provider.list (head base : GoString) : List PullRequest := p.pulls.filter (·.joins head base)

/-- A second pull request for the same head and base is rejected. -/
def Provider.create (input : CreatePRInput) (number : ℕ) (nodeID : GoString) (draft : Bool) :
    Option PullRequest × Provider :=
  if p.pulls.any (·.joins input.head input.base) then (none, p)
  else
    let pr := ⟨number, nodeID, input.head, input.base, draft, .opened, input.title, input.body⟩
    (some pr, ⟨p.pulls ++ [pr], p.created + 1⟩)

structure OutboxRow where
  state : OutboxState
  contentDigest : GoString
  headRef : GoString
  providerPRID : GoString
  receipt : Receipt
  requestFingerprint : GoString
  deriving DecidableEq

structure World where
  outbox : GoMap GoString OutboxRow
  provider : Provider

inductive Phase where
  /-- Before the authorization and the first section of `ensureBranch`. -/
  | branch
  | branchBase
  | branchHead
  | createRef
  | branchHeadAgain
  /-- Before the last section of `ensureBranch`. -/
  | published
  /-- Before the authorization and the first section of `ensureDraftPR`. -/
  | draft
  | draftBase
  | listing
  | creating
  | listingAgain
  /-- Before the section of `commitPRSuccess`. -/
  | commit (pr : PullRequest)
  /-- Before the section of `markConflict`, after which the call fails. -/
  | conflict
  /-- Before the section that notes a closed pull request, after which the call fails. -/
  | closed
  deriving DecidableEq

/-- How a creation ends: nothing happens, it happens and the answer is lost, or the answer arrives. -/
inductive Creation where
  | failed
  | lost (number : ℕ) (nodeID : GoString) (draft : Bool)
  | answered (number : ℕ) (nodeID : GoString) (draft : Bool)
  deriving DecidableEq

inductive Answer where
  | authorized (allowed : Bool)
  /-- `none` is an error, `some none` an absent ref. -/
  | ref (sha : Option (Option GoString))
  | madeRef (ok : Bool)
  | listed (ok : Bool)
  | created (c : Creation)
  /-- The mutex. -/
  | locked
  deriving DecidableEq

inductive Next where
  | goes (phase : Phase)
  | fails
  | returns (receipt : Receipt)
  deriving DecidableEq

section Call

variable (D : Digests)

def fingerprint (request : PublishRequest) : GoString :=
  request.idempotencyKey ++ [0] ++ D.content request.content

def enter (outbox : GoMap GoString OutboxRow) (request : PublishRequest) : Next × GoMap GoString OutboxRow :=
  match outbox.lookup (D.tuple request.tuple) with
  | some row =>
    if row.requestFingerprint ≠ fingerprint D request then (.fails, outbox)
    else match row.state with
      | .prCreated => (.returns row.receipt, outbox)
      | .terminalConflict | .prAlreadyClosed => (.fails, outbox)
      | _ => (.goes .branch, outbox)
  | none =>
    let row := ⟨.branchPending, D.content request.content, headRef D request.tuple, [], default, fingerprint D request⟩
    (.goes .branch, outbox.insert (D.tuple request.tuple) row)

/-- The stale-base check, before `phase`. -/
def checkBase (request : PublishRequest) (phase : Phase) : Option (Option GoString) → Next
  | none => .fails
  | some sha => if sha = some request.tuple.baseCommitOID then .goes phase else .goes .conflict

def checkHead (request : PublishRequest) (absent : Next) : Option (Option GoString) → Next
  | none => .fails
  | some none => absent
  | some (some sha) => if sha = request.tuple.headCommitOID then .goes .published else .goes .conflict

def createPRInput (request : PublishRequest) : CreatePRInput where
  title := request.content.title
  body := request.content.body
  head := branchName (headRef D request.tuple)
  base := branchName (normalizeRef request.tuple.baseRef)

/-- What a look at the pull requests before a creation leads to. -/
def reconcile (request : PublishRequest) (pulls : List PullRequest) : Phase :=
  let input := createPRInput D request
  match pulls.filter (·.joins input.head input.base) with
  | [] => .creating
  | [pr] =>
    if pr.state = .closed then .closed
    else if ¬ pr.draft then .conflict
    else if pr.title ≠ request.content.title ∨ pr.body ≠ request.content.body then .conflict
    else .commit pr
  | _ => .conflict

/-- The look after a creation that failed. -/
def recover (request : PublishRequest) (pulls : List PullRequest) : Next :=
  let input := createPRInput D request
  match pulls.find? fun pr => pr.joins input.head input.base && pr.state = .opened && pr.draft &&
      pr.title = request.content.title && pr.body = request.content.body with
  | some pr => .goes (.commit pr)
  | none => .fails

def prReceipt (request : PublishRequest) (pr : PullRequest) : Receipt where
  actionID := request.actionID
  headRef := headRef D request.tuple
  baseRef := normalizeRef request.tuple.baseRef
  baseCommitOID := request.tuple.baseCommitOID
  headCommitOID := request.tuple.headCommitOID
  repositoryFullName := repositoryFullName request.tuple
  providerPRID := if pr.nodeID = [] then Decimal.natText pr.number else pr.nodeID
  publicationTupleDigest := D.tuple request.tuple
  contentDigest := D.content request.content
  effectApprovalDigest := request.tuple.effectApprovalDigest
  changeSetDigest := request.tuple.changeSetDigest

def World.setRow (w : World) (request : PublishRequest) (row : OutboxRow) : World :=
  { w with outbox := w.outbox.insert (D.tuple request.tuple) row }

/-- A creation, and what the call makes of its answer. -/
def World.create (w : World) (request : PublishRequest) : Creation → Next × World
  | .failed => (.goes .listingAgain, w)
  | .lost number nodeID draft =>
    (.goes .listingAgain, { w with provider := (w.provider.create (createPRInput D request) number nodeID draft).2 })
  | .answered number nodeID draft =>
    let (pr, provider) := w.provider.create (createPRInput D request) number nodeID draft
    match pr with
    | none => (.goes .listingAgain, w)
    | some pr => (if pr.draft then .goes (.commit pr) else .goes .conflict, { w with provider := provider })

/-- The next step of a call, whose row is `row`, with an answer that fits. -/
def World.act (w : World) (request : PublishRequest) (row : OutboxRow) : Phase → Answer → Option (Next × World)
  | .branch, .authorized false => some (.fails, w)
  | .branch, .authorized true =>
    match row.state with
    | .branchPublished | .prPending | .prInFlight | .prCreated => some (.goes .draft, w)
    | _ => some (.goes .branchBase, w.setRow D request { row with state := .branchInFlight })
  | .branchBase, .ref sha => some (checkBase request .branchHead sha, w)
  | .branchHead, .ref sha => some (checkHead request (.goes .createRef) sha, w)
  | .createRef, .madeRef ok => some (.goes (if ok then .published else .branchHeadAgain), w)
  | .branchHeadAgain, .ref sha => some (checkHead request .fails sha, w)
  | .published, .locked => some (.goes .draft, w.setRow D request { row with state := .branchPublished })
  | .draft, .authorized false => some (.fails, w)
  | .draft, .authorized true =>
    match row.state with
    | .prCreated => some (.returns row.receipt, w)
    | _ => some (.goes .draftBase, w.setRow D request { row with state := .prInFlight })
  | .draftBase, .ref sha => some (checkBase request .listing sha, w)
  | .listing, .listed false | .listingAgain, .listed false => some (.fails, w)
  | .listing, .listed true =>
    let input := createPRInput D request
    some (.goes (reconcile D request (w.provider.list input.head input.base)), w)
  | .creating, .created c => some (w.create D request c)
  | .listingAgain, .listed true =>
    let input := createPRInput D request
    some (recover D request (w.provider.list input.head input.base), w)
  | .commit pr, .locked =>
    let receipt := prReceipt D request pr
    some (.returns receipt, w.setRow D request
      { row with state := .prCreated, providerPRID := receipt.providerPRID, receipt := receipt })
  | .conflict, .locked => some (.fails, w.setRow D request { row with state := .terminalConflict })
  | .closed, .locked => some (.fails, w.setRow D request { row with state := .prAlreadyClosed })
  | _, _ => none

end Call

structure Call where
  request : PublishRequest
  phase : Phase
  deriving DecidableEq

/-- The world, the calls under way, the receipts that calls of this lifetime returned, and the creations that earlier
lifetimes had sent and that may still arrive. -/
structure System where
  world : World
  calls : List Call
  returned : List Receipt
  orphans : List PublishRequest

inductive Event where
  | publish (request : PublishRequest)
  | act (i : ℕ) (answer : Answer)
  /-- Someone edits, closes or reopens a pull request. -/
  | edit (i : ℕ) (draft : Bool) (state : PullState) (title body : GoString)
  | restart
  | orphan (i : ℕ) (number : ℕ) (nodeID : GoString) (draft : Bool)
  deriving DecidableEq

def System.next (s : System) (i : ℕ) (call : Call) (w : World) : Next → System
  | .goes phase => { s with world := w, calls := s.calls.set i { call with phase := phase } }
  | .fails => { s with world := w, calls := s.calls.eraseIdx i }
  | .returns receipt =>
    { s with world := w, calls := s.calls.eraseIdx i, returned := s.returned ++ [receipt] }

variable (D : Digests)

def System.publish (s : System) (request : PublishRequest) : System :=
  match enter D s.world.outbox request with
  | (.goes phase, outbox) =>
    { s with world := { s.world with outbox := outbox }, calls := s.calls ++ [⟨request, phase⟩] }
  | (.fails, _) => s
  | (.returns receipt, _) => { s with returned := s.returned ++ [receipt] }

def System.act (s : System) (i : ℕ) (answer : Answer) : System :=
  match s.calls[i]? with
  | none => s
  | some call =>
    match s.world.outbox.lookup (D.tuple call.request.tuple) with
    | none => s
    | some row =>
      match s.world.act D call.request row call.phase answer with
      | none => s
      | some (next, w) => s.next i call w next

def Provider.edit (i : ℕ) (draft : Bool) (state : PullState) (title body : GoString) : Provider :=
  { p with pulls := p.pulls.modify i fun pr =>
    { pr with draft := draft, state := state, title := title, body := body } }

def System.step (s : System) : Event → System
  | .publish request => s.publish D request
  | .act i answer => s.act D i answer
  | .edit i draft state title body =>
    { s with world := { s.world with provider := s.world.provider.edit i draft state title body } }
  | .restart =>
    { s with
      world := { s.world with outbox := ∅ }
      calls := []
      returned := []
      orphans := s.orphans ++ (s.calls.filter (·.phase = .creating)).map (·.request) }
  | .orphan i number nodeID draft =>
    match s.orphans[i]? with
    | none => s
    | some request =>
      let provider := (s.world.provider.create (createPRInput D request) number nodeID draft).2
      { s with world := { s.world with provider := provider } }

def System.run (s : System) (es : List Event) : System := es.foldl (System.step D) s

/-- A new broker before a repository with some pull requests. -/
def System.start (pulls : List PullRequest) : System := ⟨⟨∅, ⟨pulls, 0⟩⟩, [], [], []⟩

end CodeMemory.Github
