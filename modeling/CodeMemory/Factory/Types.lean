import CodeMemory.Lib.GoString
import CodeMemory.Lib.Ledger

/-! The vocabulary of the factory kernel and the rows it stores. The tables are
insert-only and keyed below the run they belong to, so a run is one record that
holds its rows; a table of states is the list of states in the order of their
dense sequence numbers. A request that names a state outside the vocabulary is
`none` where it is read. -/

namespace CodeMemory.Factory

open Lib Lib.GoString

inductive RunState where
  | planning
  | ready
  | running
  | review
  | candidateReady
  | completed
  | failed
  | cancelled
  deriving DecidableEq

inductive GateKind where
  | build
  | test
  | docs
  | security
  deriving DecidableEq

inductive GateStatus where
  | pending
  | running
  | passed
  | failed
  deriving DecidableEq

inductive CandidateState where
  | proposed
  | applied
  | verified
  | reviewed
  | retained
  | rejected
  deriving DecidableEq

def terminalRunState (s : RunState) : Bool := s = .completed || s = .failed || s = .cancelled

def validRunTransition (source target : RunState) : Bool :=
  if terminalRunState source then false
  else match target with
    | .ready => source = .planning
    | .running => source = .ready
    | .review => source = .running
    | .candidateReady => source = .review
    | .completed => source = .candidateReady
    | .failed => source ≠ .completed
    | .cancelled => true
    | .planning => false

def terminalGateStatus (s : GateStatus) : Bool := s = .passed || s = .failed

def terminalCandidateState (s : CandidateState) : Bool := s = .retained || s = .rejected

def validCandidateTransition (source target : CandidateState) : Bool :=
  if terminalCandidateState source then false
  else match target with
    | .applied => source = .proposed
    | .verified => source = .applied
    | .reviewed => source = .verified
    | .retained => source = .reviewed
    | .rejected => true
    | .proposed => false

def GateKind.all : List GateKind := [.build, .test, .docs, .security]

def gateKindText : GateKind → GoString
  | .build => lit "BUILD"
  | .test => lit "TEST"
  | .docs => lit "DOCS"
  | .security => lit "SECURITY"

/-- `failed` stands for every wrapped error of the database, the vault, the router or an encoder. -/
inductive Err where
  | invalidInput
  | notFoundOrDenied
  | planInvalid
  | scopeEscape
  | transitionInvalid
  | payloadUnavailable
  | staleFence
  | resultConflict
  | failed
  deriving DecidableEq

structure Identity where
  tenant : GoString
  principal : GoString
  session : GoString
  deriving DecidableEq

def boundedID (s : GoString) : Bool := s ≠ [] && s.length ≤ 512

def validIdentity (who : Identity) : Bool :=
  boundedID who.tenant && boundedID who.principal && boundedID who.session

/-- The check shared by `validIdempotencyKey`, `validPrincipalID` and the roster's `validID`. -/
def printableID (s : GoString) : Bool :=
  boundedID s && (runes s).all (fun r => 0x20 ≤ r && r != 0x7F)

def lowerHex (s : GoString) : Bool := (runes s).all (fun r => (0x30 ≤ r && r ≤ 0x39) || (0x61 ≤ r && r ≤ 0x66))

def isHexDigest (s : GoString) : Bool := s.length = 64 && lowerHex s

def isGitOID (s : GoString) : Bool := (s.length = 40 || s.length = 64) && lowerHex s

/-- What the kernel is composed with: SHA-256 over length-prefixed fields and over bytes, Unicode
lower case, and its configuration. -/
structure Config where
  identity : GoString → List GoString → GoString
  digestBytes : GoString → GoString
  isHexDigest_digestBytes : ∀ b, isHexDigest (digestBytes b) = true
  toLower : GoString → GoString
  leaseTTLMillis : Int

structure RunKey where
  tenant : GoString
  principal : GoString
  runID : GoString
  deriving DecidableEq

def Identity.run (who : Identity) (runID : GoString) : RunKey := ⟨who.tenant, who.principal, runID⟩

structure Lease where
  fence : Nat
  leaseID : GoString
  holder : GoString
  issuedAtMs : Int
  expiresAtMs : Int
  deriving DecidableEq

structure LeafResult where
  fence : Nat
  artifactID : GoString
  digest : GoString
  committedAtMs : Int
  deriving DecidableEq

inductive NodeKind where
  | orchestrator
  | leaf
  | review
  deriving DecidableEq

/-- A plan node with the leases issued for it, oldest first, and its result. -/
structure Node where
  kind : NodeKind
  goalArtifactID : GoString
  goalDigest : GoString
  ownedPaths : List GoString
  forbiddenPaths : List GoString
  leases : List Lease
  result : Option LeafResult

structure Gate where
  kind : GateKind
  required : Bool
  states : List GateStatus

structure Candidate where
  changeSetID : GoString
  artifactID : GoString
  digest : GoString
  deriving DecidableEq

structure Rollback where
  receiptID : GoString
  reasonCode : GoString
  artifactDigest : GoString
  deriving DecidableEq

/-- A run with its plan nodes and gates under their identifiers. -/
structure Run where
  session : GoString
  intentID : GoString
  intentDigest : GoString
  intentArtifactID : GoString
  repositoryGitOID : GoString
  planID : GoString
  states : List RunState
  nodes : GoMap GoString Node
  gates : GoMap GoString Gate
  candidate : Option Candidate
  candidateStates : List CandidateState
  rollback : Option Rollback

inductive Operation where
  | admitIntent
  | cancel
  deriving DecidableEq

structure IdempotencyKey where
  tenant : GoString
  principal : GoString
  operation : Operation
  key : GoString
  deriving DecidableEq

structure IdempotencyRow where
  requestDigest : GoString
  runID : GoString

structure DB where
  runs : GoMap RunKey Run
  idempotency : GoMap IdempotencyKey IdempotencyRow

def DB.empty : DB := ⟨∅, ∅⟩

/-- A row of a state table: refused by trigger once a terminal state is there. -/
def appendState {S : Type} (terminal : S → Bool) (states : List S) (s : S) : Except Err (List S) :=
  if states.any terminal then .error .failed else .ok (states ++ [s])

theorem appendState_eq_ok_iff {S : Type} {terminal : S → Bool} {states states' : List S} {s : S} :
    appendState terminal states s = .ok states' ↔
      (∀ t ∈ states, terminal t = false) ∧ states' = states ++ [s] := by
  rw [appendState, Result.guard_eq_ok_iff, Except.ok.injEq]
  simp only [List.any_eq_true, not_exists, not_and, Bool.not_eq_true]
  exact and_congr_right' eq_comm

end CodeMemory.Factory
