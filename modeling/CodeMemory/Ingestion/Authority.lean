import CodeMemory.Lib.Decimal
import CodeMemory.Lib.GoMap
import CodeMemory.Lib.Schedule

/-! The authority over the generations of one source. `Admit` and `Reconcile` hold
the mutex, release it for a scan of the repository and take it again; the other calls
run in one section. What a scan finds is free. -/

namespace CodeMemory.Ingestion

open Lib Lib.GoString

inductive Err where
  | invalidInput
  | staleGeneration
  | revoked
  | tombstoned
  | git
  | limit
  | conflict
  deriving DecidableEq

variable {F C : Type}

structure Manifest (F : Type) where
  digest : GoString
  policyDigest : GoString
  files : List F
  deriving DecidableEq

structure Generation (F C : Type) where
  id : GoString
  sequence : UInt64
  sourceID : GoString
  snapshotID : GoString
  commitOID : GoString
  treeOID : GoString
  manifest : Manifest F
  delta : List C
  expectedPreviousID : GoString
  deriving DecidableEq

structure Snapshot (F : Type) where
  id : GoString
  commit : GoString
  tree : GoString
  manifest : Manifest F

/-- `identity` hashes a domain and fields, each with its length; `digest` hashes a text. The number of records is a Go
`int`. -/
structure Config (F C : Type) where
  sourceID : GoString
  maxIdempotencyRecords : ℕ
  bounded : maxIdempotencyRecords < 2 ^ 63
  identity : List GoString → GoString
  digest : GoString → GoString
  deriveDelta : List F → List F → List C

inductive Request where
  | admitCommit (expectedCommitOID key : GoString)
  | reconcile (expectedGenerationID expectedCommitOID targetCommitOID key : GoString)
  | revoke (expectedGenerationID key : GoString)
  | tombstone (expectedGenerationID key : GoString)
  deriving DecidableEq

def Request.key : Request → GoString
  | .admitCommit _ key | .reconcile _ _ _ key | .revoke _ key | .tombstone _ key => key

/-- Whether the call denies the source instead of asking for a generation. -/
def Request.denies : Request → Bool
  | .admitCommit .. | .reconcile .. => false
  | .revoke .. | .tombstone .. => true

def Request.fields : Request → List GoString
  | .admitCommit commit _ => [lit "ouroboros.stage03.admit-request.v1", commit]
  | .reconcile generation commit target _ =>
    [lit "ouroboros.stage03.reconcile-request.v1", generation, commit, target]
  | .revoke generation _ => [lit "ouroboros.stage03.revoke-request.v1", generation]
  | .tombstone generation _ => [lit "ouroboros.stage03.tombstone-request.v1", generation]

def isGitOID (value : GoString) : Bool :=
  (value.length = 40 || value.length = 64) && value.all fun b => (0x30 ≤ b && b ≤ 0x39) || (0x61 ≤ b && b ≤ 0x66)

def isDigest (value : GoString) : Bool := value.length = 64 && isGitOID value

def validKey (key : GoString) : Bool :=
  key ≠ [] && decide (key.length ≤ 512) && trimSpace key = key && (runes key).all fun r => 0x20 ≤ r && r ≠ 0x7f

def Request.valid (r : Request) : Bool :=
  validKey r.key && match r with
    | .admitCommit commit _ => isGitOID commit
    | .reconcile generation commit target _ => isDigest generation && isGitOID commit && isGitOID target
    | .revoke generation _ | .tombstone generation _ => isDigest generation

/-- A record has a result if it is that of a generation. -/
structure OperationRecord (F C : Type) where
  signature : GoString
  result : Option (Generation F C)
  deriving DecidableEq

structure Authority (F C : Type) where
  current : Option (Generation F C)
  operations : GoMap GoString (OperationRecord F C)
  normalOperations : ℕ
  revoked : Bool
  tombstoned : Bool

/-- How a section ends: with an error, with the mutex released for a scan over `base`, with the result of an earlier
operation, or with an operation of its own, which may publish its generation. -/
inductive Outcome (F C : Type) where
  | fails (e : Err)
  | scans (base : Option (Generation F C))
  | replays (result : Option (Generation F C))
  | takes (result : Option (Generation F C)) (publishes : Bool)

section Sections

variable (cfg : Config F C) (a : Authority F C)

def Authority.denialError : Option Err :=
  if a.tombstoned then some .tombstoned else if a.revoked then some .revoked else none

def signature (r : Request) : GoString := cfg.identity r.fields

def generationFields (sourceID : GoString) (sequence : UInt64) (previousID : GoString) (source : Snapshot F) :
    List GoString :=
  [lit "ouroboros.stage03.generation.v1", sourceID, Decimal.natText sequence.toNat, previousID, source.manifest.digest]

def generationFromSnapshot (sequence : UInt64) (previousID : GoString) (source : Snapshot F) (delta : List C) :
    Generation F C where
  id := cfg.identity (generationFields cfg.sourceID sequence previousID source)
  sequence := sequence
  sourceID := cfg.sourceID
  snapshotID := source.id
  commitOID := source.commit
  treeOID := source.tree
  manifest := source.manifest
  delta := delta
  expectedPreviousID := previousID

/-- `checkOperation`, and the replay of a record that is exact; `fresh` goes on with a new key. The cached result of a
record is there in every authority that was not restored. -/
def Authority.checked (r : Request) (fresh : Outcome F C × Authority F C) : Outcome F C × Authority F C :=
  match a.operations.lookup (cfg.digest r.key) with
  | none => fresh
  | some record =>
    if record.signature ≠ signature cfg r then (.fails .conflict, a)
    else if r.denies then (.replays none, a)
    else match record.result with
      | none => (.fails .conflict, a)
      | some g => (.replays (some g), a)

/-- `commitGenerationOperation`, and the publication of the generation. -/
def Authority.commitGeneration (r : Request) (g : Generation F C) (publishes : Bool) : Outcome F C × Authority F C :=
  if (a.operations.lookup (cfg.digest r.key)).isNone ∧ cfg.maxIdempotencyRecords ≤ a.normalOperations then
    (.fails .limit, a)
  else
    (.takes (some g) publishes,
      { a with
        operations := a.operations.insert (cfg.digest r.key) ⟨signature cfg r, some g⟩
        normalOperations :=
          if (a.operations.lookup (cfg.digest r.key)).isNone then a.normalOperations + 1 else a.normalOperations
        current := if publishes then some g else a.current })

def Authority.admitCommit (commit key : GoString) : Outcome F C × Authority F C :=
  let r := Request.admitCommit commit key
  match a.denialError with
  | some e => (.fails e, a)
  | none => a.checked cfg r <|
    match a.current with
    | some g => if g.commitOID = commit then a.commitGeneration cfg r g false else (.fails .conflict, a)
    | none => (.scans none, a)

def Authority.admitScanned (commit key : GoString) (scanned : Option (Snapshot F)) : Outcome F C × Authority F C :=
  let r := Request.admitCommit commit key
  match a.denialError, scanned with
  | some e, _ => (.fails e, a)
  | none, none => (.fails .git, a)
  | none, some source => a.checked cfg r <|
    match a.current with
    | some g => if g.commitOID ≠ commit then (.fails .conflict, a) else a.commitGeneration cfg r g false
    | none => a.commitGeneration cfg r (generationFromSnapshot cfg 1 [] source []) true

def Authority.reconcile (generation commit target key : GoString) : Outcome F C × Authority F C :=
  let r := Request.reconcile generation commit target key
  match a.denialError with
  | some e => (.fails e, a)
  | none => a.checked cfg r <|
    match a.current with
    | none => (.fails .staleGeneration, a)
    | some g =>
      if g.id ≠ generation ∨ g.commitOID ≠ commit then (.fails .staleGeneration, a)
      else if target = commit then a.commitGeneration cfg r g false
      else (.scans (some g), a)

def Authority.reconcileScanned (generation commit target key : GoString) (base : Generation F C)
    (scanned : Option (Snapshot F)) : Outcome F C × Authority F C :=
  let r := Request.reconcile generation commit target key
  match a.denialError, scanned with
  | some e, _ => (.fails e, a)
  | none, none => (.fails .git, a)
  | none, some source => a.checked cfg r <|
    match a.current with
    | none => (.fails .staleGeneration, a)
    | some g =>
      if g.id ≠ base.id ∨ g.commitOID ≠ base.commitOID then (.fails .staleGeneration, a)
      else
        let delta := cfg.deriveDelta base.manifest.files source.manifest.files
        a.commitGeneration cfg r (generationFromSnapshot cfg (base.sequence + 1) base.id source delta) true

def Authority.commitLifecycle (r : Request) : Authority F C :=
  { a with operations := a.operations.insert (cfg.digest r.key) ⟨signature cfg r, none⟩ }

def Authority.revoke (generation key : GoString) : Outcome F C × Authority F C :=
  let r := Request.revoke generation key
  a.checked cfg r <|
    if a.tombstoned then (.fails .tombstoned, a)
    else if a.revoked then (.fails .revoked, a)
    else match a.current with
      | none => (.fails .staleGeneration, a)
      | some g =>
        if g.id ≠ generation then (.fails .staleGeneration, a)
        else (.takes none false, { a.commitLifecycle cfg r with revoked := true })

def Authority.tombstone (generation key : GoString) : Outcome F C × Authority F C :=
  let r := Request.tombstone generation key
  a.checked cfg r <|
    if a.tombstoned then (.fails .tombstoned, a)
    else match a.current with
      | none => (.fails .staleGeneration, a)
      | some g =>
        if a.revoked = false ∨ g.id ≠ generation then (.fails .staleGeneration, a)
        else (.takes none false, { a.commitLifecycle cfg r with
          tombstoned := true
          current := some { g with manifest := { g.manifest with files := [] }, delta := [] } })

def Authority.readCurrent : Except Err (Generation F C) :=
  if a.tombstoned then .error .tombstoned
  else if a.revoked then .error .revoked
  else match a.current with
    | none => .error .invalidInput
    | some g => .ok g

end Sections

structure Call (F C : Type) where
  request : Request
  base : Option (Generation F C)

structure Answer (F C : Type) where
  request : Request
  result : Option (Generation F C)

/-- The authority, the calls that scan, the generations that were published, the operations that took effect, the
answers, and what was hashed. -/
structure System (F C : Type) where
  authority : Authority F C
  calls : List (Call F C)
  published : List (Generation F C)
  effects : List (Answer F C)
  answers : List (Answer F C)
  hashed : List (List GoString)

inductive Event (F : Type) where
  | call (r : Request)
  | scanned (i : ℕ) (source : Option (Snapshot F))

section Runs

variable (cfg : Config F C)

def Generation.fields (g : Generation F C) : List GoString :=
  [lit "ouroboros.stage03.generation.v1", g.sourceID, Decimal.natText g.sequence.toNat, g.expectedPreviousID,
    g.manifest.digest]

/-- The end of a section of a call for `r`. -/
def System.ends (s : System F C) (r : Request) (turn : Outcome F C × Authority F C) : System F C :=
  match turn.1 with
  | .fails _ => { s with authority := turn.2 }
  | .scans base => { s with authority := turn.2, calls := s.calls ++ [⟨r, base⟩] }
  | .replays result => { s with authority := turn.2, answers := s.answers ++ [⟨r, result⟩] }
  | .takes result publishes =>
    { s with
      authority := turn.2
      answers := s.answers ++ [⟨r, result⟩]
      effects := s.effects ++ [⟨r, result⟩]
      published := if publishes then s.published ++ result.toList else s.published
      hashed := if publishes then s.hashed ++ result.toList.map Generation.fields else s.hashed }

def Authority.begin (a : Authority F C) : Request → Outcome F C × Authority F C
  | .admitCommit commit key => a.admitCommit cfg commit key
  | .reconcile generation commit target key => a.reconcile cfg generation commit target key
  | .revoke generation key => a.revoke cfg generation key
  | .tombstone generation key => a.tombstone cfg generation key

def Authority.resume (a : Authority F C) (call : Call F C) (source : Option (Snapshot F)) :
    Outcome F C × Authority F C :=
  match call.request, call.base with
  | .admitCommit commit key, _ => a.admitScanned cfg commit key source
  | .reconcile generation commit target key, some base =>
    a.reconcileScanned cfg generation commit target key base source
  | _, _ => (.fails .invalidInput, a)

def System.step (s : System F C) : Event F → System F C
  | .call r =>
    if r.valid then { s with hashed := s.hashed ++ [r.fields] }.ends r (s.authority.begin cfg r) else s
  | .scanned i source =>
    match s.calls[i]? with
    | none => s
    | some call => { s with calls := s.calls.eraseIdx i }.ends call.request (s.authority.resume cfg call source)

def System.run (s : System F C) (es : List (Event F)) : System F C := es.foldl (System.step cfg) s

def System.start : System F C := ⟨⟨none, ∅, 0, false, false⟩, [], [], [], [], []⟩

end Runs

end CodeMemory.Ingestion
