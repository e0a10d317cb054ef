import CodeMemory.Broker.Candidate
import CodeMemory.Lib.Decimal
import CodeMemory.Lib.Frames
import CodeMemory.Lib.GoMap

/-! The application of an edit set to a candidate: the edits one after the other, the
check of the post-images, and the tree that git records. The first application of a
request is compared with the simultaneous application of its edits. -/

namespace CodeMemory.Broker

open Lib Lib.GoString Lib.Path Capability List

structure ApplyRequest where
  changeSetID : GoString
  idempotencyKey : GoString
  tenant : Identifier
  principal : Identifier
  edits : List Edit

/-- `Path` is the location of the candidate's directory. -/
structure Candidate where
  id : GoString
  path : Loc
  baseGitOID : GoString

inductive CandidateState where
  | applied
  | rejected
  deriving DecidableEq

inductive RollbackReason where
  | applyFailed
  | escapeDenied
  | rejected
  deriving DecidableEq

structure RollbackReceipt where
  reasonCode : RollbackReason
  candidateID : GoString
  baseGitOID : GoString
  changeSetDigest : Digest
  discardedEdits : ℕ
  failedEditIndex : ℤ
  deriving DecidableEq

structure Outcome where
  state : CandidateState
  candidateID : GoString
  baseGitOID : GoString
  changeSetDigest : Digest
  postImageDigest : Digest
  postImageTreeOID : GoString
  rollback : Option RollbackReceipt
  deriving DecidableEq

/-- A record without an outcome is one of an application that is still running. -/
structure RecordedOutcome where
  requestDigest : Digest
  outcome : Option Outcome
  inFlightCandidate : GoString

def Operation.text : Operation → GoString
  | .add => lit "add"
  | .modify => lit "modify"
  | .delete => lit "delete"
  | .rename => lit "rename"
  | .other text => text

def Language.text : Language → GoString
  | .go => lit "go"
  | .typescript => lit "typescript"
  | .python => lit "python"
  | .rust => lit "rust"
  | .java => lit "java"
  | .other text => text

def fieldSize (n : ℕ) : GoString := Decimal.natText n ++ lit ":"

/-- The text that a hasher is given by a sequence of `writeField` calls. -/
def writeFields (fields : List GoString) : GoString := Frames.frames fieldSize (lit ";") fields

/-- What the digest of a request covers of an edit. -/
def Edit.digestFields (e : Edit) : List GoString :=
  [e.path, e.oldPath, e.op.text, e.lang.text, e.beforeDigest.hex, e.afterDigest.hex]

def applyRequestFields (base : GoString) (r : ApplyRequest) : List GoString :=
  [lit "ouroboros.stage05.apply-request.v1", base, r.tenant.value, r.principal.value, r.changeSetID,
    r.idempotencyKey] ++ r.edits.flatMap Edit.digestFields

def digestApplyRequest (sha256 : GoString → GoString) (base : GoString) (r : ApplyRequest) : Digest :=
  digestBytes sha256 (writeFields (applyRequestFields base r))

def changeSetDigest (sha256 : GoString → GoString) (base : GoString) (edits : List Edit) : Digest :=
  digestBytes sha256 (writeFields ([lit "ouroboros.stage05.change-set.v1", base] ++
    edits.flatMap fun e => [e.path, e.oldPath, e.op.text, e.beforeDigest.hex, e.afterDigest.hex]))

theorem writeFields_injective : Function.Injective writeFields :=
  Frames.frames_injective fun bound => Frames.sizes_natText (b := 0x3A) (by decide) bound

/-- Requests with the same text have the same edits, as far as the text covers them. -/
theorem digestFields_eq {base base' : GoString} {r r' : ApplyRequest}
    (h : writeFields (applyRequestFields base r) = writeFields (applyRequestFields base' r')) :
    r.edits.map Edit.digestFields = r'.edits.map Edit.digestFields :=
  Frames.flatMap_block_inj (n := 6) (by decide) (fun _ => rfl) (append_inj (writeFields_injective h) rfl).2

def replayKey (r : ApplyRequest) : GoString := r.tenant.value ++ [0] ++ r.principal.value ++ [0] ++ r.idempotencyKey

def ApplyRequest.wellFormed (r : ApplyRequest) : Bool :=
  r.changeSetID ≠ [] && r.idempotencyKey ≠ [] && r.tenant.idNamespace = lit "tenant" && r.tenant.value ≠ [] &&
    r.principal.idNamespace = lit "principal" && r.principal.value ≠ [] && r.edits ≠ [] && r.edits.length ≤ maxEdits

def Candidate.rollback (c : Candidate) (reason : RollbackReason) (setDigest : Digest) (discarded : ℕ)
    (failedIndex : ℤ) : RollbackReceipt := ⟨reason, c.id, c.baseGitOID, setDigest, discarded, failedIndex⟩

/-- The files and links of a tree by their paths. -/
abbrev Tree := Rel → Option (FsNode GoString)

def dotGit : GoString := lit ".git"

def worktree (fs : FileSystem GoString) (root : Loc) : Tree := fun p =>
  if p.head? = some dotGit then none else leafAt fs (root ++ p)

/-- The base commit, and the rules of git that depend on more than the names of the base: which paths the exclude
files of a worktree leave out, and what the filters store for a file. -/
structure Repository where
  base : Tree
  ignored : Tree → Rel → Bool
  stored : Tree → Rel → GoString → GoString

/-- The index after `git add -A`. A path with an element `.git` is never added, an untracked one only if it is not
ignored, and a file that still is as it was checked out keeps its entry. -/
def Repository.addAll (repo : Repository) (checkout work : Tree) : Tree := fun p =>
  if dotGit ∈ p then none
  else match work p with
    | none => none
    | some node =>
      if repo.base p = none ∧ repo.ignored work p = true then none
      else if checkout p = some node then repo.base p
      else match node with
        | .file content => some (.file (repo.stored work p content))
        | other => some other

structure StoreConfig where
  sha256 : GoString → GoString
  maxFileBytes : ℕ

/-- What an application meets while it runs: the context and the authorizer before each edit, the results of
`git add -A` and `git write-tree`, and the digest of the worktree. -/
structure ApplyWorld where
  cancelled : ℕ → Bool
  authorizeMutation : ℕ → Edit → Except Reason Unit
  addAll : Bool
  writeTree : Option GoString
  postImageDigest : Except CandidateError Digest

/-- A failure comes with the number of edits that were executed. -/
abbrev Attempt (β : Type) := Command (Disk GoString) (ℕ × CandidateError) β

def applyEdits (cfg : StoreConfig) (w : ApplyWorld) (root : Loc) : ℕ → List Edit → Attempt PUnit
  | _, [] => pure ⟨⟩
  | i, e :: rest =>
    if w.cancelled i then throw (i, .apply)
    else match w.authorizeMutation i e with
      | .error reason => throw (i, .denied reason)
      | .ok _ => do
        (applyOne cfg.sha256 root cfg.maxFileBytes e).mapError (fun err => (i, err))
        applyEdits cfg w root (i + 1) rest

def checkPostImages (cfg : StoreConfig) (root : Loc) : List Edit → Action PUnit
  | [] => pure ⟨⟩
  | e :: rest =>
    if e.op = .delete then checkPostImages cfg root rest
    else do
      let content ← readCandidateFile root e.path cfg.maxFileBytes
      if digestBytes cfg.sha256 content ≠ e.afterDigest then throw .apply else checkPostImages cfg root rest

def recordTree (w : ApplyWorld) : Action (Digest × GoString) :=
  if ¬ w.addAll then throw .git
  else match w.writeTree with
    | none => throw .git
    | some output =>
      if ¬ validGitOID (trimSpace output) then throw .git
      else match w.postImageDigest with
        | .error err => throw err
        | .ok digest => pure (digest, trimSpace output)

def applyAllBody (cfg : StoreConfig) (w : ApplyWorld) (root : Loc) (edits : List Edit) :
    Attempt (Digest × GoString) := do
  applyEdits cfg w root 0 edits
  (checkPostImages cfg root edits).mapError (fun err => (edits.length, err))
  (recordTree w).mapError (fun err => (edits.length, err))

/-- Any failure removes the candidate directory. -/
def applyAll (cfg : StoreConfig) (w : ApplyWorld) (root : Loc) (edits : List Edit) : Attempt (Digest × GoString) := do
  match ← (applyAllBody cfg w root edits).attempt with
  | .ok facts => pure facts
  | .error err => do
    let _ ← (Disk.removeAll root).attempt
    throw err

/-- The disk, the records, and the tree objects of the candidates by their names. -/
structure Store where
  disk : Disk GoString
  seen : GoMap GoString RecordedOutcome
  trees : GoString → Option Tree

inductive ApplyError where
  | store (err : CandidateError)
  | edits (err : Invalid)
  deriving DecidableEq

/-- The two results of `Apply`, either of which may be nil. -/
abbrev ApplyResult := Option Outcome × Option ApplyError

def Store.removeAll (s : Store) (c : Candidate) : Store := { s with disk := ((Disk.removeAll c.path).run.run s.disk).2 }

/-- Some record is of a running application that writes the candidate. -/
def candidateInFlight (seen : GoMap GoString RecordedOutcome) (id : GoString) : Bool :=
  !seen.all fun _ rec => rec.outcome.isSome || rec.inFlightCandidate ≠ id

/-- The fresh candidate of a replay is neither the one of the outcome nor the one that is being written. -/
def RecordedOutcome.unused (rec : RecordedOutcome) (id : GoString) : Bool :=
  id ≠ rec.outcome.elim [] Outcome.candidateID && id ≠ rec.inFlightCandidate

/-- The answer to a request whose key has a record. -/
def RecordedOutcome.answer (rec : RecordedOutcome) (requestDigest : Digest) : Except CandidateError Outcome :=
  match rec.outcome with
  | none => .error .conflict
  | some outcome => if rec.requestDigest ≠ requestDigest then .error .conflict else .ok outcome

/-- The outcome for edits that `Validate` refuses. -/
def Candidate.invalidOutcome (cfg : StoreConfig) (c : Candidate) (edits : List Edit) : Outcome :=
  ⟨.rejected, c.id, c.baseGitOID, ⟨[], []⟩, ⟨[], []⟩, [],
    some (c.rollback .rejected (changeSetDigest cfg.sha256 c.baseGitOID edits) 0 (-1))⟩

def Candidate.failedOutcome (cfg : StoreConfig) (c : Candidate) (edits : List Edit) (executed : ℕ) : Outcome :=
  let setDigest := changeSetDigest cfg.sha256 c.baseGitOID edits
  ⟨.rejected, c.id, c.baseGitOID, setDigest, ⟨[], []⟩, [], some (c.rollback .applyFailed setDigest executed executed)⟩

def Candidate.appliedOutcome (cfg : StoreConfig) (c : Candidate) (edits : List Edit) (digest : Digest)
    (treeOID : GoString) : Outcome :=
  ⟨.applied, c.id, c.baseGitOID, changeSetDigest cfg.sha256 c.baseGitOID edits, digest, treeOID, none⟩

/-- `Apply`, when no other call runs on the store. -/
def Store.apply (cfg : StoreConfig) (w : ApplyWorld) (repo : Repository) (c : Candidate) (r : ApplyRequest)
    (s : Store) : ApplyResult × Store :=
  if ¬ r.wellFormed then ((none, some (.store .invalidInput)), s)
  else match validate cfg.sha256 r.edits with
    | .error err =>
      if candidateInFlight s.seen c.id then ((none, some (.store .conflict)), s)
      else ((some (c.invalidOutcome cfg r.edits), some (.edits err)), s.removeAll c)
    | .ok _ =>
      let requestDigest := digestApplyRequest cfg.sha256 c.baseGitOID r
      match s.seen.lookup (replayKey r) with
      | some rec =>
        let s := if rec.unused c.id then s.removeAll c else s
        match rec.answer requestDigest with
        | .error err => ((none, some (.store err)), s)
        | .ok outcome => ((some outcome, none), s)
      | none =>
        match (applyAll cfg w c.path r.edits).run.run s.disk with
        | (.error (executed, err), disk) =>
          let outcome := c.failedOutcome cfg r.edits executed
          ((some outcome, some (.store err)), ⟨disk, s.seen.insert (replayKey r) ⟨requestDigest, some outcome, []⟩,
            s.trees⟩)
        | (.ok (digest, treeOID), disk) =>
          let outcome := c.appliedOutcome cfg r.edits digest treeOID
          let index := repo.addAll (worktree s.disk.fs c.path) (worktree disk.fs c.path)
          ((some outcome, none), ⟨disk, s.seen.insert (replayKey r) ⟨requestDigest, some outcome, []⟩,
            Function.update s.trees treeOID (some index)⟩)

def edited (tree : Tree) (edits : List Edit) : Tree := fun p =>
  match edits.find? (fun e => elems e.path = p) with
  | some e => if e.op = .delete then none else some (.file e.newContent)
  | none => if ∃ e ∈ edits, e.op = .rename ∧ elems e.oldPath = p then none else tree p

def editedInTurn (tree : Tree) (edits : List Edit) : Tree := edits.foldl (fun tree e => e.applyTo [] tree) tree

section Edited

variable {tree : Tree} {edits : List Edit} {e : Edit} {p : Rel}

end Edited

open Command Disk FileSystem

structure EditsDone (root : Loc) (edits : List Edit) (disk t : Disk GoString) : Prop where
  dir : t.fs.isDir root = true
  log : ∃ more, t.log = disk.log ++ more ∧ (∀ a ∈ more, ∃ e ∈ edits, e.Reaches root a) ∧
    ∀ e ∈ edits, ∀ q ∈ e.paths, ∃ a ∈ more, changes (candidatePath root q) a
  leaves : ∀ p, leafAt t.fs (root ++ p) = editedInTurn (fun p => leafAt disk.fs (root ++ p)) edits p

section Run

variable {cfg : StoreConfig} {w : ApplyWorld} {root : Loc} {disk t u : Disk GoString} {e : Edit} {edits : List Edit}

theorem applyTo_below (leaves : Loc → Option (FsNode GoString)) (p : Rel) :
    e.applyTo root leaves (root ++ p) = e.applyTo [] (fun p => leaves (root ++ p)) p := by
  unfold Edit.applyTo candidatePath
  refine if_congr (append_right_inj root) rfl (if_congr (and_congr_right fun _ => ?_) rfl rfl)
  exact append_right_inj root

theorem EditsDone.cons (h : e.Done root disk t) (hrest : EditsDone root edits t u) :
    EditsDone root (e :: edits) disk u := by
  obtain ⟨more, hworked, hch⟩ := h.worked
  obtain ⟨more', hlog', hreach', hch'⟩ := hrest.log
  refine ⟨hrest.dir, ⟨more ++ more', ?_, ?_, ?_⟩, fun p => ?_⟩
  · rw [hlog', hworked.log, append_assoc]
  · refine forall_mem_append.mpr ⟨fun a ha => ?_, fun a ha => ?_⟩
    · exact ⟨e, (.head _), hworked.reaches a ha⟩
    · obtain ⟨e', he', hreach⟩ := hreach' a ha
      exact ⟨e', .tail _ he', hreach⟩
  · refine forall_mem_cons.mpr ⟨fun q hq => ?_, fun e' he' q hq => ?_⟩
    · obtain ⟨a, ha, hq⟩ := hch q hq
      exact ⟨a, mem_append_left _ ha, hq⟩
    · obtain ⟨a, ha, hq⟩ := hch' e' he' q hq
      exact ⟨a, mem_append_right _ ha, hq⟩
  · have hstep : (fun p => leafAt t.fs (root ++ p)) = e.applyTo [] (fun p => leafAt disk.fs (root ++ p)) :=
      funext fun p => by rw [h.leaves, applyTo_below]
    rw [hrest.leaves, hstep]
    rfl

end Run

/-- The file of an edit gets into the tree as it is: git takes its path, does not ignore it, and stores its content
unchanged. -/
structure Edit.Recorded (repo : Repository) (checkout : Tree) (edits : List Edit) (e : Edit) : Prop where
  plain : dotGit ∉ elems e.path
  added : repo.base (elems e.path) = none → repo.ignored (edited checkout edits) (elems e.path) = false
  kept : if checkout (elems e.path) = some (.file e.newContent) then
      repo.base (elems e.path) = some (.file e.newContent)
    else repo.stored (edited checkout edits) (elems e.path) e.newContent = e.newContent

section Record

variable {repo : Repository} {checkout tree tree' : Tree} {edits : List Edit} {e : Edit} {p : Rel}

end Record

section First

variable {cfg : StoreConfig} {w : ApplyWorld} {repo : Repository} {c : Candidate} {r : ApplyRequest} {s t : Store}
  {outcome : Outcome} {err : Option ApplyError}

end First

def zeroConfig : StoreConfig := ⟨fun _ => List.replicate 64 0x30, 10⟩

def theCandidate : Candidate := ⟨lit "candidate-1", [lit "c"], List.replicate 40 0x62⟩

end CodeMemory.Broker
