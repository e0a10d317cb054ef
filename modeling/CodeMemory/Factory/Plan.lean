import CodeMemory.Factory.Types
import CodeMemory.Lib.Path
import CodeMemory.Lib.Utf8

/-! Scopes, leaf specifications and candidate previews: the structural checks of
admission and proposal. Paths are compared after `foldPath`. What `protovalidate`
says of a message is part of the message here. -/

namespace CodeMemory.Factory

open Lib Lib.GoString
open Lib.Path (slash)

def validRepositoryPath (path : GoString) : Bool :=
  path ≠ [] && path.length ≤ 4096 && !hasPrefix path [slash] && !hasSuffix path [slash] &&
    (runes path).all (fun r => r != 0x5C && 0x20 ≤ r && r != 0x7F) &&
    (path.splitOn slash).all (fun seg => seg ≠ [] && seg ≠ lit "." && seg ≠ lit "..")

namespace Config

variable (cfg : Config)

def foldPath (path : GoString) : GoString := cfg.toLower path

def pathsCollide (first second : GoString) : Bool :=
  let first := cfg.foldPath first
  let second := cfg.foldPath second
  first = second || hasPrefix second (first ++ [slash]) || hasPrefix first (second ++ [slash])

def pathWithinScope (path : GoString) (scope : List GoString) : Bool :=
  let folded := cfg.foldPath path
  scope.any (fun root => folded = cfg.foldPath root || hasPrefix folded (cfg.foldPath root ++ [slash]))

/-- `strings.ToLower` maps a string rune by rune and keeps the separator. -/
structure LowersRunes (lower : Rune → Rune) : Prop where
  toLower_eq : cfg.toLower = mapRunes lower
  lower_slash : lower slash.toNat = slash.toNat

variable {cfg} {lower : Rune → Rune}

theorem LowersRunes.foldPath_append (h : cfg.LowersRunes lower) (s t : GoString) :
    cfg.foldPath (s ++ slash :: t) = cfg.foldPath s ++ slash :: cfg.foldPath t := by
  simp only [foldPath, h.toLower_eq]
  exact mapRunes_append_ascii (by decide) h.lower_slash s t

/-- What a path lies under byte for byte it lies under once case is folded. -/
theorem LowersRunes.pathWithinScope_of_beneath (h : cfg.LowersRunes lower) {path root : GoString}
    {scope : List GoString}
    (hroot : root ∈ scope) (hpath : path = root ∨ root ++ [slash] <+: path) :
    cfg.pathWithinScope path scope = true := by
  refine List.any_eq_true.mpr ⟨root, hroot, ?_⟩
  rw [Bool.or_eq_true, decide_eq_true_iff]
  rcases hpath with rfl | ⟨rest, rfl⟩
  · exact .inl rfl
  · refine .inr ?_
    rw [List.append_assoc, List.singleton_append, h.foldPath_append, hasPrefix, List.isPrefixOf_iff_prefix]
    exact ⟨cfg.foldPath rest, by simp⟩

theorem pathWithinScope_congr {p q : GoString} (h : cfg.foldPath p = cfg.foldPath q) (scope : List GoString) :
    cfg.pathWithinScope p scope = cfg.pathWithinScope q scope := by
  simp only [pathWithinScope, h]

end Config

/-- Lower case in the ASCII range. -/
def asciiLower (r : Rune) : Rune := if 0x41 ≤ r ∧ r ≤ 0x5A then r + 0x20 else r

structure LeafSpec where
  nodeID : GoString
  goal : GoString
  ownedPaths : List GoString
  forbiddenPaths : List GoString
  holderPrincipal : GoString

def orchestratorNodeID : GoString := lit "orchestrator"

def reviewNodeID : GoString := lit "review"

def lowerLetter (b : UInt8) : Bool := 0x61 ≤ b && b ≤ 0x7A

/-- The pattern of node identifiers: a lower-case letter and up to 63 letters, digits or hyphens. -/
def nodeIDOk : GoString → Bool
  | [] => false
  | b :: t =>
    lowerLetter b && t.length ≤ 63 && t.all (fun c => lowerLetter c || (0x30 ≤ c && c ≤ 0x39) || c == 0x2D)

def LeafSpec.ok (cfg : Config) (scope : List GoString) (leaf : LeafSpec) : Bool :=
  nodeIDOk leaf.nodeID && (leaf.holderPrincipal = [] || printableID leaf.holderPrincipal) && leaf.goal ≠ [] &&
    leaf.ownedPaths ≠ [] && leaf.ownedPaths.length ≤ 64 && leaf.forbiddenPaths.length ≤ 64 &&
    leaf.ownedPaths.all (fun p => validRepositoryPath p && cfg.pathWithinScope p scope) &&
    leaf.forbiddenPaths.all validRepositoryPath

/-- No owned path of one leaf collides with an owned path of the other. -/
def Config.disjointLeaves (cfg : Config) (a b : LeafSpec) : Bool :=
  a.ownedPaths.all (fun p => b.ownedPaths.all (fun q => !cfg.pathsCollide p q))

def Config.validateLeafSpecs (cfg : Config) (leaves : List LeafSpec) (scope : List GoString) :
    Except Err Unit :=
  if leaves ≠ [] ∧ leaves.length ≤ 3 ∧ scope ≠ [] ∧ scope.length ≤ 64 ∧ scope.all validRepositoryPath ∧
      (orchestratorNodeID :: reviewNodeID :: leaves.map (·.nodeID)).Nodup ∧
      leaves.all (LeafSpec.ok cfg scope) ∧ leaves.Pairwise (fun a b => cfg.disjointLeaves a b = true) then .ok ()
  else .error .planInvalid

theorem validateLeafSpecs_ok {cfg : Config} {leaves : List LeafSpec} {scope : List GoString}
    (h : cfg.validateLeafSpecs leaves scope = .ok ()) :
    (∀ l ∈ leaves, LeafSpec.ok cfg scope l = true) ∧ leaves.Pairwise (fun a b => cfg.disjointLeaves a b = true) := by
  unfold Config.validateLeafSpecs at h
  split at h
  · next hok => exact ⟨List.all_eq_true.mp hok.2.2.2.2.2.2.1, hok.2.2.2.2.2.2.2⟩
  · cases h

inductive EditOperation where
  | add
  | delete
  | modify
  | rename
  deriving DecidableEq

structure Digest where
  algorithm : GoString
  hex : GoString

def Digest.ok (d : Digest) : Bool := d.algorithm = lit "sha256" && isHexDigest d.hex

/-- One edit; `language` is zero when unspecified. -/
structure PreviewEdit where
  path : GoString
  oldPath : GoString
  language : Nat
  operation : Option EditOperation
  beforeDigest : Option Digest
  afterDigest : Option Digest

structure PreviewGate where
  idNamespace : GoString
  id : GoString
  kind : Option GateKind
  status : Option GateStatus
  required : Bool

structure Preview where
  changeSetID : GoString
  candidateState : Option CandidateState
  expectedBaseGitOID : GoString
  baseGitOID : GoString
  edits : List PreviewEdit
  obligations : List Nat
  gates : List PreviewGate
  /-- Whether `protovalidate` accepts the message. -/
  wellFormed : Bool
  /-- The deterministic encoding, where there is one. -/
  encoding : Option GoString

def PreviewEdit.digestsOk (e : PreviewEdit) : Bool :=
  (match e.operation with
    | some .add => e.beforeDigest.isNone && e.afterDigest.isSome
    | some .delete => e.beforeDigest.isSome && e.afterDigest.isNone
    | some .modify | some .rename => e.beforeDigest.isSome && e.afterDigest.isSome
    | none => false) &&
  e.beforeDigest.all Digest.ok && e.afterDigest.all Digest.ok

def validatePreviewEdit (e : PreviewEdit) : Except Err Unit :=
  if validRepositoryPath e.path ∧ e.language ≠ 0 ∧ e.digestsOk ∧
      (if e.operation = some .rename then
        e.oldPath ≠ [] ∧ e.oldPath ≠ e.path ∧ validRepositoryPath e.oldPath = true
      else e.oldPath = []) then .ok ()
  else .error .planInvalid

def PreviewEdit.preImage (e : PreviewEdit) : GoString :=
  if e.operation = some .rename then e.oldPath else e.path

/-- The loop over the edits, with the post-images and the pre-images seen before. -/
def Config.checkEdits (cfg : Config) (scopes : List GoString) :
    List PreviewEdit → List GoString → List GoString → Except Err Unit
  | [], _, _ => .ok ()
  | e :: rest, post, pre => do
    validatePreviewEdit e
    if e.path ∈ post then .error .planInvalid
    else if e.operation ≠ some .add ∧ e.preImage ∈ pre then .error .planInvalid
    else if ¬ cfg.pathWithinScope e.path scopes then .error .scopeEscape
    else if e.operation = some .rename ∧ ¬ cfg.pathWithinScope e.oldPath scopes then .error .scopeEscape
    else
      cfg.checkEdits scopes rest (e.path :: post)
        (if e.operation = some .add then pre else e.preImage :: pre)

def Preview.languages (p : Preview) : List Nat := (p.edits.map (·.language)).dedup

/-- The gate roster: between four and eight gates with distinct identities, one required gate of each kind. -/
def Preview.gatesOk (p : Preview) : Bool :=
  4 ≤ p.gates.length && p.gates.length ≤ 8 &&
    p.gates.all (fun g => g.id ≠ [] && g.kind.isSome && g.status.isSome) &&
    (p.gates.map (fun g => g.idNamespace ++ [0x1F] ++ g.id)).Nodup &&
    GateKind.all.all (fun k => p.gates.any (fun g => g.required && g.kind = some k))

/-- `base` is the base the run was admitted with, `scopes` the paths its leaves own. -/
def Config.validatePreview (cfg : Config) (p : Preview) (base : GoString) (scopes : List GoString) :
    Except Err Unit := do
  if p.changeSetID = [] then .error .planInvalid
  else if p.candidateState ≠ some .proposed then .error .planInvalid
  else if p.expectedBaseGitOID ≠ base ∨ p.baseGitOID ≠ base then .error .planInvalid
  else if p.edits = [] ∨ 64 < p.edits.length then .error .planInvalid
  else do
    cfg.checkEdits scopes p.edits [] []
    if p.obligations.length ≠ p.languages.length ∨ ¬ p.obligations.Nodup ∨
        ¬ p.obligations.all (fun l => l ∈ p.languages) then .error .planInvalid
    else if ¬ p.gatesOk then .error .planInvalid
    else if ¬ p.wellFormed then .error .planInvalid
    else .ok ()

end CodeMemory.Factory
