import CodeMemory.Broker.ChangeSet

/-! The effect broker: what a leaf may do at the moment it asks. Identity, grant,
base, action, path, lease, fence, resource and policy are checked in this order on
every request; the clock, the fence registry and the policy are what the broker
finds at that moment. -/

namespace CodeMemory.Broker

open Lib Lib.GoString Lib.Path Capability

inductive Reason where
  | identityMismatch
  | grantMalformed
  | baseMismatch
  | escapePathScope
  | escapeForbiddenPath
  | escapePathShape
  | escapeDispatch
  | escapeEffectKind
  | staleLease
  | staleFence
  | staleEpoch
  | policyDenied
  | idempotencyConflict
  | allowed
  deriving DecidableEq

def actionFileRead : GoString := lit "file.read"

def actionFileWrite : GoString := lit "file.write"

def actionDispatch : GoString := lit "factory.dispatch"

def actionTaskCreate : GoString := lit "factory.task.create"

structure Lease where
  leaseID : Identifier
  holder : Identifier
  fence : UInt64
  expiresAt : Int

structure LeafGrant where
  grantID : Identifier
  initiator : Identifier
  tenant : Identifier
  lease : Lease
  actions : List GoString
  resources : List Identifier
  repositoryGitOID : GoString
  allowedPaths : List GoString
  nonce : GoString
  revocationEpoch : UInt64
  expiresAt : Int
  policyDigest : Digest
  commandFence : UInt64

structure Scope where
  ownedPaths : List GoString
  forbiddenPaths : List GoString
  baseGitOID : GoString

structure Leaf where
  identity : Identity
  grant : LeafGrant
  scope : Scope

structure Request where
  action : GoString
  path : GoString
  resource : Identifier
  idempotencyKey : GoString
  deriving DecidableEq

structure PolicyRequest where
  action : GoString
  resource : Identifier
  revocationEpoch : UInt64

structure PolicyDecision where
  allowed : Bool
  revocationEpoch : UInt64

/-- The answers of the clock, the fence registry and the policy at one moment; a failing policy check has none. -/
structure World where
  now : Int
  currentFence : Identifier → Option (UInt64 × Int)
  policyCheck : Identity → PolicyRequest → Option PolicyDecision

def actionRune (r : Rune) : Bool :=
  (0x61 ≤ r && r ≤ 0x7A) || (0x30 ≤ r && r ≤ 0x39) || r = 0x2E || r = 0x5F || r = 0x3A || r = 0x2D

def validLeafAction (action : GoString) : Bool :=
  action ≠ [] && action.length ≤ 128 && !decide (lit "*" <:+: action) && (runes action).all actionRune &&
    action.head?.any (fun b => 0x61 ≤ b && b ≤ 0x7A)

def validGitOID (value : GoString) : Bool := Factory.isGitOID value

def LeafGrant.fieldsOk (g : LeafGrant) (now : Int) : Bool :=
  g.grantID.idNamespace = lit "grant" && g.grantID.value ≠ [] && g.initiator.idNamespace = lit "principal" &&
    g.initiator.value ≠ [] && g.tenant.idNamespace = lit "tenant" && g.tenant.value ≠ [] && g.nonce ≠ [] &&
    g.commandFence ≠ 0 && g.expiresAt ≠ 0 && now < g.expiresAt && g.policyDigest.algorithm = lit "sha256" &&
    g.policyDigest.hex.length = 64 && g.actions ≠ [] && g.resources ≠ []

def LeafGrant.leaseOk (g : LeafGrant) (now : Int) : Bool :=
  g.lease.leaseID.idNamespace = lit "lease" && g.lease.leaseID.value ≠ [] && g.lease.holder = g.initiator &&
    g.lease.fence ≠ 0 && g.lease.expiresAt ≠ 0 && now < g.lease.expiresAt

def validateGrant (g : LeafGrant) (now : Int) : Except Reason Unit :=
  if g.fieldsOk now && g.leaseOk now && validGitOID g.repositoryGitOID &&
      g.actions.all (fun a => validLeafAction a && a ≠ actionDispatch && a ≠ actionTaskCreate) && g.actions.Nodup &&
      g.resources.all validResource && g.allowedPaths.all (fun p => validatePath p = .ok ()) then .ok ()
  else .error .grantMalformed

/-- The value is one of the paths or lies beneath one of them, byte for byte. -/
def withinAny (value : GoString) (paths : List GoString) : Bool := withinPaths value paths

def authorizePath (leaf : Leaf) (path : GoString) : Except Reason Unit :=
  if validatePath path ≠ .ok () ∨ hasPrefix path [slash] then .error .escapePathShape
  else if withinAny path leaf.scope.forbiddenPaths then .error .escapeForbiddenPath
  else if ¬ withinAny path leaf.scope.ownedPaths ∨ ¬ withinAny path leaf.grant.allowedPaths then
    .error .escapePathScope
  else .ok ()

def World.authorizeGrant (w : World) (leaf : Leaf) : Except Reason Unit :=
  if w.now = 0 then .error .grantMalformed
  else if leaf.identity.principal ≠ leaf.grant.initiator ∨ leaf.identity.tenant ≠ leaf.grant.tenant then
    .error .identityMismatch
  else do
    validateGrant leaf.grant w.now
    if leaf.scope.baseGitOID ≠ leaf.grant.repositoryGitOID then .error .baseMismatch else .ok ()

def authorizeAction (leaf : Leaf) (action : GoString) : Except Reason Unit :=
  if action = actionDispatch ∨ action = actionTaskCreate then .error .escapeDispatch
  else if action ≠ actionFileRead ∧ action ≠ actionFileWrite then .error .escapeEffectKind
  else if action ∉ leaf.grant.actions then .error .policyDenied
  else .ok ()

def World.authorizeLease (w : World) (leaf : Leaf) : Except Reason Unit :=
  match w.currentFence leaf.grant.lease.leaseID with
  | none => .error .staleLease
  | some (fence, expiry) =>
    if ¬ w.now < expiry then .error .staleLease
    else if fence ≠ leaf.grant.lease.fence then .error .staleFence
    else .ok ()

/-- A request without a resource is about the first one of the grant. -/
def Leaf.resourceOf (leaf : Leaf) (resource : Identifier) : Identifier :=
  if resource.idNamespace = [] then leaf.grant.resources.headD ⟨[], []⟩ else resource

def World.authorizePolicy (w : World) (leaf : Leaf) (action : GoString) (resource : Identifier) : Except Reason Unit :=
  if leaf.resourceOf resource ∉ leaf.grant.resources then .error .policyDenied
  else match w.policyCheck leaf.identity ⟨action, leaf.resourceOf resource, leaf.grant.revocationEpoch⟩ with
    | none => .error .policyDenied
    | some decision =>
      if ¬ decision.allowed then .error .policyDenied
      else if decision.revocationEpoch ≠ leaf.grant.revocationEpoch then .error .staleEpoch
      else .ok ()

def World.authorizeLeaf (w : World) (leaf : Leaf) (request : Request) : Except Reason Unit := do
  w.authorizeGrant leaf
  authorizeAction leaf request.action
  authorizePath leaf request.path
  w.authorizeLease leaf
  w.authorizePolicy leaf request.action request.resource

def writeRequest (path : GoString) : Request := ⟨actionFileWrite, path, ⟨[], []⟩, []⟩

/-- `AuthorizeMutation`: a rename needs both of its paths. -/
def World.authorizeMutation (w : World) (leaf : Leaf) (e : Edit) : Except Reason Unit := do
  w.authorizeLeaf leaf (writeRequest e.path)
  if e.op = .rename then w.authorizeLeaf leaf (writeRequest e.oldPath) else .ok ()

theorem withinAny_iff {value : GoString} {paths : List GoString} :
    withinAny value paths = true ↔ ∃ p ∈ paths, value = p ∨ p ++ [slash] <+: value := withinPaths_iff

variable {leaf : Leaf} {path : GoString} {w : World}

theorem authorizePath_eq_ok_iff : authorizePath leaf path = .ok () ↔
      validatePath path = .ok () ∧ hasPrefix path [slash] = false ∧
        withinAny path leaf.scope.forbiddenPaths = false ∧ withinAny path leaf.scope.ownedPaths = true ∧
        withinAny path leaf.grant.allowedPaths = true := by
  simp only [authorizePath, Result.guard_eq_ok_iff, not_or, not_not, and_true, and_assoc, Bool.not_eq_true,
    Bool.not_eq_false]

/-- The checks of a write that do not look at the path. -/
def World.admitsWrites (w : World) (leaf : Leaf) : Prop :=
  w.authorizeGrant leaf = .ok () ∧ authorizeAction leaf actionFileWrite = .ok () ∧ w.authorizeLease leaf = .ok () ∧
    w.authorizePolicy leaf actionFileWrite ⟨[], []⟩ = .ok ()

theorem authorizeLeaf_write_iff :
    w.authorizeLeaf leaf (writeRequest path) = .ok () ↔ w.admitsWrites leaf ∧ authorizePath leaf path = .ok () := by
  simp only [World.authorizeLeaf, Result.andThen_eq_ok_iff, World.admitsWrites, writeRequest]
  tauto

def Edit.paths (e : Edit) : List GoString := if e.op = .rename then [e.path, e.oldPath] else [e.path]

/-- An edit is authorized when writes are and every path of it is in scope. -/
theorem authorizeMutation_eq_ok_iff {e : Edit} :
    w.authorizeMutation leaf e = .ok () ↔ w.admitsWrites leaf ∧ ∀ p ∈ e.paths, authorizePath leaf p = .ok () := by
  unfold World.authorizeMutation Edit.paths
  rw [Result.andThen_eq_ok_iff, authorizeLeaf_write_iff]
  split_ifs
  · rw [authorizeLeaf_write_iff]
    simp only [List.mem_cons, List.not_mem_nil, or_false, forall_eq_or_imp, forall_eq]
    tauto
  · simp

end CodeMemory.Broker
