import CodeMemory.Factory.Types
import CodeMemory.Lib.Decimal

/-! The roster of leases and leaf results. Every call reads and writes the plan
nodes of one run, inside the transaction of its caller; the clock readings are
arguments. -/

namespace CodeMemory.Factory

open Lib Lib.GoString Lib.Result

def maxFence (leases : List Lease) : Nat := (leases.map (·.fence)).foldr max 0

def currentLease (leases : List Lease) : Option Lease :=
  leases.find? (fun l => l.fence = maxFence leases)

/-- What a commit answers: the canonical result, and whether it was there before. -/
structure Commit where
  result : LeafResult
  replayed : Bool

def RunKey.valid (key : RunKey) : Bool :=
  printableID key.tenant && printableID key.principal && printableID key.runID

def Config.leaseID (cfg : Config) (key : RunKey) (nodeID : GoString) (fence : Nat) : GoString :=
  cfg.identity (lit "ouroboros.stage05.lease.v1") [key.tenant, key.principal, key.runID, nodeID, Decimal.natText fence]

namespace Roster

variable (cfg : Config) (key : RunKey) (nodeID : GoString)

/-- The insert fails where no plan node has the identifier, and where the lease identity is taken. -/
def issue (holder : GoString) (expiresAtMs now : Int) (nodes : GoMap GoString Node) :
    Except Err (Lease × GoMap GoString Node) :=
  if ¬ (key.valid ∧ printableID nodeID ∧ printableID holder ∧ 0 < expiresAtMs) then .error .invalidInput
  else match nodes.lookup nodeID with
    | none => .error .failed
    | some node =>
      let fence := maxFence node.leases + 1
      let lease : Lease := ⟨fence, cfg.leaseID key nodeID fence, holder, now, expiresAtMs⟩
      if lease.leaseID ∈ node.leases.map (·.leaseID) then .error .failed
      else .ok (lease, nodes.insert nodeID { node with leases := node.leases ++ [lease] })

def current (nodes : GoMap GoString Node) : Except Err (Option Lease) :=
  if ¬ (key.valid ∧ printableID nodeID) then .error .invalidInput
  else .ok ((nodes.lookup nodeID).bind (fun node => currentLease node.leases))

def authorize (fence : Nat) (now : Int) (nodes : GoMap GoString Node) : Except Err Lease :=
  if fence = 0 then .error .invalidInput
  else do
    let found ← current key nodeID nodes
    match found with
    | none => .error .staleFence
    | some lease => if lease.fence ≠ fence ∨ lease.expiresAtMs ≤ now then .error .staleFence else .ok lease

def lookupResult (nodes : GoMap GoString Node) : Option LeafResult := (nodes.lookup nodeID).bind (·.result)

/-- `now` is the clock at the authorization, `committedAt` at the insert. -/
def commitResult (fence : Nat) (artifactID digest : GoString) (now committedAt : Int)
    (nodes : GoMap GoString Node) : Except Err (Commit × GoMap GoString Node) :=
  if ¬ (printableID artifactID ∧ isHexDigest digest) then .error .invalidInput
  else do
    let lease ← authorize key nodeID fence now nodes
    match nodes.lookup nodeID with
    | none => .error .failed
    | some node =>
      match node.result with
      | some existing =>
        if existing.fence = lease.fence ∧ existing.digest = digest then .ok (⟨existing, true⟩, nodes)
        else .error .resultConflict
      | none =>
        let result : LeafResult := ⟨lease.fence, artifactID, digest, committedAt⟩
        .ok (⟨result, false⟩, nodes.insert nodeID { node with result := some result })

end Roster

theorem fence_le_maxFence {leases : List Lease} {l : Lease} (h : l ∈ leases) : l.fence ≤ maxFence leases := by
  induction leases with
  | nil => cases h
  | cons l' leases ih =>
    rcases List.mem_cons.mp h with rfl | h
    · exact le_max_left _ _
    · exact (ih h).trans (le_max_right _ _)

/-- The current lease is one of the leases and no lease has a higher fence. -/
theorem currentLease_spec {leases : List Lease} {l : Lease} (h : currentLease leases = some l) :
    l ∈ leases ∧ l.fence = maxFence leases :=
  ⟨List.mem_of_find?_eq_some h, of_decide_eq_true (List.find?_some h :)⟩

namespace Roster

variable {cfg : Config} {key : RunKey} {nodeID : GoString} {nodes nodes' : GoMap GoString Node}

theorem authorize_eq_ok_iff {fence : Nat} {now : Int} {lease : Lease} :
    authorize key nodeID fence now nodes = .ok lease ↔
      fence ≠ 0 ∧ key.valid ∧ printableID nodeID ∧ lease.fence = fence ∧ now < lease.expiresAtMs ∧
        ∃ node, nodes.lookup nodeID = some node ∧ currentLease node.leases = some lease := by
  simp only [authorize, current, guard_eq_ok_iff, bind_eq_ok_iff, Except.ok.injEq, not_not]
  constructor
  · rintro ⟨hfence, found, ⟨hvalid, rfl⟩, h⟩
    cases hc : (nodes.lookup nodeID).bind (fun node => currentLease node.leases) with
    | none =>
      rw [hc] at h
      cases h
    | some l =>
      rw [hc] at h
      obtain ⟨hl, h⟩ := guard_eq_ok_iff.mp h
      cases h
      rw [not_or, not_not, not_le] at hl
      obtain ⟨node, hnode, hcur⟩ := Option.bind_eq_some_iff.mp hc
      exact ⟨hfence, hvalid.1, hvalid.2, hl.1, hl.2, node, hnode, hcur⟩
  · rintro ⟨hfence, hkey, hid, hl, hnow, node, hnode, hcur⟩
    refine ⟨hfence, some lease, ⟨⟨hkey, hid⟩, ?_⟩, ?_⟩
    · rw [hnode]
      exact hcur
    · exact guard_eq_ok_iff.mpr ⟨by rw [not_or, not_not, not_le]; exact ⟨hl, hnow⟩, rfl⟩

end Roster

end CodeMemory.Factory
