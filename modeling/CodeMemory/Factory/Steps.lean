import CodeMemory.Factory.Kernel

/-! What a command can do to a run. Every command leaves the runs as they are,
opens one in `PLANNING`, or takes one run through a single `RunStep`; everything
that is proved of histories is proved of these steps. The commit of a leaf result
is kept apart: no other command records one. -/

namespace CodeMemory.Factory

open Lib Lib.GoString Lib.Result List

/-- The fences of a leaf are 1, 2, 3, … in the order of issue. -/
def Dense (leases : List Lease) : Prop := leases.map (·.fence) = List.range' 1 leases.length

def Node.Fresh (n : Node) : Prop := n.result = none ∧ Dense n.leases

structure Admitted (r : Run) : Prop where
  states : r.states = [.planning]
  roster : ∀ kind, ∃ id g, r.gates.lookup id = some g ∧ g.kind = kind ∧ g.required = true
  candidate : r.candidate = none
  candidateStates : r.candidateStates = []
  nodes : Ledger.All Node.Fresh r.nodes

def Node.FromSpec (leaves : List LeafSpec) (id : GoString) (n : Node) : Prop :=
  n.kind = .leaf → ∃ leaf ∈ leaves, id = leaf.nodeID ∧ n.ownedPaths = storedPaths leaf.ownedPaths ∧
    n.forbiddenPaths = storedPaths leaf.forbiddenPaths

def Config.Planned (cfg : Config) (r : Run) : Prop :=
  ∃ leaves scope, cfg.validateLeafSpecs leaves scope = .ok () ∧
    ∀ id n, r.nodes.lookup id = some n → n.FromSpec leaves id

def Config.Opened (cfg : Config) (r : Run) : Prop := Admitted r ∧ cfg.Planned r

def Run.Live (r : Run) : Prop := ∃ s, r.state = some s ∧ terminalRunState s = false

def Run.GatesPassed (r : Run) : Prop :=
  ∀ id g, r.gates.lookup id = some g → g.required = true → g.status = some .passed

inductive RunStep (r : Run) : Run → Prop
  | same : RunStep r r
  | advance (current next : RunState) (state : r.state = some current)
    (valid : validRunTransition current next = true)
    (retained : next = .completed → r.candidateState = some .retained) :
    RunStep r { r with states := r.states ++ [next] }
  | gate (id : GoString) (g : Gate) (status : GateStatus) (live : r.Live) (found : r.gates.lookup id = some g)
    (unfinished : ∀ s ∈ g.states, terminalGateStatus s = false) :
    RunStep r { r with gates := r.gates.insert id { g with states := g.states ++ [status] } }
  | propose (c : Candidate) (live : r.Live) (unfinished : ∀ s ∈ r.candidateStates, terminalCandidateState s = false) :
    RunStep r { r with candidate := some c, candidateStates := r.candidateStates ++ [.proposed] }
  | candidate (current next : CandidateState) (receipt : Option Rollback) (live : r.Live)
    (state : r.candidateState = some current) (valid : validCandidateTransition current next = true)
    (gates : needsGates next = true → r.GatesPassed) (rejected : next = .rejected → receipt.isSome = true) :
    RunStep r { r with rollback := receipt, candidateStates := r.candidateStates ++ [next] }
  | issue (id : GoString) (n : Node) (l : Lease) (found : r.nodes.lookup id = some n)
    (fence : l.fence = maxFence n.leases + 1) :
    RunStep r { r with nodes := r.nodes.insert id { n with leases := n.leases ++ [l] } }

/-- The result of a leaf is recorded: for the first time, while the run is running, under the newest lease of the
leaf and before that lease expires. -/
structure Commits (r : Run) (id : GoString) (fence : Nat) (now : Int) (n : Node) (l : Lease) : Prop where
  running : r.state = some .running
  found : r.nodes.lookup id = some n
  fresh : n.result = none
  newest : currentLease n.leases = some l
  fence : l.fence = fence
  unexpired : now < l.expiresAtMs

def Run.recordResult (r : Run) (id : GoString) (n : Node) (result : LeafResult) : Run :=
  { r with nodes := r.nodes.insert id { n with result := some result } }

inductive KernelStep (r : Run) : Run → Prop
  | run (r' : Run) (h : RunStep r r') : KernelStep r r'
  | commit (id : GoString) (fence : Nat) (now : Int) (n : Node) (l : Lease) (result : LeafResult)
    (h : Commits r id fence now n l) : KernelStep r (r.recordResult id n result)

section Inversion

variable {r r' : Run} {s : RunState} {id receiptID bytes : GoString} {put : GoString → Option GoString}
  {rollback : Option RollbackReceipt} {nodes : GoMap GoString Node} {n : Node} {res : LeafResult} {u : Unit}
  {cfg : Config} {key : RunKey} {fence : Nat} {w : CommitWorld} {out : Commit}

theorem currentState_eq_ok_iff : r.currentState = .ok s ↔ r.state = some s := by
  unfold Run.currentState
  cases r.state <;> simp

theorem appendRunState_eq_ok_iff : r.appendRunState s = .ok r' ↔
      (∀ t ∈ r.states, terminalRunState t = false) ∧ r' = { r with states := r.states ++ [s] } := by
  simp only [Run.appendRunState, bind_eq_ok_iff, appendState_eq_ok_iff, Except.ok.injEq]
  constructor
  · rintro ⟨states, ⟨h, rfl⟩, rfl⟩
    exact ⟨h, rfl⟩
  · rintro ⟨h, rfl⟩
    exact ⟨_, ⟨h, rfl⟩, rfl⟩

theorem appendCandidateState_eq_ok_iff {s : CandidateState} :
    r.appendCandidateState s = .ok r' ↔
      (∀ t ∈ r.candidateStates, terminalCandidateState t = false) ∧
        r' = { r with candidateStates := r.candidateStates ++ [s] } := by
  simp only [Run.appendCandidateState, bind_eq_ok_iff, appendState_eq_ok_iff, Except.ok.injEq]
  constructor
  · rintro ⟨states, ⟨h, rfl⟩, rfl⟩
    exact ⟨h, rfl⟩
  · rintro ⟨h, rfl⟩
    exact ⟨_, ⟨h, rfl⟩, rfl⟩

theorem transition_step {next : RunState} (h : r.transition next = .ok (u, r')) : RunStep r r' := by
  simp only [Run.transition, bind_eq_ok_iff, guard_eq_ok_iff, currentState_eq_ok_iff,
    appendRunState_eq_ok_iff, Except.ok.injEq, Prod.mk.injEq, not_or, not_and, not_not] at h
  obtain ⟨current, hstate, ⟨-, hvalid⟩, hret, _, ⟨-, rfl⟩, -, rfl⟩ := h
  exact .advance current next hstate hvalid hret

theorem cancel_step (h : r.cancel = .ok (u, r')) : RunStep r r' := by
  simp only [Run.cancel, bind_eq_ok_iff, guard_eq_ok_iff, currentState_eq_ok_iff,
    appendRunState_eq_ok_iff, Except.ok.injEq, Prod.mk.injEq, Bool.not_eq_true] at h
  obtain ⟨current, hstate, hlive, _, ⟨-, rfl⟩, -, rfl⟩ := h
  refine .advance current .cancelled hstate ?_ (fun hc => by cases hc)
  simp [validRunTransition, hlive]

theorem recordGate_step {status : GateStatus} (h : r.recordGate id status = .ok (u, r')) : RunStep r r' := by
  simp only [Run.recordGate, bind_eq_ok_iff, guard_eq_ok_iff, currentState_eq_ok_iff,
    Bool.not_eq_true] at h
  obtain ⟨s, hstate, hlive, h⟩ := h
  split at h
  · cases h
  · next g hfound =>
    split at h
    · cases h
    · next current hcur =>
      split at h
      · split at h
        · cases h
          exact .same
        · cases h
      · simp only [guard_eq_ok_iff, bind_eq_ok_iff, appendState_eq_ok_iff, Except.ok.injEq,
          Prod.mk.injEq] at h
        obtain ⟨-, _, ⟨hunfinished, rfl⟩, -, rfl⟩ := h
        exact .gate id g status ⟨s, hstate, hlive⟩ hfound hunfinished

theorem propose_step {preview : Preview} (h : cfg.propose preview put r = .ok (u, r')) : RunStep r r' := by
  simp only [Config.propose, bind_eq_ok_iff, guard_eq_ok_iff, currentState_eq_ok_iff] at h
  obtain ⟨s, hstate, hrun, _, -, _, -, h⟩ := h
  have hlive : terminalRunState s = false := by
    cases s <;> simp_all [terminalRunState]
  split at h
  · cases h
  · simp only [bind_eq_ok_iff] at h
    obtain ⟨staged, -, h⟩ := h
    split at h
    · split at h
      · cases h
        exact .same
      · cases h
    · simp only [bind_eq_ok_iff, appendCandidateState_eq_ok_iff, Except.ok.injEq, Prod.mk.injEq] at h
      obtain ⟨_, ⟨hunfinished, rfl⟩, -, rfl⟩ := h
      exact .propose _ ⟨s, hstate, hlive⟩ hunfinished

theorem requireRequiredGatesPassed_eq_ok (h : r.requireRequiredGatesPassed = .ok u) : r.GatesPassed := by
  unfold Run.requireRequiredGatesPassed at h
  split at h
  · next hpassed =>
    intro id g hg hreq
    have hid : id ∈ r.requiredGates := by
      refine Finset.mem_filter.mpr ⟨GoMap.mem_keys_of_lookup hg, ?_⟩
      rw [hg]
      exact hreq
    have hst := hpassed.1 id hid
    rw [hg] at hst
    exact hst
  · cases h

theorem insertRollback_eq_ok (h : r.insertRollback receiptID rollback = .ok r') :
    ∃ receipt : Option Rollback, r' = { r with rollback := receipt } ∧
      (rollback.isSome = true → receipt.isSome = true) := by
  cases rollback with
  | none =>
    cases h
    exact ⟨r.rollback, rfl, fun hn => by cases hn⟩
  | some receipt =>
    simp only [Run.insertRollback, guard_eq_ok_iff, Except.ok.injEq] at h
    exact ⟨_, h.2.symm, fun _ => rfl⟩

theorem moveCandidate_step {next : CandidateState} (hrcpt : next = .rejected → rollback.isSome = true)
    (h : r.moveCandidate next receiptID rollback = .ok (u, r')) : RunStep r r' := by
  simp only [Run.moveCandidate, bind_eq_ok_iff, guard_eq_ok_iff, currentState_eq_ok_iff,
    Bool.not_eq_true] at h
  obtain ⟨s, hstate, hlive, h⟩ := h
  split at h
  · cases h
  · next current hcur =>
    simp only [bind_eq_ok_iff, guard_eq_ok_iff, appendCandidateState_eq_ok_iff, Except.ok.injEq,
      Prod.mk.injEq, Bool.not_eq_false] at h
    obtain ⟨hvalid, _, hgates, _, hrollback, _, ⟨-, rfl⟩, -, rfl⟩ := h
    obtain ⟨receipt, rfl, hsome⟩ := insertRollback_eq_ok hrollback
    refine .candidate current next receipt ⟨s, hstate, hlive⟩ hcur hvalid (fun hneeds => ?_)
      (fun hrej => hsome (hrcpt hrej))
    rw [Run.requireGatesFor, if_pos hneeds] at hgates
    exact requireRequiredGatesPassed_eq_ok hgates

theorem issue_step {holder : GoString} {expiresAtMs now : Int} {l : Lease}
    (h : Roster.issue cfg key id holder expiresAtMs now r.nodes = .ok (l, nodes)) :
    RunStep r { r with nodes := nodes } := by
  simp only [Roster.issue, guard_eq_ok_iff] at h
  replace h := h.2
  split at h
  · cases h
  · next n hfound =>
    obtain ⟨-, h⟩ := guard_eq_ok_iff.mp h
    cases h
    exact .issue id n _ hfound rfl

theorem stagePayload_digest {payload : GoString} {staged : Staged}
    (h : cfg.stagePayload put payload = .ok staged) : staged.digest = cfg.digestBytes payload := by
  simp only [Config.stagePayload, guard_eq_ok_iff] at h
  replace h := h.2
  split at h
  · cases h
  · obtain ⟨-, h⟩ := guard_eq_ok_iff.mp h
    cases h
    rfl

/-- Once a result is recorded, the roster answers with it to an exact retry under the lease that is still current,
and refuses everything else. -/
theorem commitResult_recorded {artifactID digest : GoString} {now committedAt : Int}
     {out : Commit × GoMap GoString Node} (hn : nodes.lookup id = some n) (hres : n.result = some res) :
    Roster.commitResult key id fence artifactID digest now committedAt nodes = .ok out ↔
      (printableID artifactID = true ∧ isHexDigest digest = true) ∧
      (∃ l, Roster.authorize key id fence now nodes = .ok l) ∧ res.fence = fence ∧ res.digest = digest ∧
        out = (⟨res, true⟩, nodes) := by
  simp only [Roster.commitResult, guard_eq_ok_iff, bind_eq_ok_iff, not_not, hn, hres]
  refine and_congr_right' ⟨?_, ?_⟩
  · rintro ⟨l, hauth, h⟩
    have hl := (Roster.authorize_eq_ok_iff.mp hauth).2.2.2.1
    split at h
    · next hsame =>
      cases h
      exact ⟨⟨l, hauth⟩, hsame.1.trans hl, hsame.2, rfl⟩
    · cases h
  · rintro ⟨⟨l, hauth⟩, hfence, hdig, rfl⟩
    have hl := (Roster.authorize_eq_ok_iff.mp hauth).2.2.2.1
    exact ⟨l, hauth, if_pos ⟨hfence.trans hl.symm, hdig⟩⟩

theorem commitLeaf_recorded {out : Commit × Run} (hn : r.nodes.lookup id = some n) (hres : n.result = some res) :
    cfg.commitLeaf key id fence bytes w r = .ok out ↔
      r.state = some .running ∧ (∃ l, Roster.authorize key id fence w.authorizedNow r.nodes = .ok l) ∧
        res.fence = fence ∧ res.digest = cfg.digestBytes bytes ∧ out = (⟨res, true⟩, r) := by
  simp only [Config.commitLeaf, Roster.lookupResult, bind_eq_ok_iff, guard_eq_ok_iff,
    currentState_eq_ok_iff, not_not, hn, hres, Option.bind_some]
  constructor
  · rintro ⟨s, hstate, rfl, l, hauth, h⟩
    split at h
    · next hsame =>
      cases h
      exact ⟨hstate, ⟨l, hauth⟩, hsame.1, hsame.2, rfl⟩
    · cases h
  · rintro ⟨hstate, ⟨l, hauth⟩, hfence, hdig, rfl⟩
    exact ⟨_, hstate, rfl, l, hauth, if_pos ⟨hfence, hdig⟩⟩

theorem commitLeaf_fresh (hn : r.nodes.lookup id = some n) (hres : n.result = none)
    (h : cfg.commitLeaf key id fence bytes w r = .ok (out, r')) :
    ∃ l, Commits r id fence w.commitNow n l ∧ key.valid = true ∧ printableID id = true ∧ fence ≠ 0 ∧
      out.result.fence = fence ∧ out.result.digest = cfg.digestBytes bytes ∧ r' = r.recordResult id n out.result := by
  simp only [Config.commitLeaf, Roster.lookupResult, bind_eq_ok_iff, guard_eq_ok_iff,
    currentState_eq_ok_iff, not_not, hn, hres, Option.bind_some, Except.ok.injEq, Prod.mk.injEq] at h
  obtain ⟨s, hstate, rfl, _, -, staged, hstaged, ⟨commit, nodes⟩, hcom, rfl, rfl⟩ := h
  simp only [Roster.commitResult, guard_eq_ok_iff, bind_eq_ok_iff, hn, hres] at hcom
  obtain ⟨-, l, hauth, hcom⟩ := hcom
  obtain ⟨hfence, hkey, hid, hl, hlive, n', hfound, hnewest⟩ := Roster.authorize_eq_ok_iff.mp hauth
  rw [hn] at hfound
  cases hfound
  cases hcom
  exact ⟨l, ⟨hstate, hn, hres, hnewest, hl, hlive⟩, hkey, hid, hfence, hl, stagePayload_digest hstaged, rfl⟩

/-- An accepted commit changes nothing, or records the result of its leaf. -/
theorem commitLeaf_cases (h : cfg.commitLeaf key id fence bytes w r = .ok (out, r')) :
    r' = r ∨ ∃ n l, Commits r id fence w.commitNow n l ∧ (key.valid = true ∧ printableID id = true ∧ fence ≠ 0) ∧
      out.result.fence = fence ∧ out.result.digest = cfg.digestBytes bytes ∧ r' = r.recordResult id n out.result := by
  have hauth := h
  simp only [Config.commitLeaf, bind_eq_ok_iff, guard_eq_ok_iff] at hauth
  obtain ⟨_, -, -, l, hauth, -⟩ := hauth
  obtain ⟨-, -, -, -, -, n, hn, -⟩ := Roster.authorize_eq_ok_iff.mp hauth
  cases hres : n.result with
  | some res =>
    obtain ⟨-, -, -, -, heq⟩ := (commitLeaf_recorded hn hres).mp h
    cases heq
    exact .inl rfl
  | none =>
    obtain ⟨l, hcom, hkey, hid, hfence, hout⟩ := commitLeaf_fresh hn hres h
    exact .inr ⟨n, l, hcom, ⟨hkey, hid, hfence⟩, hout⟩

theorem commitLeaf_step (h : cfg.commitLeaf key id fence bytes w r = .ok (out, r')) : KernelStep r r' := by
  rcases commitLeaf_cases h with rfl | ⟨n, l, hcom, -, -, -, rfl⟩
  · exact .run _ .same
  · exact .commit id fence w.commitNow n l out.result hcom

end Inversion

theorem dense_nil : Dense [] := rfl

variable {leases : List Lease} {key : RunKey} {r : Run} {α : Type} {c : Command} {cfg : Config} {w : AdmitWorld}
  {leaves : List LeafSpec} {rows : List (GoString × Node)} {request : AdmitRequest} {intent : Intent}
  {runID : GoString} {db db' : DB}

theorem maxFence_of_dense (h : Dense leases) : maxFence leases = leases.length := by
  have hmax : ∀ n k, (List.range' k (n + 1)).foldr max 0 = k + n := by
    intro n
    induction n with
    | zero => exact fun k => Nat.max_zero k
    | succ n ih =>
      intro k
      rw [List.range'_succ, foldr_cons, ih]
      exact (max_eq_right (by omega)).trans (by omega)
  unfold maxFence
  rw [show leases.map (·.fence) = _ from h]
  cases leases.length with
  | zero => rfl
  | succ n => rw [hmax, Nat.add_comm]

theorem Dense.append (h : Dense leases) {l : Lease} (hl : l.fence = maxFence leases + 1) : Dense (leases ++ [l]) := by
  rw [maxFence_of_dense h] at hl
  show (leases ++ [l]).map (·.fence) = _
  rw [map_append, show leases.map (·.fence) = _ from h, length_append, length_singleton,
    List.range'_concat, map_singleton, hl, Nat.one_mul, Nat.add_comm]

/-- What holds of every row and survives a new lease holds after all leases are issued. -/
theorem issueLeases_rows {P : GoString → Node → Prop}
    (hstep : ∀ id n l, l.fence = maxFence n.leases + 1 → P id n → P id { n with leases := n.leases ++ [l] })
    {nodes nodes' : GoMap GoString Node} (h : cfg.issueLeases key w leaves nodes = .ok nodes')
    (hnodes : ∀ id n, nodes.lookup id = some n → P id n) : ∀ id n, nodes'.lookup id = some n → P id n := by
  induction leaves generalizing nodes with
  | nil =>
    cases h
    exact hnodes
  | cons leaf leaves ih =>
    obtain ⟨⟨l, nodes₁⟩, hissue, h⟩ := bind_eq_ok_iff.mp h
    refine ih h fun id n hn => ?_
    simp only [Roster.issue, guard_eq_ok_iff] at hissue
    replace hissue := hissue.2
    split at hissue
    · cases hissue
    · next n₀ hfound =>
      obtain ⟨-, hissue⟩ := guard_eq_ok_iff.mp hissue
      cases hissue
      rw [GoMap.lookup_insert_eq] at hn
      split_ifs at hn with hid
      · cases hn
        exact hstep id n₀ _ rfl (hid ▸ hnodes _ _ hfound)
      · exact hnodes id n hn

/-- The rows of a new run: no leases are issued yet, and those of leaves are as they were asked for. -/
def NewRow (leaves : List LeafSpec) (row : GoString × Node) : Prop := row.2.Fresh ∧ row.2.FromSpec leaves row.1

theorem newRow_leafRows {i : Nat} (h : cfg.leafRows w i leaves = .ok rows) : ∀ row ∈ rows, NewRow leaves row := by
  induction leaves generalizing i rows with
  | nil =>
    cases h
    simp
  | cons leaf leaves ih =>
    simp only [Config.leafRows, bind_eq_ok_iff, Except.ok.injEq] at h
    obtain ⟨staged, -, rows, hrows, rfl⟩ := h
    refine forall_mem_cons.mpr ⟨⟨⟨rfl, dense_nil⟩, fun _ => ⟨leaf, .head _, rfl, rfl, rfl⟩⟩, fun row hrow => ?_⟩
    refine ⟨(ih hrows row hrow).1, fun hkind => ?_⟩
    obtain ⟨leaf', hleaf', hspec⟩ := (ih hrows row hrow).2 hkind
    exact ⟨leaf', .tail _ hleaf', hspec⟩

theorem newRow_nodeRows (h : cfg.nodeRows request intent runID w = .ok rows) :
    ∀ row ∈ rows, NewRow request.leaves row := by
  simp only [Config.nodeRows, bind_eq_ok_iff] at h
  obtain ⟨orchestrator, -, leaves, hleaves, h⟩ := h
  have hhead : ∀ row ∈ (orchestratorNodeID, planNode .orchestrator orchestrator [] []) :: leaves,
      NewRow request.leaves row :=
    forall_mem_cons.mpr ⟨⟨⟨rfl, dense_nil⟩, fun hkind => NodeKind.noConfusion hkind⟩, newRow_leafRows hleaves⟩
  split at h
  · simp only [bind_eq_ok_iff, Except.ok.injEq] at h
    obtain ⟨review, -, rfl⟩ := h
    refine forall_mem_append.mpr ⟨hhead, forall_mem_singleton.mpr ⟨⟨rfl, dense_nil⟩, ?_⟩⟩
    exact fun hkind => NodeKind.noConfusion hkind
  · cases h
    exact hhead

/-- Admission opens a run in `PLANNING` with one required gate of each kind and the leaves it was asked for. -/
theorem opened_openRun {encoded : GoString} {scope : List GoString}
    (hleaves : cfg.validateLeafSpecs request.leaves scope = .ok ())
    (h : cfg.openRun request intent encoded w = .ok (runID, r)) : cfg.Opened r := by
  simp only [Config.openRun, bind_eq_ok_iff, guard_eq_ok_iff, Except.ok.injEq, Prod.mk.injEq] at h
  obtain ⟨rows, hrows, _, -, _, -, -, -, nodes, hnodes, gates, hgates, nodes', hissue, rfl, rfl⟩ := h
  have hmem : ∀ id n, nodes.lookup id = some n → (id, n) ∈ rows := by
    intro id n hn
    rcases (Ledger.lookup_insertAll hnodes _ _).mp hn with hn | hn
    · simp at hn
    · exact hn
  refine ⟨⟨rfl, fun kind => ?_, rfl, rfl, ?_⟩, request.leaves, scope, hleaves, ?_⟩
  · have hkind : kind ∈ GateKind.all := by cases kind <;> decide
    have hrow := (Ledger.lookup_insertAll hgates _ _).mpr (.inr (mem_map.mpr ⟨kind, hkind, rfl⟩))
    exact ⟨_, _, hrow, rfl, rfl⟩
  · refine issueLeases_rows (fun id n l hl hn => ?_) hissue fun id n hn => (newRow_nodeRows hrows _ (hmem id n hn)).1
    exact ⟨hn.1, hn.2.append hl⟩
  · exact issueLeases_rows (fun id n l _ hn => hn) hissue fun id n hn => (newRow_nodeRows hrows _ (hmem id n hn)).2

/-- What a command does to the database: a run is opened or goes a step, and an idempotency row is
written once. -/
structure DB.Moves (cfg : Config) (Step : Run → Run → Prop) (db db' : DB) : Prop where
  runs : Ledger.Change cfg.Opened Step db.runs db'.runs
  rows : Ledger.Change (fun _ => True) (fun _ _ => False) db.idempotency db'.idempotency

theorem onRun_change {who : Identity} {f : Run → Except Err (α × Run)}
    {Init : Run → Prop} {Step : Run → Run → Prop} {a : α} (hf : ∀ r a r', f r = .ok (a, r') → Step r r')
    (h : db.onRun who runID f = .ok (a, db')) :
    Ledger.Change Init Step db.runs db'.runs ∧ db'.idempotency = db.idempotency := by
  unfold DB.onRun at h
  split at h
  · cases h
  · next r hfound =>
    simp only [bind_eq_ok_iff, Except.ok.injEq, Prod.mk.injEq] at h
    obtain ⟨⟨a', r'⟩, hstep, -, rfl⟩ := h
    exact ⟨.evolve _ r r' hfound (hf r a' r' hstep), rfl⟩

theorem onRun_moves {who : Identity} {f : Run → Except Err (α × Run)} {Step : Run → Run → Prop} {a : α}
    (hf : ∀ r a r', f r = .ok (a, r') → Step r r') (h : db.onRun who runID f = .ok (a, db')) :
    db.Moves cfg Step db' := by
  obtain ⟨hruns, hrows⟩ := onRun_change hf h
  exact ⟨hruns, hrows ▸ .same⟩

theorem admit_moves {out : AdmitResult} (h : cfg.admitChangeIntent db request w = .ok (out, db')) :
    db.Moves cfg RunStep db' := by
  unfold Config.admitChangeIntent at h
  split at h
  · cases h
  · simp only [guard_eq_ok_iff, bind_eq_ok_iff] at h
    obtain ⟨-, -, -, _, -, _, hleaves, h⟩ := h
    split at h
    · cases h
    · split at h
      · obtain ⟨-, h⟩ := guard_eq_ok_iff.mp h
        cases h
        exact ⟨.same, .same⟩
      · next hnone =>
        simp only [guard_eq_ok_iff, bind_eq_ok_iff, Except.ok.injEq, Prod.mk.injEq] at h
        obtain ⟨-, -, ⟨runID, r⟩, hopen, runs, hruns, -, rfl⟩ := h
        obtain ⟨hfresh, rfl⟩ := Ledger.insertNew_eq_ok_iff.mp hruns
        exact ⟨.create _ r hfresh (opened_openRun hleaves hopen), .create _ _ hnone trivial⟩

theorem cancel_moves {request : CancelRequest} {allowed : Bool} {out : CancelResult}
    (h : cfg.cancelChangeRun db request allowed = .ok (out, db')) : db.Moves cfg RunStep db' := by
  unfold Config.cancelChangeRun at h
  simp only [guard_eq_ok_iff] at h
  replace h := h.2.2.2
  split at h
  · obtain ⟨-, h⟩ := guard_eq_ok_iff.mp h
    cases h
    exact ⟨.same, .same⟩
  · next hnone =>
    simp only [bind_eq_ok_iff, Except.ok.injEq, Prod.mk.injEq] at h
    obtain ⟨⟨u, db₁⟩, hcancel, -, rfl⟩ := h
    obtain ⟨hruns, hrows⟩ := onRun_change (fun _ _ _ => cancel_step) hcancel
    rw [← hrows] at hnone
    exact ⟨hruns, hrows ▸ .create _ _ hnone trivial⟩

theorem map_snd_eq_ok {x : Except Err (α × DB)} (h : (·.2) <$> x = Except.ok db) : ∃ a, x = .ok (a, db) := by
  cases x with
  | error e => cases h
  | ok out =>
    cases h
    exact ⟨out.1, rfl⟩

def Command.Quiet : Command → Prop
  | .commitLeaf .. => False
  | _ => True

theorem quiet_moves (hc : c.Quiet) (h : cfg.execute db c = .ok db') : db.Moves cfg RunStep db' := by
  cases c with
  | admitIntent request w =>
    obtain ⟨out, h⟩ := map_snd_eq_ok h
    exact admit_moves h
  | transitionRun who runID next =>
    obtain ⟨u, h⟩ := map_snd_eq_ok h
    unfold transitionRun at h
    split at h
    · cases h
    · exact onRun_moves (fun _ _ _ => transition_step) (guard_eq_ok_iff.mp h).2
  | cancel request allowed =>
    obtain ⟨out, h⟩ := map_snd_eq_ok h
    exact cancel_moves h
  | recordGate who runID gateID status =>
    obtain ⟨u, h⟩ := map_snd_eq_ok h
    unfold recordGateResult at h
    split at h
    · cases h
    · exact onRun_moves (fun _ _ _ => recordGate_step) (guard_eq_ok_iff.mp h).2
  | propose who runID preview put =>
    obtain ⟨u, h⟩ := map_snd_eq_ok h
    unfold Config.proposeCandidate at h
    split at h
    · cases h
    · exact onRun_moves (fun _ _ _ => propose_step) (guard_eq_ok_iff.mp h).2
  | transitionCandidate who runID next rollback =>
    obtain ⟨u, h⟩ := map_snd_eq_ok h
    unfold Config.transitionCandidate at h
    split at h
    · cases h
    · simp only [guard_eq_ok_iff, ne_eq, not_not] at h
      obtain ⟨-, hrcpt, -, h⟩ := h
      exact onRun_moves (fun _ _ _ => moveCandidate_step (fun hr => hrcpt ▸ hr)) h
  | issue key nodeID holder expiresAtMs now =>
    obtain ⟨l, h⟩ := map_snd_eq_ok h
    unfold Config.issueLease at h
    split at h
    · cases h
    · next r hfound =>
      simp only [bind_eq_ok_iff, Except.ok.injEq, Prod.mk.injEq] at h
      obtain ⟨⟨l', nodes⟩, hissue, -, rfl⟩ := h
      exact ⟨.evolve _ r _ hfound (issue_step hissue), .same⟩
  | commitLeaf who runID nodeID fence result w => exact hc.elim

theorem step_quiet (cfg : Config) (db : DB) (hc : c.Quiet) : db.Moves cfg RunStep (cfg.step db c) := by
  unfold Config.step
  cases h : cfg.execute db c with
  | ok db' => exact quiet_moves hc h
  | error e => exact ⟨.same, .same⟩

theorem DB.Moves.kernel (h : db.Moves cfg RunStep db') : db.Moves cfg KernelStep db' :=
  ⟨h.runs.mono fun _ => KernelStep.run, h.rows⟩

theorem step_moves (cfg : Config) (db : DB) (c : Command) : db.Moves cfg KernelStep (cfg.step db c) := by
  cases c with
  | commitLeaf who runID nodeID fence result w =>
    unfold Config.step
    cases h : cfg.execute db (.commitLeaf who runID nodeID fence result w) with
    | ok db' =>
      obtain ⟨out, h⟩ := map_snd_eq_ok h
      exact onRun_moves (fun _ _ _ => commitLeaf_step) (guard_eq_ok_iff.mp h).2
    | error e => exact ⟨.same, .same⟩
  | _ =>
    refine (step_quiet cfg db ?_).kernel
    trivial

theorem step_change (cfg : Config) (db : DB) (c : Command) :
    Ledger.Change cfg.Opened KernelStep db.runs (cfg.step db c).runs :=
  (step_moves cfg db c).runs

theorem run_concat (cfg : Config) (history : List Command) (c : Command) :
    cfg.run (history ++ [c]) = cfg.step (cfg.run history) c := by
  unfold Config.run
  rw [foldl_append]
  rfl

theorem steps_run (cfg : Config) (history later : List Command) (hr : (cfg.run history).runs.lookup key = some r) :
    ∃ r', (cfg.run (history ++ later)).runs.lookup key = some r' ∧ Relation.ReflTransGen KernelStep r r' := by
  unfold Config.run
  rw [foldl_append]
  exact Ledger.evolves_run (step_change cfg) (cfg.run history) later hr

end CodeMemory.Factory
