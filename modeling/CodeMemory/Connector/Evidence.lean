import CodeMemory.Connector.Kernel

/-! What an answer for an opaque scope rests on, whatever ran between the sections of
the query: a connection that is active now was active, with the same epoch, at every
earlier moment, since revocation and purge are final. -/

namespace CodeMemory.Connector

open Lib Lib.GoString

def Kernel.Filed (k : Kernel) : Prop := ∀ id conn, k.conns.lookup id = some conn → conn.id = id

/-- What is active afterwards was active before, with the same epoch. -/
def Kernel.Precedes (k k' : Kernel) : Prop :=
  ∀ identity id conn', k'.lookupActive identity id = some conn' →
    ∃ conn, k.lookupActive identity id = some conn ∧ conn.aclEpoch = conn'.aclEpoch

theorem Kernel.Precedes.refl (k : Kernel) : k.Precedes k := fun _ _ conn h => ⟨conn, h, rfl⟩

theorem Kernel.Precedes.trans {k₁ k₂ k₃ : Kernel} (h : k₁.Precedes k₂) (h' : k₂.Precedes k₃) : k₁.Precedes k₃ := by
  intro identity id conn₃ hconn₃
  obtain ⟨conn₂, hconn₂, hepoch₂⟩ := h' identity id conn₃ hconn₃
  obtain ⟨conn₁, hconn₁, hepoch₁⟩ := h identity id conn₂ hconn₂
  exact ⟨conn₁, hconn₁, hepoch₁.trans hepoch₂⟩

section Lifecycle

variable {k : Kernel}

def Connection.Active (conn : Connection) : Prop := conn.state ≠ .revoked ∧ conn.state ≠ .purged

theorem lookupActive_eq_some {identity : Identity} {id : GoString} {conn : Connection} :
    k.lookupActive identity id = some conn ↔
      k.conns.lookup id = some conn ∧ (conn.tenant = identity.tenant ∧ conn.principal = identity.principal) ∧
        conn.Active := by
  unfold Kernel.lookupActive Connection.Active
  cases k.conns.lookup id with
  | none => simp
  | some c =>
    grind

/-- Another version of a connection that is active only if the connection was, with the same epoch then. -/
structure Connection.Follows (conn next : Connection) : Prop where
  id : next.id = conn.id
  owner : next.tenant = conn.tenant ∧ next.principal = conn.principal
  active : next.Active → conn.Active ∧ conn.aclEpoch = next.aclEpoch

/-- What a section of the lifecycle makes of the kernel. -/
inductive Kernel.Updates (k : Kernel) : Kernel → Prop
  | same : Kernel.Updates k k
  | connection (id : GoString) (conn next : Connection) (idem : GoMap GoString IdempotencyRow)
    (found : k.conns.lookup id = some conn) (follows : conn.Follows next) :
    Kernel.Updates k ⟨k.conns.insert id next, idem⟩

theorem Kernel.Updates.precedes {k' : Kernel} (h : k.Updates k') : k.Precedes k' := by
  cases h with
  | same => exact .refl k
  | connection id conn next idem found follows =>
    intro identity id' conn' hconn'
    obtain ⟨hlookup, howner, hact⟩ := lookupActive_eq_some.mp hconn'
    rw [GoMap.lookup_insert_eq] at hlookup
    split_ifs at hlookup with hid
    · cases hlookup
      subst hid
      rw [follows.owner.1, follows.owner.2] at howner
      exact ⟨conn, lookupActive_eq_some.mpr ⟨found, howner, (follows.active hact).1⟩, (follows.active hact).2⟩
    · exact ⟨conn', lookupActive_eq_some.mpr ⟨hlookup, howner, hact⟩, rfl⟩

theorem Kernel.Updates.filed {k' : Kernel} (h : k.Updates k') (hk : k.Filed) : k'.Filed := by
  cases h with
  | same => exact hk
  | connection id conn next idem found follows =>
    intro id' conn' hconn'
    rw [GoMap.lookup_insert_eq] at hconn'
    split_ifs at hconn' with hid
    · cases hconn'
      rw [follows.id, hk id conn found, hid]
    · exact hk id' conn' hconn'

theorem admitPage_follows {conn : Connection} (hact : conn.Active) (page : SnapshotPage) :
    conn.Follows (conn.admitPage page).2 := by
  unfold Connection.admitPage
  split
  · exact ⟨rfl, ⟨rfl, rfl⟩, fun _ => ⟨hact, rfl⟩⟩
  · exact ⟨rfl, ⟨rfl, rfl⟩, fun _ => ⟨hact, rfl⟩⟩

variable (cfg : Config)

theorem reconcileConnector_updates (command : ReconcileCommand) (delta : Option SnapshotPage) :
    k.Updates (reconcileConnector cfg command delta k).2 := by
  simp only [reconcileConnector]
  split
  · split
    · exact .same
    · split
      · exact .same
      · exact .same
  · split
    · exact .same
    · next conn hconn =>
      split
      · exact .same
      · split
        · exact .same
        · obtain ⟨hlookup, -, hact⟩ := lookupActive_eq_some.mp hconn
          exact .connection _ conn _ _ hlookup (admitPage_follows hact _)

theorem endConnector_updates {op digest : GoString} {settled : ConnectionState → Bool} {ends : Connection → Connection}
    {success : GoString → ℕ → Result} (hends : ∀ conn : Connection, conn.Follows (ends conn))
    (command : LifecycleCommand) :
    k.Updates (endConnector op digest settled ends success command k).2 := by
  simp only [endConnector]
  split
  · split
    · exact .same
    · split
      · exact .same
      · split
        · exact .same
        · split
          · exact .same
          · exact .same
  · split
    · exact .same
    · next conn hconn =>
      split
      · exact .same
      · split
        · exact .same
        · exact .connection _ conn _ _ hconn (hends conn)

theorem revokeConnector_updates (command : LifecycleCommand) : k.Updates (revokeConnector cfg command k).2 := by
  refine endConnector_updates (fun conn => ?_) command
  exact ⟨rfl, ⟨rfl, rfl⟩, fun h => absurd rfl h.1⟩

theorem purgeConnector_updates (command : LifecycleCommand) : k.Updates (purgeConnector cfg command k).2 := by
  refine endConnector_updates (fun conn => ?_) command
  exact ⟨rfl, ⟨rfl, rfl⟩, fun h => absurd rfl h.2⟩

end Lifecycle

section Query

variable (cfg : Config)

/-- The objects of a basis are, in the connection, present, not deleted, a match, and of those submitted the ones that
the gate selects. -/
def Basis.Live (basis : Basis) (gate : Gate) (conn : Connection) : Prop :=
  ∀ obj ∈ basis.support, conn.objects.lookup obj.id = some obj ∧ obj.deleted = false ∧
    objectMatchesQuery cfg obj basis.query = true ∧ obj ∈ basis.submitted ∧ obj ∈ gate.selects basis.submitted

/-- What a query returned rests on the states it overlapped, the newest first. -/
def Rests (command : QueryCommand) (gate : Gate) (h : List Kernel) : Result → Prop
  | .delegated success basis => ∃ now t conn, h = now :: t ∧
      now.lookupActive command.identity (command.connectionID.getD []) = some conn ∧ conn.aclEpoch = basis.aclEpoch ∧
      basis.query = cfg.toLower (trimSpace command.query) ∧ basis.Live cfg gate conn ∧
      success.answer.claim = (buildAnswer cfg conn basis.support basis.query).claim ∧
      success.answer.prose = (buildAnswer cfg conn basis.support basis.query).prose
  | .evidence success => success.answer.claim = none ∨ ∃ k ∈ h, ∃ conn,
      k.lookupActive command.identity (command.connectionID.getD []) = some conn ∧
      cfg.opaqueScope conn.sourceScope = false
  | _ => True

variable {cfg} {command : QueryCommand} {gate : Gate}

theorem stillLive_live {conn : Connection} {query : GoString} {epoch : UInt64} {submitted : List Object} :
    (Basis.mk query epoch submitted (stillLive cfg conn query (gate.selects submitted))).Live cfg gate conn := by
  intro obj hobj
  simp only [stillLive, List.mem_filter, Bool.and_eq_true, decide_eq_true_eq] at hobj
  obtain ⟨hgated, hlookup, hmatch⟩ := hobj
  have hdeleted : obj.deleted = false := by
    simp only [objectMatchesQuery, Bool.and_eq_true, Bool.not_eq_true'] at hmatch
    exact hmatch.1
  exact ⟨hlookup, hdeleted, hmatch, (gate.selects_subperm submitted).subset hgated, hgated⟩

theorem degrade_claim (answer : Answer) (reasons : List GoString) : (answer.degrade reasons).claim = answer.claim := by
  unfold Answer.degrade
  split
  · rfl
  · rfl

theorem degrade_prose (answer : Answer) (reasons : List GoString) : (answer.degrade reasons).prose = answer.prose := by
  unfold Answer.degrade
  split
  · rfl
  · rfl

theorem release_rests {c : Captured} (hc : c.connectionID = command.connectionID.getD [])
    (submitted : List Object) (k : Kernel) (t : List Kernel) :
    Rests cfg command gate (k :: t)
      (release cfg command gate (cfg.toLower (trimSpace command.query)) c submitted k) := by
  simp only [release, hc]
  split
  · trivial
  · next conn hconn =>
    split
    · trivial
    · next hepoch =>
      split
      · exact .inl rfl
      · split
        · exact .inl rfl
        · exact ⟨k, t, conn, rfl, hconn, not_not.mp hepoch, rfl, stillLive_live, degrade_claim _ _, degrade_prose _ _⟩

theorem queryConnectorEvidence_ensures (cfg : Config) (command : QueryCommand) (gate : Gate) (s : Kernel) :
    (queryConnectorEvidence cfg command gate).Ensures (.free Kernel.Filed Kernel.Precedes)
      (fun _ result h => Rests cfg command gate h result) 0 [s] := by
  unfold queryConnectorEvidence
  split
  swap
  · trivial
  refine .bind (.asks Kernel.Precedes.refl fun s₁ h₁ _ hfiled answers₁ => ?_)
  cases hcap : capture cfg command (cfg.toLower (trimSpace command.query)) answers₁ s₁ with
  | inl result =>
    unfold capture at hcap
    split at hcap
    · cases hcap
      trivial
    · next conn hconn =>
      split at hcap
      · cases hcap
      · next hplain =>
        cases hcap
        exact .inr ⟨s₁, (.head _), conn, hconn, by simpa using hplain⟩
  | inr captured =>
    have hid : captured.connectionID = command.connectionID.getD [] := by
      unfold capture at hcap
      split at hcap
      · cases hcap
      · next conn hconn =>
        split at hcap
        · cases hcap
          exact hfiled _ conn (lookupActive_eq_some.mp hconn).1
        · cases hcap
    refine .bind (.asks Kernel.Precedes.refl fun s₂ h₂ _ _ answers₂ => ?_)
    cases henum : enumerate cfg command (cfg.toLower (trimSpace command.query)) captured answers₂ s₂ with
    | inl result =>
      unfold enumerate at henum
      split at henum
      · cases henum
        trivial
      · split at henum
        · cases henum
          trivial
        · split at henum
          · cases henum
            exact .inl rfl
          · cases henum
    | inr submitted =>
      exact .asks Kernel.Precedes.refl fun s₃ h₃ _ _ _ => release_rests hid submitted s₃ (s₃ :: h₃)

end Query

/-- What the states are that a call overlapped: each precedes the last. -/
def Settles (cfg : Config) : Request → Result → List Kernel → Prop
  | .query command gate, result, h => Rests cfg command gate h result ∧ ∀ now t, h = now :: t → ∀ k ∈ h, k.Precedes now
  | _, _, _ => True

theorem routine_ensures (cfg : Config) (q : Request) (s : Kernel) :
    (routine cfg q).Ensures (.free Kernel.Filed Kernel.Precedes) (fun _ => Settles cfg q) 0 [s] := by
  cases q with
  | reconcile command =>
    simp only [routine]
    split
    · refine .atomic fun k h' _ hfiled _ answers => ?_
      have hupd : k.Updates _ := reconcileConnector_updates cfg command answers.page
      exact ⟨hupd.filed hfiled, hupd.precedes, trivial⟩
    · trivial
  | revoke command =>
    simp only [routine]
    split
    · refine .atomic fun k h' _ hfiled _ answers => ?_
      have hupd : k.Updates _ := revokeConnector_updates cfg command
      exact ⟨hupd.filed hfiled, hupd.precedes, trivial⟩
    · trivial
  | purge command =>
    simp only [routine]
    split
    · refine .atomic fun k h' _ hfiled _ answers => ?_
      have hupd : k.Updates _ := purgeConnector_updates cfg command
      exact ⟨hupd.filed hfiled, hupd.precedes, trivial⟩
    · trivial
  | query command gate =>
    have hquery := (queryConnectorEvidence_ensures cfg command gate s).grows Kernel.Precedes (fun _ _ _ _ h => h)
      (fun _ _ h => h) (Nat.zero_le 0)
    refine hquery.mono fun n result h hpost => ⟨hpost.1, fun now t hnow k hk => ?_⟩
    have hordered := hpost.2.pairwise (fun _ _ _ => .trans) (List.pairwise_singleton _ s)
    rw [hnow] at hordered hk
    rcases List.mem_cons.mp hk with rfl | hk
    · exact .refl k
    · exact (List.pairwise_cons.mp hordered).1 k hk

/-- An answer for an opaque scope uses only objects that are live, matching and selected by the gate. In every
interleaving of queries, reconciliations, revocations and purges, from any kernel and with any gate: the objects of a
delegated answer are, in the state in which it is built, in the connection, not deleted, a match, and equal to what was
submitted, and the gate selects them of what was submitted; the connection was active with one epoch in every state
since the call began; and no other answer of a query cites anything of a scope that was opaque when it was first
read. -/
theorem delegated_answers_live (cfg : Config) (k : Kernel) (hk : k.Filed) (es : List (Routine.Event Request Answers))
    (command : QueryCommand) (gate : Gate) (result : Result) (seen : List Kernel)
    (hreturn : ⟨.query command gate, result, seen⟩ ∈ ((Routine.System.start k).run (fun _ => routine cfg) es).returns) :
    (∀ success basis, result = .delegated success basis →
      (∃ now t conn, seen = now :: t ∧
        now.lookupActive command.identity (command.connectionID.getD []) = some conn ∧ basis.Live cfg gate conn ∧
        basis.query = cfg.toLower (trimSpace command.query) ∧
        success.answer.claim = (buildAnswer cfg conn basis.support basis.query).claim ∧
        success.answer.prose = (buildAnswer cfg conn basis.support basis.query).prose) ∧
      ∀ moment ∈ seen, ∃ conn,
        moment.lookupActive command.identity (command.connectionID.getD []) = some conn ∧
        conn.aclEpoch = basis.aclEpoch) ∧
    ∀ success, result = .evidence success → success.answer.claim = none ∨
      ∃ moment ∈ seen, ∃ conn, moment.lookupActive command.identity (command.connectionID.getD []) = some conn ∧
        cfg.opaqueScope conn.sourceScope = false := by
  have hsound := Routine.System.Sound.run_free (fun _ q s _ => routine_ensures cfg q s) hk es
  obtain ⟨hrests, hprecede⟩ := hsound.returned _ hreturn
  refine ⟨fun success basis hres => ?_, fun success hres => ?_⟩
  · subst hres
    obtain ⟨now, t, conn, hnow, hact, hepoch, hquery, hlive, hclaim, hprose⟩ := hrests
    refine ⟨⟨now, t, conn, hnow, hact, hlive, hquery, hclaim, hprose⟩, fun moment hmoment => ?_⟩
    obtain ⟨conn', hact', hepoch'⟩ := hprecede now t hnow moment hmoment _ _ conn hact
    exact ⟨conn', hact', hepoch'.trans hepoch⟩
  · subst hres
    exact hrests

/-- A source whose scopes are all opaque. -/
def sampleConfig : Config := ⟨id, id, fun _ => true⟩

def sampleIdentity : Identity := ⟨lit "t", lit "p", lit "s"⟩

def sampleObject (id title : String) : Object := ⟨lit id, .file, lit title, [], [], 0, 0, 0, [], false⟩

def sampleKernel : Kernel where
  conns := (∅ : GoMap GoString Connection).insert (lit "c")
    { id := lit "c", tenant := lit "t", principal := lit "p", owner := [], repo := [], sourceScope := [],
      state := .ready
      cursor := lit "1", sourceRevision := [], connectorDigest := [], observedAt := none, aclEpoch := 1, lastError := []
      objects := (((∅ : GoMap GoString Object).insert (lit "a") (sampleObject "a" "go")).insert (lit "b")
        (sampleObject "b" "go")).insert (lit "d") (sampleObject "d" "go") }
  idem := ∅

def sampleQuery : QueryCommand := ⟨sampleIdentity, some (lit "c"), lit "go", lit "k"⟩

/-- A gate that denies one object. -/
def sampleGate : Gate where
  selects objects := objects.filter fun obj => obj.id ≠ lit "d"
  reasons _ := [lit "delegated_partial"]
  abstain _ := none
  selects_subperm _ := List.filter_sublist.subperm

def sampleReconcile : ReconcileCommand := ⟨sampleIdentity, some (lit "c"), lit "1", lit "k", lit "r"⟩

def samplePage : SnapshotPage :=
  ⟨lit "2", lit "r", List.replicate 64 0x61, some 1, [sampleObject "b" "go 2"], true, []⟩

/-- A reconciliation runs between the enumeration and the release. -/
def sampleRun : List (Routine.Event Request Answers) :=
  [.call (.query sampleQuery sampleGate), .resume 0 ⟨none, [], none⟩, .resume 0 ⟨none, [], none⟩,
    .call (.reconcile sampleReconcile), .resume 1 ⟨some samplePage, [], none⟩, .resume 0 ⟨none, [], none⟩]

def Result.basis? : Result → Option Basis
  | .delegated _ basis => some basis
  | _ => none

def sampleReturns : List (Routine.Return Request Kernel Result) :=
  ((Routine.System.start sampleKernel).run (fun _ => routine sampleConfig) sampleRun).returns

/-- Of three objects the gate denies one and a reconciliation replaces another; the answer uses the third. -/
theorem delegated_answers_live_reconciled :
    ∃ r ∈ sampleReturns, ∃ basis, r.result.basis? = some basis ∧
      (basis.submitted, basis.support) =
        ([sampleObject "a" "go", sampleObject "b" "go", sampleObject "d" "go"], [sampleObject "a" "go"]) ∧
      sampleObject "a" "go" ∈ sampleGate.selects basis.submitted ∧
      ∀ moment ∈ r.seen, ∃ conn,
        moment.lookupActive sampleIdentity (lit "c") = some conn ∧ conn.aclEpoch = basis.aclEpoch := by
  have hfiled : sampleKernel.Filed := by
    intro id conn hconn
    rw [sampleKernel, GoMap.lookup_insert_eq] at hconn
    split_ifs at hconn with hid
    · cases hconn
      exact hid.symm
    · simp at hconn
  have hrequest : (sampleReturns[1]?).map (·.request) = some (.query sampleQuery sampleGate) := rfl
  have hresult : ((sampleReturns[1]?).bind (·.result.basis?)).map (fun basis => (basis.submitted, basis.support)) =
      some ([sampleObject "a" "go", sampleObject "b" "go", sampleObject "d" "go"], [sampleObject "a" "go"]) := by
    decide +kernel
  obtain ⟨⟨request, result, seen⟩, hr, rfl⟩ := Option.map_eq_some_iff.mp hrequest
  rw [hr] at hresult
  obtain ⟨basis, hbasis, hlists⟩ := Option.map_eq_some_iff.mp hresult
  have hmem := List.mem_of_getElem? hr
  refine ⟨_, hmem, basis, hbasis, hlists, ?_⟩
  have hanswer := (delegated_answers_live sampleConfig sampleKernel hfiled sampleRun sampleQuery sampleGate result seen
    hmem).1
  cases result with
  | delegated success basis' =>
    cases hbasis
    obtain ⟨⟨_, _, _, -, -, hlive, -⟩, hactive⟩ := hanswer success basis rfl
    have hsupport : sampleObject "a" "go" ∈ basis.support := by
      rw [(Prod.mk.inj hlists).2]
      exact .head _
    exact ⟨(hlive _ hsupport).2.2.2.2, hactive⟩
  | _ => cases hbasis

end CodeMemory.Connector
