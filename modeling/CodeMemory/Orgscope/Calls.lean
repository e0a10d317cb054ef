import CodeMemory.Lib.Routine
import CodeMemory.Orgscope.Store

/-! The calls on a tenant's directory, authority and store, cut at the three mutexes.
A grant is written and the epoch raised while the authority is locked, and nothing reads
grants without that lock, so the two are one section. A read makes up to four passes over
its candidates, each of which resolves every candidate in up to four passes of its own. -/

namespace CodeMemory.Orgscope

open Lib Lib.GoString

/-- The state behind the three mutexes and the clock. Two fields only note what the calls did: `served` which version of
an item a query returned to which principal, and `lifting` the number of the call that is to take a fence away again. -/
structure World where
  directory : Directory
  authority : Authority
  store : Store
  now : Int
  served : List (PrincipalKey × Item)
  lifting : GoMap Fence ℕ

def World.epoch (w : World) : ℕ := w.directory.epoch

def World.new (now : Int) : World := ⟨⟨0, ∅, ∅, ∅, ∅⟩, ⟨∅, ∅⟩, Store.new, now, [], ∅⟩

inductive Request where
  | tick (now : Int)
  | provision (userID : GoString)
  | deprovision (userID : GoString)
  | ensureGroup (groupID : GoString)
  | deleteGroup (groupID : GoString)
  | addMember (groupID userID : GoString)
  | removeMember (groupID userID : GoString)
  | grant (g : Grant)
  | revoke (subject : GoString) (scope : Scope)
  | deny (userID : GoString) (scope : Scope)
  | put (item : Item)
  | erase (reason : GoString) (ids : List GoString)
  | eraseScope (reason : GoString) (scope : Scope)
  | eraseOwner (reason userID : GoString)
  | rebuildProjections
  | restore (b : Backup)
  | query (p : Principal) (query : GoString)
  | searchClaims (p : Principal) (query : GoString)
  | history (p : Principal)
  | graph (p : Principal)
  | replay (p : Principal)
  deriving DecidableEq

/-- What a read returns: it cites the items, for the incarnation of the principal it was authorized for and at a policy
epoch. The candidates are what it chose the items from. -/
structure Reading where
  key : PrincipalKey
  items : List Item
  epoch : ℕ
  fromCache : Bool
  candidates : List GoString

/-- What an erasure reports: the ids and whether nothing of them was found again. Two fields only note the states in
which two of its sections ran: the one that looked for the items of a scope or an owner, and the one that erased. -/
structure ErasureReceipt where
  itemIDs : List GoString
  complete : Bool
  snapshot : Option World
  erasing : World

/-- A receipt carries the epoch after the change. -/
inductive Result where
  | error (e : Err)
  | done
  | receipt (epoch : ℕ)
  | erasure (r : ErasureReceipt)
  | reading (r : Reading)

structure Citation where
  itemID : GoString
  scopeKey : GoString
  snippet : GoString
  deriving DecidableEq

def Item.cite (item : Item) : Citation := ⟨item.id, item.scope.key, item.text.take 64⟩

def Reading.citations (r : Reading) : List Citation := r.items.map Item.cite

/-- A call; its inputs are the orders in which maps are iterated. -/
abbrev Call := Routine (List GoString) World

section Changes

variable (cfg : Config)

def changeDirectory (change : Directory → Except Err Directory) : Call Result :=
  .atomic fun _ w =>
    match change w.directory with
    | .error e => (.error e, w)
    | .ok d => (.receipt d.epoch, { w with directory := d })

/-- A change of the authority, with the receipt that the directory gives for it. -/
def changeAuthority (change : Authority → Except Err Authority) : Call Result :=
  .atomic fun _ w =>
    match change w.authority with
    | .error e => (.error e, w)
    | .ok a => (.receipt w.directory.emit.epoch, { w with authority := a, directory := w.directory.emit })

/-- `Grant`: the incarnations are read before the authority is locked. -/
def grant (g : Grant) : Call Result :=
  if g.scope.valid = false then pure (.error .rejected)
  else match splitSubject g.subject with
    | none => pure (.error .rejected)
    | some (kind, id) => do
      let subject ← Routine.reads fun w : World =>
        if kind = .user then w.directory.incarnation id else w.directory.groupIncarnation id
      match subject with
      | none => pure (.error .denied)
      | some subjectIncarnation =>
        if g.delegatedBy = [] then
          changeAuthority fun a => .ok (a.setGrant ⟨g, subjectIncarnation, 0⟩)
        else do
          let delegator ← Routine.reads fun w : World => w.directory.incarnation g.delegatedBy
          match delegator with
          | none => pure (.error .denied)
          | some delegatorIncarnation =>
            changeAuthority fun a => .ok (a.setGrant ⟨g, subjectIncarnation, delegatorIncarnation⟩)

def revoke (subject : GoString) (scope : Scope) : Call Result :=
  changeAuthority fun a =>
    match a.removeGrant subject scope with
    | none => .error .denied
    | some a' => .ok a'

def deny (userID : GoString) (scope : Scope) : Call Result :=
  if validID userID && scope.valid then changeAuthority fun a => .ok (a.overlay userID scope)
  else pure (.error .rejected)

def put (item : Item) : Call Result :=
  if validItem item then
    .atomic fun _ w =>
      match w.store.put cfg item with
      | none => (.error .rejected, w)
      | some s => (.done, { w with store := s })
  else pure (.error .rejected)

/-- `Erase`: the tombstones are there before the epoch is raised. -/
def erase (snapshot : Option World) (reason : GoString) (ids : List GoString) : Call Result :=
  if reason ≠ [] ∧ ids ≠ [] ∧ ids.all validID = true ∧ ids.Nodup then do
    let now ← Routine.reads World.now
    let erasing ← Routine.atomic fun _ w => (w, { w with store := w.store.erase reason now ids })
    Routine.atomic fun _ w => ((), { w with directory := w.directory.emit })
    let complete ← Routine.reads fun w => w.store.erased ids
    pure (.erasure ⟨sortStrings ids, complete, snapshot, erasing⟩)
  else pure (.error .rejected)

/-- The fence goes up; a call that finds nothing behind it is to take it down again if it was not there before. -/
def World.fence (w : World) (callID : ℕ) (k : Fence) : World :=
  { w with
    store := w.store.fence k
    lifting := if w.store.covered k = [] ∧ w.store.fenced k = false then w.lifting.insert k callID else w.lifting }

def World.unfence (w : World) (k : Fence) : World := { w with store := w.store.unfence k, lifting := w.lifting.erase k }

/-- `EraseScope` and `EraseOwner`: a fence and a snapshot in one section, then the erasure of what was found. -/
def eraseFenced (callID : ℕ) (k : Fence) (reason : GoString) : Call Result := do
  let snapshot ← Routine.atomic fun _ (w : World) => (w, w.fence callID k)
  if snapshot.store.covered k = [] then
    if snapshot.store.fenced k then pure (.error .denied)
    else do
      Routine.atomic fun _ w => ((), w.unfence k)
      pure (.error .denied)
  else erase (some snapshot) reason (snapshot.store.covered k)

def eraseScope (callID : ℕ) (reason : GoString) (scope : Scope) : Call Result :=
  if reason ≠ [] ∧ scope.valid = true then eraseFenced callID (.scope scope) reason else pure (.error .rejected)

def eraseOwner (callID : ℕ) (reason userID : GoString) : Call Result :=
  if reason ≠ [] ∧ validID userID = true then eraseFenced callID (.owner userID) reason else pure (.error .rejected)

def rebuildProjections : Call Result :=
  .atomic fun order w => (.done, { w with store := w.store.rebuild cfg order })

def restore (b : Backup) : Call Result :=
  if acceptedBackup cfg b then .atomic fun order w => (.done, { w with store := w.store.restore cfg order b })
  else pure (.error .rejected)

end Changes

section Authorization

variable (cfg : Config)

def maxAuthPasses : ℕ := 4

def epochNow : Call ℕ := .reads World.epoch

def liveGrant (g : GrantRecord) (principalIncarnation : ℕ) (now : Int) : Call Bool :=
  if g.subject = [] then pure false
  else if g.expiresAt.any fun t => t ≤ now then pure false
  else match splitSubject g.subject with
    | some (.user, _) => if g.subjectIncarnation ≠ principalIncarnation then pure false else backed g
    | some (.group, id) => do
      let incarnation ← Routine.reads fun w : World => w.directory.groupIncarnation id
      if incarnation ≠ some g.subjectIncarnation then pure false else backed g
    | none => backed g
where
  /-- The check of the delegator. -/
  backed (g : GrantRecord) : Call Bool :=
    if g.delegatedBy = [] then pure true
    else do
      let incarnation ← Routine.reads fun w : World => w.directory.incarnation g.delegatedBy
      pure (decide (incarnation = some g.delegatorIncarnation))

def anyLive (principalIncarnation : ℕ) (now : Int) : List GrantRecord → Call Bool
  | [] => pure false
  | g :: rest => do
    if ← liveGrant g principalIncarnation now then pure true else anyLive principalIncarnation now rest

/-- `resolveOnce`; `true` allows. -/
def resolveOnce (p : Principal) (scope : Scope) : Call Bool :=
  if p.tenantID ≠ cfg.tenantID ∨ scope.valid = false then pure false
  else do
    let active ← Routine.reads fun w : World => decide (p.userID ∈ w.directory.users)
    if active = false then pure false
    else do
      let now ← Routine.reads World.now
      let groups ← Routine.asks fun order w => w.directory.memberGroups order p.userID
      let incarnation ← Routine.reads fun w => w.directory.incarnation p.userID
      match incarnation with
      | none => pure false
      | some principalIncarnation => do
        let found ← Routine.reads fun w =>
          if denyKey p.userID scope ∈ w.authority.denies then none
          else if scope.kind = .individual ∧ scope.id = p.userID then some none
          else some (some (w.authority.candidates p.userID groups scope))
        match found with
        | none => pure false
        | some none => pure true
        | some (some candidates) => anyLive principalIncarnation now candidates

/-- `Resolve`, with the passes that are left. -/
def resolve (p : Principal) (scope : Scope) : ℕ → Call Bool
  | 0 => pure false
  | passes + 1 => do
    let epoch ← epochNow
    let allowed ← resolveOnce cfg p scope
    let epoch' ← epochNow
    if epoch' = epoch then pure allowed else resolve p scope passes

def activePrincipalKey (p : Principal) : Call (Option PrincipalKey) :=
  if p.tenantID ≠ cfg.tenantID ∨ validID p.userID = false then pure none
  else .reads fun w => (w.directory.incarnation p.userID).map fun incarnation => ⟨p.tenantID, p.userID, incarnation⟩

/-- The loop over the candidates in one pass of `authorizedItems`. -/
def authorizedPass (p : Principal) : List GoString → Call (List Item)
  | [] => pure []
  | id :: rest => do
    let snapshot ← Routine.reads fun w : World => w.store.live id
    match snapshot with
    | none => authorizedPass p rest
    | some item =>
      if ← resolve cfg p item.scope maxAuthPasses then do
        let current ← Routine.reads fun w : World => w.store.live id
        if current = some item then do
          let items ← authorizedPass p rest
          pure (item :: items)
        else authorizedPass p rest
      else authorizedPass p rest

/-- `authorizedItems`, with the passes that are left. -/
def authorizedItems (p : Principal) (key : PrincipalKey) (candidates : List GoString) :
    ℕ → Call (Option (List Item × ℕ))
  | 0 => pure none
  | passes + 1 => do
    let epoch ← epochNow
    let current ← activePrincipalKey cfg p
    if current ≠ some key then pure none
    else do
      let allowed ← authorizedPass cfg p candidates
      let epoch' ← epochNow
      if epoch' = epoch then pure (some (allowed, epoch)) else authorizedItems p key candidates passes

def principalEpochStillCurrent (p : Principal) (key : PrincipalKey) (epoch : ℕ) : Call Bool := do
  let current ← activePrincipalKey cfg p
  if current ≠ some key then pure false
  else do
    let epoch' ← epochNow
    pure (decide (epoch' = epoch))

end Authorization

section Reads

variable (cfg : Config) (p : Principal)

/-- What the reads have in common once they know their candidates. The last section is that of `Query`, or the entry in
the audit log, which is not modelled. -/
def answer (key : PrincipalKey) (candidates : List GoString) (fromCache : Bool)
    (last : List Item → Call Unit) : Call Result := do
  let authorized ← authorizedItems cfg p key candidates maxAuthPasses
  match authorized with
  | none => pure (.error .denied)
  | some (allowed, epoch) =>
    if ← principalEpochStillCurrent cfg p key epoch then do
      last allowed
      pure (.reading ⟨key, allowed, epoch, fromCache, candidates⟩)
    else pure (.error .denied)

def recordQuery (key : CacheKey) (fromCache : Bool) (candidates : List GoString) (allowed : List Item) : Call Unit :=
  .atomic fun _ w => ((), { w with
    store := w.store.record key fromCache candidates (allowed.map Item.id)
    served := w.served ++ allowed.map fun item => (key.principal, item) })

def auditRead (_ : List Item) : Call Unit := .reads fun _ => ()

/-- The reads: they differ in whether their input is valid, in where they find their candidates (and whether that is the
cache), and in their last section. -/
def readWith (valid : Bool) (find : PrincipalKey → Store → List GoString × Bool)
    (last : PrincipalKey → List GoString × Bool → List Item → Call Unit) : Call Result := do
  let active ← activePrincipalKey cfg p
  match active with
  | none => pure (.error .denied)
  | some key =>
    if valid = false then pure (.error .rejected)
    else do
      let found ← Routine.reads fun w : World => find key w.store
      answer cfg p key found.1 found.2 (last key found)

def query (query : GoString) : Call Result :=
  readWith cfg p (tokenize cfg query ≠ []) (fun key s => s.queryCandidates cfg ⟨key, query⟩)
    fun key found => recordQuery ⟨key, query⟩ found.2 found.1

def searchClaims (query : GoString) : Call Result :=
  readWith cfg p (tokenize cfg query ≠ []) (fun _ s => (candidatesOf s.claims (tokenize cfg query), false))
    fun _ _ => auditRead

def history : Call Result :=
  readWith cfg p true (fun key s => (s.sessions.ids key, false)) fun _ _ => auditRead

def graph : Call Result :=
  readWith cfg p true (fun _ s => (sortedSet s.graph, false)) fun _ _ => auditRead

def replay : Call Result :=
  readWith cfg p true (fun key s => (sortStrings (s.replay.ids key), false)) fun _ _ => auditRead

end Reads

def routine (cfg : Config) (callID : ℕ) : Request → Call Result
  | .tick now => .atomic fun _ w => (.done, { w with now := now })
  | .provision userID => changeDirectory (·.provision userID)
  | .deprovision userID => changeDirectory (·.deprovision userID)
  | .ensureGroup groupID => changeDirectory (·.ensureGroup groupID)
  | .deleteGroup groupID => changeDirectory (·.deleteGroup groupID)
  | .addMember groupID userID => changeDirectory (·.addMember groupID userID)
  | .removeMember groupID userID => changeDirectory (·.removeMember groupID userID)
  | .grant g => grant g
  | .revoke subject scope => revoke subject scope
  | .deny userID scope => deny userID scope
  | .put item => put cfg item
  | .erase reason ids => erase none reason ids
  | .eraseScope reason scope => eraseScope callID reason scope
  | .eraseOwner reason userID => eraseOwner callID reason userID
  | .rebuildProjections => rebuildProjections cfg
  | .restore b => restore cfg b
  | .query p q => query cfg p q
  | .searchClaims p q => searchClaims cfg p q
  | .history p => history cfg p
  | .graph p => graph cfg p
  | .replay p => replay cfg p

end CodeMemory.Orgscope
