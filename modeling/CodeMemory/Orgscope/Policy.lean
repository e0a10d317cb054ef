import CodeMemory.Lib.Order

/-! The policy of one tenant: the directory of users and groups, the grants and the
deny overlays. Every change of it raises the policy epoch in the same section. -/

namespace CodeMemory.Orgscope

open Lib Lib.GoString

inductive Err where
  | denied
  | rejected
  deriving DecidableEq

inductive ScopeKind where
  | individual
  | team
  | company
  deriving DecidableEq

def ScopeKind.text : ScopeKind → GoString
  | .individual => lit "individual"
  | .team => lit "team"
  | .company => lit "company"

/-- The id is that of a user or of a group, and empty for the company. -/
structure Scope where
  kind : ScopeKind
  id : GoString
  deriving DecidableEq

def validID (id : GoString) : Bool :=
  id ≠ [] && id = trimSpace id && !(id.any fun b => b = 0x7C || b = 0x2F || b = 0x5C) && !decide (lit ".." <:+: id)

def Scope.valid (s : Scope) : Bool :=
  match s.kind with
  | .individual | .team => validID s.id
  | .company => s.id = []

def Scope.key (s : Scope) : GoString :=
  if s.kind = .company then ScopeKind.company.text else s.kind.text ++ lit ":" ++ s.id

structure Principal where
  userID : GoString
  tenantID : GoString
  deriving DecidableEq

/-- `users` are the active ones; `versions` and `groupVer` count the incarnations. -/
structure Directory where
  epoch : ℕ
  users : Finset GoString
  versions : GoMap GoString ℕ
  groups : GoMap GoString (Finset GoString)
  groupVer : GoMap GoString ℕ

section Directory

variable (d : Directory)

def Directory.emit : Directory := { d with epoch := d.epoch + 1 }

def bump (m : GoMap GoString ℕ) (id : GoString) : GoMap GoString ℕ := m.insert id ((m.lookup id).getD 0 + 1)

variable (userID : GoString)

def Directory.provision : Except Err Directory :=
  if validID userID = false then .error .rejected
  else
    .ok { d with
      versions := if userID ∈ d.users then d.versions else bump d.versions userID
      users := insert userID d.users }.emit

def Directory.deprovision : Except Err Directory :=
  if userID ∉ d.users then .error .denied
  else
    .ok { d with
      users := d.users.erase userID
      versions := bump d.versions userID
      groups := GoMap.filterMap (fun members : Finset GoString => some (members.erase userID)) d.groups }.emit

def Directory.ensureGroup (groupID : GoString) : Except Err Directory :=
  if validID groupID = false then .error .rejected
  else if groupID ∈ d.groups.keys then .ok d.emit
  else .ok { d with groupVer := bump d.groupVer groupID, groups := d.groups.insert groupID ∅ }.emit

def Directory.deleteGroup (groupID : GoString) : Except Err Directory :=
  if groupID ∉ d.groups.keys then .error .denied
  else .ok { d with groups := d.groups.erase groupID, groupVer := bump d.groupVer groupID }.emit

def Directory.addMember (groupID userID : GoString) : Except Err Directory :=
  match d.groups.lookup groupID with
  | none => .error .denied
  | some members =>
    if userID ∉ d.users then .error .denied
    else .ok { d with groups := d.groups.insert groupID (insert userID members) }.emit

def Directory.removeMember (groupID userID : GoString) : Except Err Directory :=
  match d.groups.lookup groupID with
  | none => .error .denied
  | some members =>
    if userID ∉ members then .error .denied
    else .ok { d with groups := d.groups.insert groupID (members.erase userID) }.emit

def Directory.incarnation : Option ℕ :=
  if userID ∈ d.users then some ((d.versions.lookup userID).getD 0) else none

def Directory.groupIncarnation (groupID : GoString) : Option ℕ :=
  if groupID ∈ d.groups.keys then some ((d.groupVer.lookup groupID).getD 0) else none

def Directory.memberGroups (order : List GoString) (userID : GoString) : List GoString :=
  if userID ∉ d.users then []
  else (GoMap.iterated order d.groups).filter fun g => userID ∈ (d.groups.lookup g).getD ∅

end Directory

structure Grant where
  subject : GoString
  scope : Scope
  expiresAt : Option Int
  delegatedBy : GoString
  deriving DecidableEq

structure GrantRecord extends Grant where
  subjectIncarnation : ℕ
  delegatorIncarnation : ℕ
  deriving DecidableEq

inductive SubjectKind where
  | user
  | group
  deriving DecidableEq

def SubjectKind.subject : SubjectKind → GoString → GoString
  | .user, id => lit "user:" ++ id
  | .group, id => lit "group:" ++ id

def splitSubject (subject : GoString) : Option (SubjectKind × GoString) :=
  if hasPrefix subject (lit "user:") && validID (subject.drop 5) then some (.user, subject.drop 5)
  else if hasPrefix subject (lit "group:") && validID (subject.drop 6) then some (.group, subject.drop 6)
  else none

/-- The grants by subject and scope key; the overlays by user and scope key. -/
structure Authority where
  grants : GoMap GoString (GoMap GoString GrantRecord)
  denies : Finset GoString

section Authority

variable (a : Authority)

def Authority.grantAt (subject : GoString) (scope : Scope) : Option GrantRecord :=
  (a.grants.lookup subject).bind (·.lookup scope.key)

def Authority.setGrant (g : GrantRecord) : Authority :=
  { a with grants := a.grants.insert g.subject (((a.grants.lookup g.subject).getD ∅).insert g.scope.key g) }

/-- `Revoke`. -/
def Authority.removeGrant (subject : GoString) (scope : Scope) : Option Authority :=
  match a.grants.lookup subject with
  | none => none
  | some byScope =>
    if scope.key ∉ byScope.keys then none
    else some { a with grants := a.grants.insert subject (byScope.erase scope.key) }

variable (userID : GoString)

def denyKey (scope : Scope) : GoString := userID ++ lit "|" ++ scope.key

/-- `Deny`. -/
def Authority.overlay (scope : Scope) : Authority :=
  { a with denies := insert (denyKey userID scope) a.denies }

/-- The grants that `resolveOnce` copies under the lock. -/
def Authority.candidates (groups : List GoString) (scope : Scope) : List GrantRecord :=
  (SubjectKind.user.subject userID :: groups.map SubjectKind.group.subject).filterMap fun subject =>
    a.grantAt subject scope

end Authority

section Allows

variable (d : Directory) (a : Authority) (now : Int)

def GrantRecord.Unexpired (g : GrantRecord) : Prop := ∀ t, g.expiresAt = some t → now < t

/-- A grant that was delegated lives as long as that incarnation of its delegator. -/
def GrantRecord.Backed (g : GrantRecord) : Prop :=
  g.delegatedBy ≠ [] → d.incarnation g.delegatedBy = some g.delegatorIncarnation

/-- A grant to this incarnation of the user, or to the current incarnation of a group of the user. -/
def GrantRecord.For (userID : GoString) (incarnation : ℕ) (scope : Scope) (g : GrantRecord) : Prop :=
  (a.grantAt (SubjectKind.user.subject userID) scope = some g ∧ g.subjectIncarnation = incarnation) ∨
    ∃ group members, d.groups.lookup group = some members ∧ userID ∈ members ∧
      a.grantAt (SubjectKind.group.subject group) scope = some g ∧
      d.groupIncarnation group = some g.subjectIncarnation

/-- What the policy means: an active user of this incarnation without a deny overlay reads the user's own scope, and a
scope that a live grant opens; nothing else is allowed. -/
def Allows (userID : GoString) (incarnation : ℕ) (scope : Scope) : Prop :=
  d.incarnation userID = some incarnation ∧ denyKey userID scope ∉ a.denies ∧
    ((scope.kind = .individual ∧ scope.id = userID) ∨
      ∃ g : GrantRecord, g.For d a userID incarnation scope ∧ g.Unexpired now ∧ g.Backed d)

end Allows

end CodeMemory.Orgscope
