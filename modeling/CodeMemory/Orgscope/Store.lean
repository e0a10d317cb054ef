import CodeMemory.Lib.Postings
import CodeMemory.Orgscope.Policy

/-! The store of a tenant's scoped items with its projections: the lexical and the
claim index, the graph, the cache of query candidates and the histories of each
principal. Here are the sections that hold its mutex. -/

namespace CodeMemory.Orgscope

open Lib Lib.GoString Lib.GoMap

structure Item where
  id : GoString
  scope : Scope
  owner : GoString
  text : GoString
  deriving DecidableEq

/-- A lifecycle incarnation of a principal. -/
structure PrincipalKey where
  tenantID : GoString
  userID : GoString
  incarnation : ℕ
  deriving DecidableEq

structure CacheKey where
  principal : PrincipalKey
  query : GoString
  deriving DecidableEq

structure Tombstone where
  itemID : GoString
  reason : GoString
  erasedAt : Option Int
  deriving DecidableEq

/-- `toLower` is `strings.ToLower`; `backupDigest` hashes a tenant with the items and tombstones of a backup, each
sorted by id. -/
structure Config where
  tenantID : GoString
  toLower : GoString → GoString
  backupDigest : GoString → List Item → List Tombstone → GoString

/-- A history holds the ids that each query served. -/
abbrev Histories := GoMap PrincipalKey (List (List GoString))

structure Store where
  items : GoMap GoString Item
  index : Postings GoString GoString
  claims : Postings GoString GoString
  graph : Finset GoString
  cache : GoMap CacheKey (List GoString)
  sessions : Histories
  replay : Histories
  tombstones : GoMap GoString Tombstone
  erasingScopes : Finset Scope
  erasingOwners : Finset GoString

def Store.new : Store := ⟨∅, ∅, ∅, ∅, ∅, ∅, ∅, ∅, ∅, ∅⟩

structure Backup where
  tenantID : GoString
  items : List Item
  tombstones : List Tombstone
  digest : GoString
  deriving DecidableEq

section Terms

variable (cfg : Config)

def alphanumeric (b : UInt8) : Bool := (0x61 ≤ b && b ≤ 0x7A) || (0x30 ≤ b && b ≤ 0x39)

/-- The bytes of a rune that is not ASCII are no letters or digits, so the fields may be cut byte by byte. -/
def tokenize (text : GoString) : List GoString :=
  (((cfg.toLower text).splitOnP fun b => !alphanumeric b).filter (· ≠ [])).eraseDups

end Terms

section Sections

variable (cfg : Config) (s : Store)

/-- An item that is there and not tombstoned. -/
def Store.live (id : GoString) : Option Item := if id ∈ s.tombstones.keys then none else s.items.lookup id

/-- `removeIndexedIDLocked`, for several ids. -/
def Store.removeIndexed (ids : Finset GoString) : Store :=
  { s with index := s.index.drop ids, claims := s.claims.drop ids, graph := s.graph \ ids }

def Store.indexItem (id : GoString) (item : Item) : Store :=
  { s with
    index := s.index.addAll id (tokenize cfg item.text)
    claims := s.claims.addAll id (tokenize cfg item.text)
    graph := insert id s.graph }

/-- `withoutIDs`, in every entry of a history. -/
def Histories.without (h : Histories) (ids : Finset GoString) : Histories :=
  filterMap (fun entries : List (List GoString) => some (entries.map fun entry => entry.filter (· ∉ ids))) h

def validItem (item : Item) : Bool := validID item.id && item.scope.valid && item.text ≠ [] && validID item.owner

def Store.put (item : Item) : Option Store :=
  if item.id ∈ s.tombstones.keys ∨ item.scope ∈ s.erasingScopes ∨ item.owner ∈ s.erasingOwners then none
  else
    let s' := { s.removeIndexed {item.id} with cache := ∅, items := s.items.insert item.id item }
    let s' := if item.id ∈ s.items.keys then
        { s' with sessions := s.sessions.without {item.id}, replay := s.replay.without {item.id} }
      else s'
    some (s'.indexItem cfg item.id item)

def Store.erase (reason : GoString) (now : Int) (ids : List GoString) : Store :=
  { s.removeIndexed ids.toFinset with
    tombstones := ids.foldl (fun stones id =>
      if id ∈ stones.keys then stones else stones.insert id ⟨id, reason, some now⟩) s.tombstones
    items := filterKeys (· ∉ ids) s.items
    cache := filterMap (fun entry : List GoString => some (entry.filter (· ∉ ids))) s.cache
    sessions := s.sessions.without ids.toFinset
    replay := s.replay.without ids.toFinset }

/-- `VerifyErasure` finds nothing. -/
def Store.erased (ids : List GoString) : Bool :=
  ids.all fun id => decide (id ∉ s.items.keys) && all (fun _ set => decide (id ∉ set)) s.index &&
    all (fun _ set => decide (id ∉ set)) s.claims && decide (id ∉ s.graph) &&
    all (fun _ entry => decide (id ∉ entry)) s.cache &&
    all (fun _ entries => entries.all fun entry => decide (id ∉ entry)) s.sessions &&
    all (fun _ entries => entries.all fun entry => decide (id ∉ entry)) s.replay

/-- The loop of `rebuildProjectionsLocked`. -/
def Store.indexAll (items : GoMap GoString Item) (s : Store) : List GoString → Store
  | [] => s
  | id :: rest =>
    match items.lookup id with
    | none => s.indexAll items rest
    | some item => (s.indexItem cfg id item).indexAll items rest

/-- `rebuildProjectionsLocked`. -/
def Store.rebuild (order : List GoString) : Store :=
  let items := filterKeys (· ∉ s.tombstones.keys) s.items
  let empty : Store := { s with items := items, index := ∅, claims := ∅, graph := ∅, cache := ∅ }
  empty.indexAll cfg items (iterated order items)

/-- `validBackupContents`. -/
def validBackup (b : Backup) : Bool :=
  b.items.all validItem && decide ((b.items.map Item.id).Nodup) &&
    (b.tombstones.all fun t => validID t.itemID && t.reason ≠ [] && t.erasedAt.isSome) &&
    decide ((b.tombstones.map Tombstone.itemID).Nodup)

/-- What `Restore` checks before its section. -/
def acceptedBackup (b : Backup) : Bool :=
  b.digest ≠ [] && b.tenantID = cfg.tenantID && b.digest = cfg.backupDigest b.tenantID b.items b.tombstones &&
    validBackup b

/-- The section of `Restore`. -/
def Store.restore (order : List GoString) (b : Backup) : Store :=
  let tombstones := b.tombstones.foldl (fun stones t =>
    if t.itemID ∈ stones.keys then stones else stones.insert t.itemID t) s.tombstones
  let items := b.items.foldl (fun items item =>
    if item.id ∈ tombstones.keys then items else items.insert item.id item) ∅
  ({ s with tombstones := tombstones, items := items, sessions := ∅, replay := ∅ } : Store).rebuild cfg order

/-- What an erasure fences off: a scope or an owner. -/
inductive Fence where
  | scope (scope : Scope)
  | owner (userID : GoString)
  deriving DecidableEq

def Fence.covers : Fence → Item → Bool
  | .scope target, item => item.scope = target
  | .owner userID, item => item.owner = userID

def Store.fenced : Fence → Bool
  | .scope scope => scope ∈ s.erasingScopes
  | .owner userID => userID ∈ s.erasingOwners

def Store.fence : Fence → Store
  | .scope scope => { s with erasingScopes := insert scope s.erasingScopes }
  | .owner userID => { s with erasingOwners := insert userID s.erasingOwners }

def Store.unfence : Fence → Store
  | .scope scope => { s with erasingScopes := s.erasingScopes.erase scope }
  | .owner userID => { s with erasingOwners := s.erasingOwners.erase userID }

/-- The ids of the items behind a fence. -/
def Store.covered (k : Fence) : List GoString :=
  (sortedKeys s.items).filter fun id => (s.items.lookup id).any k.covers

def candidatesOf (postings : Postings GoString GoString) (terms : List GoString) : List GoString :=
  sortedSet (terms.toFinset.biUnion postings.under)

/-- The candidates of a query, and whether they come from the cache. -/
def Store.queryCandidates (key : CacheKey) : List GoString × Bool :=
  match s.cache.lookup key with
  | some ids => (ids, true)
  | none => (candidatesOf s.index (tokenize cfg key.query), false)

def Store.withoutTombstoned (ids : List GoString) : List GoString := ids.filter (· ∉ s.tombstones.keys)

def Histories.append (h : Histories) (key : PrincipalKey) (entry : List GoString) : Histories :=
  h.insert key ((h.lookup key).getD [] ++ [entry])

/-- The last section of `Query`. -/
def Store.record (key : CacheKey) (fromCache : Bool) (candidates ids : List GoString) : Store :=
  { s with
    cache := if fromCache then s.cache else s.cache.insert key (s.withoutTombstoned candidates)
    sessions := s.sessions.append key.principal (s.withoutTombstoned ids)
    replay := s.replay.append key.principal (s.withoutTombstoned ids) }

def Histories.ids (h : Histories) (key : PrincipalKey) : List GoString := ((h.lookup key).getD []).flatten.eraseDups

end Sections

end CodeMemory.Orgscope
