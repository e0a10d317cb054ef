import CodeMemory.Crawl.Persist

/-! `OpenOrRefresh`: the stored index is served as it is when a census of the tree
finds every stamp unchanged, brought up to date by an incremental crawl otherwise,
and replaced by a full crawl when it is missing, unreadable or bound to another
root. -/

namespace CodeMemory.Crawl

open Lib Lib.GoString Lib.Path

def skipDir : List GoString :=
  [".git", ".sentra", ".ouroboros", "node_modules", "vendor", "__pycache__", ".cache", "dist",
    "target"].map lit

/-- The entries the census looks at: it skips directories by name, the root
included, and takes every kind of entry. -/
def Tree.census (tc : Toolchain) (ign : GoString → Bool → Bool) (T : Tree) : List (GoString × Entry) :=
  if T.rootName ∈ skipDir then []
  else (T.walk ign (fun name => decide (name ∈ skipDir))).filter (fun s => tc.extOK s.1)

def liveStamps (entries : List (GoString × Entry)) : GoMap GoString FileStamp :=
  entries.foldl (fun m s => m.insert s.1 s.2.lstat.stamp) ∅

/-- Whether every stamp in the index is that of the tree, and no other file has one. -/
def stAllStampsMatch (tc : Toolchain) (T : Tree) (prev : Index) : Bool :=
  if prev.fileStamps = ∅ then false
  else match T.ignores tc with
    | none => false
    | some m =>
      let live := liveStamps (T.census tc m.ignored)
      if live.keys.card ≠ prev.fileStamps.keys.card then false
      else decide (∀ rel ∈ prev.fileStamps.keys,
        (prev.fileStamps.lookup rel).any (fun old =>
          (live.lookup rel).any (fun st => stampEqual old st)) = true)

/-- What a file that lacks a hash or a stamp gets. -/
def missingFacts (T : Tree) (rel : GoString) : Option (FileStamp × Option GoString) :=
  match T.resolve (relElems (clean rel)) with
  | some (.file e) => e.stat.bind (fun info =>
      if indexableFile e.lstat && indexableFile info then some (info.stamp, e.read) else none)
  | _ => none

def Index.incomplete (idx : Index) (rel : GoString) : Bool :=
  decide (rel ∈ idx.files) && !((idx.fileHashes.lookup rel).isSome && (idx.fileStamps.lookup rel).isSome)

def ensureHashes (tc : Toolchain) (T : Tree) (idx : Index) : Index :=
  { idx with
    fileStamps := GoMap.build (idx.fileStamps.keys ∪ idx.files) (fun rel =>
      if idx.incomplete rel then
        ((missingFacts T rel).map Prod.fst).or (idx.fileStamps.lookup rel)
      else idx.fileStamps.lookup rel)
    fileHashes := GoMap.build (idx.fileHashes.keys ∪ idx.files) (fun rel =>
      if idx.incomplete rel then
        (idx.fileHashes.lookup rel).or (((missingFacts T rel).bind Prod.snd).map tc.fileHash)
      else idx.fileHashes.lookup rel) }

/-- The surroundings of a refresh: the absolute root, the symlink-aware form of a
root, the current commit, and how a save would end. -/
structure RefreshEnv where
  rootAbs : Option GoString
  canonicalRoot : GoString → Option GoString
  gitHead : GoString
  saving : SaveOutcome

structure Refreshed where
  index : Index
  stats : Stats
  wrote : Bool
  durableMeta : DurableMeta

variable {tc : Toolchain} (env : RefreshEnv)

def saveAndReturn (rootAbs : GoString) (store : Store tc) (idx : Index) (st : Stats) :
    Option Refreshed × Store tc :=
  let store := store.save (idx.snap tc rootAbs env.gitHead) env.saving
  match env.saving with
  | .saved _ =>
    let idx := idx.prepared tc
    (some ⟨idx, st, true, ⟨rootAbs, env.gitHead, idx.files.card, schemaV4⟩⟩, store)
  | .failed => (none, store)
  | .unsynced _ => (none, store)

def boundIndex (rootAbs : GoString) (loaded : Option (Index × DurableMeta)) :
    Option (Index × DurableMeta) :=
  loaded.filter (fun r =>
    match env.canonicalRoot r.2.root with
    | none => false
    | some bound => decide (bound ≠ []) && decide (env.canonicalRoot rootAbs = some bound))

def knownSchema (schema : GoString) : Bool :=
  decide (schema = schemaV2 ∨ schema = schemaV3 ∨ schema = schemaV4)

/-- `OpenOrRefresh`: the result, none on an error, and the store it leaves. -/
def openOrRefresh (sched : Scheduler (GoString × Entry)) (dsched : Scheduler WorkItem)
    (T : Tree) (store : Store tc) (workers : Int) (forceFull : Bool) : Option Refreshed × Store tc :=
  match env.rootAbs with
  | none => (none, store)
  | some rootAbs =>
    let workers : Int := normalizeWorkers workers
    let (loaded, store) := if forceFull then (none, store) else store.loadCached
    match boundIndex env rootAbs loaded with
    | none =>
      match crawlDir tc sched T workers with
      | none => (none, store)
      | some (idx, st) => saveAndReturn env rootAbs store (ensureHashes tc T idx) st
    | some (prev, meta₀) =>
      if prev.inverted ≠ ∅ ∧ stAllStampsMatch tc T prev = true then
        (some ⟨prev, ⟨prev.files.card, 0, workers.toNat, 0, 0, prev.files.card, prev.files.card, 0⟩, false,
          meta₀⟩, store)
      else
        match crawlDeltaFrom tc dsched T workers none (some prev) with
        | none => (none, store)
        | some (idx, st, _) =>
          if st.changed > 0 ∨ st.unchanged = 0 ∨ meta₀.gitHead ≠ env.gitHead ∨
              knownSchema meta₀.schema = false then
            saveAndReturn env rootAbs store idx st
          else (some ⟨idx, st, false, meta₀⟩, store)

end CodeMemory.Crawl
