import CodeMemory.Crawl.Ingest

/-! The durable index: the snapshot a save writes and a load reads, the in-process
cache of decoded snapshots, and the refresh that decides between serving the
stored index, an incremental crawl and a full crawl. -/

namespace CodeMemory.Crawl

open Lib Lib.GoString Lib.Path

structure DurableMeta where
  root : GoString
  gitHead : GoString
  files : Nat
  schema : GoString
  deriving DecidableEq

def schemaV2 : GoString := lit "product-brain.code-index.v2"

def schemaV3 : GoString := lit "product-brain.code-index.v3"

def schemaV4 : GoString := lit "product-brain.code-index.v4"

/-- The gob payload. A map that is missing from the payload is empty here. -/
structure DurableSnap where
  durableMeta : DurableMeta
  filePostings : GoMap GoString (GoMap GoString Nat)
  fileDefs : GoMap GoString (List GoString)
  fileRefs : GoMap GoString (List GoString)
  fileImps : GoMap GoString (List GoString)
  fileHashes : GoMap GoString GoString
  fileStamps : GoMap GoString FileStamp
  globalInverted : GoMap GoString (GoMap GoString Nat)
  globalDefs : NameMap
  globalRefs : NameMap
  fileEdges : GoMap GoString (List Edge)

variable (tc : Toolchain)

/-- The index as it stands after a save, which fills missing globals. -/
def Index.prepared (idx : Index) : Index :=
  if idx.inverted = ∅ then rebuildGlobalFromFiles tc idx else idx

def Index.snap (idx : Index) (root gitHead : GoString) : DurableSnap :=
  let idx := idx.prepared tc
  { durableMeta := ⟨root, gitHead, idx.files.card, schemaV4⟩
    filePostings := idx.filePostings
    fileDefs := idx.fileDefs
    fileRefs := idx.fileRefs
    fileImps := idx.fileImps
    fileHashes := idx.fileHashes
    fileStamps := idx.fileStamps
    globalInverted := idx.inverted
    globalDefs := idx.symbols.defs
    globalRefs := idx.symbols.refs
    fileEdges := idx.fileEdges }

/-- The index that `Load` makes of a decoded payload. -/
def DurableSnap.load (s : DurableSnap) : Index :=
  let idx : Index := { newEmptyIndex with
    filePostings := s.filePostings
    fileDefs := s.fileDefs
    fileRefs := s.fileRefs
    fileImps := s.fileImps
    fileHashes := s.fileHashes
    fileStamps := s.fileStamps
    fileEdges := s.fileEdges }
  if s.globalInverted ≠ ∅ then
    { idx with
      inverted := s.globalInverted
      files := s.filePostings.keys
      symbols :=
        { defs := s.globalDefs
          refs := s.globalRefs
          imports := bindLoop (fun file p => [(file, p)]) ∅ s.fileImps } }
  else rebuildGlobalFromFiles tc idx

/-- The file at the gob path: its size and modification time if it is a regular
file, and what decoding it gives. -/
structure GobFile where
  identity : Option FileStamp
  snap : Option DurableSnap

def loadGob (gob : Option GobFile) : Option (Index × DurableMeta) :=
  (gob.bind GobFile.snap).map (fun s => (s.load tc, s.durableMeta))

/-- The gob path and the process's cache entry for it. An entry whose identity is
that of the file is what decoding the file gives. -/
structure Store (tc : Toolchain) where
  gob : Option GobFile
  cached : Option (FileStamp × Index × DurableMeta)
  coherent : ∀ id idx m, cached = some (id, idx, m) → gob.bind GobFile.identity = some id →
    loadGob tc gob = some (idx, m)

def Store.hit {tc : Toolchain} (s : Store tc) : Option (Index × DurableMeta) :=
  match s.cached, s.gob.bind GobFile.identity with
  | some (id, idx, m), some id' => if id = id' then some (idx, m) else none
  | _, _ => none

theorem Store.loadGob_of_hit {tc : Toolchain} {s : Store tc} {r : Index × DurableMeta}
    (h : s.hit = some r) : loadGob tc s.gob = some r := by
  unfold Store.hit at h
  split at h
  · rename_i id idx m id' hc hg
    split_ifs at h with he
    cases h
    exact s.coherent id idx m hc (he ▸ hg)
  · cases h

/-- `loadCached`: what is returned, and the store with the cache entry it leaves. -/
def Store.loadCached {tc : Toolchain} (s : Store tc) : Option (Index × DurableMeta) × Store tc :=
  match s.hit with
  | some r => (some r, s)
  | none =>
    match hl : loadGob tc s.gob, hi : s.gob.bind GobFile.identity with
    | some (idx, m), some id => (some (idx, m),
        { gob := s.gob
          cached := some (id, idx, m)
          coherent := by
            intro id' idx' m' hc _
            obtain ⟨rfl, rfl, rfl⟩ : id = id' ∧ idx = idx' ∧ m = m' := by simpa using hc
            exact hl })
    | r, _ => (r, s)

theorem Store.loadCached_fst {tc : Toolchain} (s : Store tc) : s.loadCached.1 = loadGob tc s.gob := by
  unfold Store.loadCached
  split
  · rename_i r hr
    exact (Store.loadGob_of_hit hr).symm
  · split
    · rename_i h _; exact h.symm
    · rfl

theorem Store.loadCached_gob {tc : Toolchain} (s : Store tc) : s.loadCached.2.gob = s.gob := by
  unfold Store.loadCached
  split
  · rfl
  · split <;> rfl

/-- How a save ends: the new file is in place, or nothing was replaced, or the
file was replaced but its directory could not be synced. -/
inductive SaveOutcome where
  | saved (identity : FileStamp)
  | failed
  | unsynced (identity : FileStamp)

/-- The store after a save; every save drops the cache entry. -/
def Store.save {tc : Toolchain} (s : Store tc) (snap : DurableSnap) : SaveOutcome → Store tc
  | .saved id => ⟨some ⟨some id, some snap⟩, none, by simp⟩
  | .failed => ⟨s.gob, none, by simp⟩
  | .unsynced id => ⟨some ⟨some id, some snap⟩, none, by simp⟩

end CodeMemory.Crawl
