import CodeMemory.Crawl.Corpus

/-! The incremental crawl. Each source file is compared with the previous index by
stamp, then by content hash; unchanged files keep their stored tables. If every
file is unchanged the previous index is cloned and pruned, otherwise the changed
files are indexed by the workers and the others copied. Either way the global
tables are rebuilt from the per-file tables. -/

namespace CodeMemory.Crawl

open Lib Lib.GoMap

structure WorkItem where
  rel : GoString
  raw : GoString
  hash : GoString
  stamp : FileStamp
  reuse : Bool
  bodyRead : Bool

variable (tc : Toolchain)

/-- The work item of a source file; none if it cannot be inspected or read. -/
def deltaItem (prevHashes : Option (GoMap GoString GoString)) (prev : Option Index)
    (s : GoString × Entry) : Option WorkItem :=
  match s.2.stat with
  | none => none
  | some info =>
    let stampHit : Bool := match prev with
      | none => false
      | some p => (match p.fileStamps.lookup s.1 with
        | none => false
        | some old => stampEqual old info.stamp) && (p.filePostings.lookup s.1).isSome
    if stampHit then
      some ⟨s.1, [], (prev.bind (·.fileHashes.lookup s.1)).getD [], info.stamp, true, false⟩
    else
      match s.2.read with
      | none => none
      | some raw =>
        let h := tc.fileHash raw
        let hashHit : Bool := match prev, prevHashes with
          | some p, some hs => decide (hs.lookup s.1 = some h) && (p.filePostings.lookup s.1).isSome
          | _, _ => false
        some ⟨s.1, raw, h, info.stamp, hashHit, true⟩

def copyFileFrom (prev dst : Index) (rel hash : GoString) (stamp : FileStamp) : Index :=
  if rel = [] then dst
  else { dst with
    files := insert rel dst.files
    fileHashes := dst.fileHashes.insert rel
      (if hash ≠ [] then hash else (prev.fileHashes.lookup rel).getD [])
    fileStamps := dst.fileStamps.insert rel
      (if 0 < stamp.size then stamp else (prev.fileStamps.lookup rel).getD ⟨0, 0⟩)
    filePostings := (prev.filePostings.lookup rel).elim dst.filePostings (dst.filePostings.insert rel)
    fileDefs := (prev.fileDefs.lookup rel).elim dst.fileDefs (dst.fileDefs.insert rel)
    fileRefs := (prev.fileRefs.lookup rel).elim dst.fileRefs (dst.fileRefs.insert rel)
    fileImps := (prev.fileImps.lookup rel).elim dst.fileImps (dst.fileImps.insert rel)
    fileEdges := (prev.fileEdges.lookup rel).elim dst.fileEdges (dst.fileEdges.insert rel) }

def cloneIndexShallow (prev : Index) : Index :=
  { newEmptyIndex with
    files := prev.filePostings.keys
    filePostings := prev.filePostings
    fileDefs := prev.fileDefs
    fileRefs := prev.fileRefs
    fileImps := prev.fileImps
    fileHashes := prev.fileHashes
    fileStamps := prev.fileStamps
    fileEdges := prev.fileEdges }

def pruneDeleted (idx : Index) (live : Finset GoString) : Index :=
  let keep : GoString → Bool := fun path => decide (path ∉ idx.files ∨ path ∈ live)
  { idx with
    files := idx.files.filter (· ∈ live)
    filePostings := idx.filePostings.filterKeys keep
    fileDefs := idx.fileDefs.filterKeys keep
    fileRefs := idx.fileRefs.filterKeys keep
    fileImps := idx.fileImps.filterKeys keep
    fileHashes := idx.fileHashes.filterKeys keep
    fileStamps := idx.fileStamps.filterKeys keep
    fileEdges := idx.fileEdges.filterKeys keep }

def withLower (name : GoString) : List GoString :=
  name :: if tc.toLower name ≠ name then [tc.toLower name] else []

def rebuiltSymbols (t : Tables) : SymbolGraph where
  defs := bindLoop (fun file d => (withLower tc d).map (·, file)) ∅ t.fileDefs
  refs := bindLoop (fun file r => (withLower tc r).map (·, file)) ∅ t.fileRefs
  imports := bindLoop (fun file p => [(file, p)]) ∅ t.fileImps

def rebuildGlobalFromFiles (idx : Index) : Index :=
  { idx with
    files := idx.files ∪ idx.filePostings.keys
    inverted := idx.filePostings.transpose
    symbols := rebuiltSymbols tc idx.toTables }

def putStamps (m : GoMap GoString FileStamp) (items : List WorkItem) : GoMap GoString FileStamp :=
  items.foldl (fun m (it : WorkItem) => m.insert it.rel it.stamp) m

def putHashes (p : GoMap GoString GoString → WorkItem → Bool) (m : GoMap GoString GoString)
    (items : List WorkItem) : GoMap GoString GoString :=
  items.foldl (fun m (it : WorkItem) => if p m it then m.insert it.rel it.hash else m) m

/-- Every file is reused: clone the previous index, refresh stamps and hashes, and
drop what is gone. -/
def reuseAll (prev : Index) (items : List WorkItem) : Index :=
  let idx := cloneIndexShallow prev
  let idx := { idx with
    fileStamps := putStamps idx.fileStamps items
    fileHashes := putHashes (fun _ it => it.hash ≠ []) idx.fileHashes items }
  rebuildGlobalFromFiles tc (pruneDeleted idx (items.map WorkItem.rel).toFinset)

def loadItem (it : WorkItem) : GoString × Option Loaded := (it.rel, some ⟨it.raw, it.hash, it.stamp⟩)

def indexChanged (sched : Scheduler WorkItem) (workers : Nat) (prev : Option Index)
    (items : List WorkItem) : Index :=
  let locals := (sched.deal workers (items.filter (fun it => !it.reuse))).map (runWorker tc loadItem)
  let idx := mergeAll locals
  let idx := match prev with
    | some p => (items.filter WorkItem.reuse).foldl
        (fun idx (it : WorkItem) => copyFileFrom p idx it.rel it.hash it.stamp) idx
    | none => { idx with
        fileHashes := putHashes (fun _ _ => true) idx.fileHashes items
        fileStamps := putStamps idx.fileStamps items }
  rebuildGlobalFromFiles tc { idx with
    fileHashes := putHashes (fun m it => (m.lookup it.rel).isNone) idx.fileHashes items
    fileStamps := putStamps idx.fileStamps items }

/-- The fast path is open: there are items, and every one is reused. -/
def allReused (items : List WorkItem) : Bool :=
  decide (items.countP (fun it => !it.reuse) = 0 ∧ items.countP WorkItem.reuse = items.length ∧
    0 < items.length)

def deltaIndex (sched : Scheduler WorkItem) (workers : Nat) (prev : Option Index)
    (items : List WorkItem) : Index :=
  match prev with
  | none => indexChanged tc sched workers none items
  | some p => if allReused items then reuseAll tc p items else indexChanged tc sched workers (some p) items

def deltaStats (workers : Nat) (prev : Option Index) (items : List WorkItem) (errors : Nat) : Stats where
  filesIndexed := items.length
  bytesRead := if prev.isSome && allReused items then 0 else (items.map (·.raw.length)).sum
  workers := workers
  errors := errors
  changed := items.countP (fun it => !it.reuse)
  unchanged := items.countP WorkItem.reuse
  skippedByStamp := items.countP (fun it => !it.bodyRead)
  hashed := items.countP WorkItem.bodyRead

/-- `CrawlDeltaFrom`; none is an error from the ignore policy. The returned hashes
are a copy of the index's own. -/
def crawlDeltaFrom (sched : Scheduler WorkItem) (T : Tree) (workers : Int)
    (prevHashes : Option (GoMap GoString GoString)) (prev : Option Index) :
    Option (Index × Stats × GoMap GoString GoString) :=
  let workers := if workers < 1 then 1 else workers.toNat
  let prevHashes := if prevHashes.isNone then prev.map (·.fileHashes) else prevHashes
  match T.ignores tc with
  | none => none
  | some m =>
    let paths := T.sources tc m.ignored
    let items := paths.filterMap (deltaItem tc prevHashes prev)
    let idx := deltaIndex tc sched workers prev items
    some (idx, deltaStats workers prev items
      (paths.countP (fun s => (deltaItem tc prevHashes prev s).isNone)), idx.fileHashes)

end CodeMemory.Crawl
