import CodeMemory.Crawl.Tree

/-! The full crawl: the walk collects the source files, the workers fill private
indexes from a shared channel, and the private indexes are merged. How the
channel deals the files to the workers is a `Scheduler`. -/

namespace CodeMemory.Crawl

open Lib Lib.Path

def insertNonempty {α : Type} (m : GoMap GoString (List α)) (rel : GoString) (xs : List α) :
    GoMap GoString (List α) :=
  match xs with
  | [] => m
  | x :: xs => m.insert rel (x :: xs)

def LocalIndex.add (tc : Toolchain) (l : LocalIndex) (rel body : GoString) : LocalIndex :=
  let freq := tc.tokenFreq body
  let syms := tc.extractSymbols rel body
  { l with
    bytesRd := l.bytesRd + body.length
    files := insert rel l.files
    filePostings := l.filePostings.insert rel freq
    inverted := GoMap.update (fun _ n old =>
      (old.getD ∅).insert rel (((old.getD ∅).lookup rel).getD 0 + n)) l.inverted freq
    fileDefs := insertNonempty l.fileDefs rel syms.defs
    fileRefs := insertNonempty l.fileRefs rel syms.refs
    fileImps := insertNonempty l.fileImps rel syms.imports
    fileEdges := insertNonempty l.fileEdges rel (tc.extractTypedEdges rel body) }

structure Loaded where
  raw : GoString
  hash : GoString
  stamp : FileStamp

def LocalIndex.addLoaded (tc : Toolchain) (l : LocalIndex) (rel : GoString) (x : Loaded) : LocalIndex :=
  let l := l.add tc rel x.raw
  { l with
    fileHashes := l.fileHashes.insert rel x.hash
    fileStamps := l.fileStamps.insert rel x.stamp }

/-- `inverted[tok][path] += n` for each posting. -/
def mergeInverted (d m : GoMap GoString (GoMap GoString Nat)) : GoMap GoString (GoMap GoString Nat) :=
  GoMap.update (fun _ postings old =>
    GoMap.update (fun _ n o => o.getD 0 + n) (old.getD ∅) postings) d m

def LocalIndex.mergeInto (l : LocalIndex) (idx : Index) : Index where
  files := idx.files ∪ l.files
  inverted := mergeInverted idx.inverted l.inverted
  filePostings := idx.filePostings.copyInto l.filePostings
  fileDefs := idx.fileDefs.copyInto l.fileDefs
  fileRefs := idx.fileRefs.copyInto l.fileRefs
  fileImps := idx.fileImps.copyInto l.fileImps
  fileEdges := idx.fileEdges.copyInto l.fileEdges
  fileHashes := idx.fileHashes.copyInto l.fileHashes
  fileStamps := idx.fileStamps.copyInto l.fileStamps
  symbols :=
    { defs := bindLoop (fun file d => [(d, file)]) idx.symbols.defs l.fileDefs
      refs := bindLoop (fun file r => [(r, file)]) idx.symbols.refs l.fileRefs
      imports := bindLoop (fun file p => [(file, p)]) idx.symbols.imports l.fileImps }

/-- Which worker takes which items from the channel, and in which order. -/
structure Scheduler (α : Type) where
  deal : Nat → List α → List (List α)
  length_deal : ∀ w xs, (deal w xs).length = w
  perm_deal : ∀ w xs, 0 < w → (deal w xs).flatten.Perm xs

def Scheduler.first (α : Type) : Scheduler α where
  deal w xs := match w with
    | 0 => []
    | w + 1 => xs :: List.replicate w []
  length_deal w xs := by cases w <;> simp
  perm_deal w xs h := by
    cases w with
    | zero => cases h
    | succ w => simp

section Workers

variable {α : Type} (tc : Toolchain) (load : α → GoString × Option Loaded)

/-- One item of a worker's loop; an item that cannot be read is passed over. -/
def workerStep (l : LocalIndex) (x : α) : LocalIndex :=
  match (load x).2 with
  | none => l
  | some y => l.addLoaded tc (load x).1 y

def runWorker (shard : List α) : LocalIndex := shard.foldl (workerStep tc load) newLocalIndex

def mergeAll (locals : List LocalIndex) : Index :=
  locals.foldl (fun idx l => l.mergeInto idx) newEmptyIndex

end Workers

variable (tc : Toolchain)

def Tree.sources (ign : GoString → Bool → Bool) (T : Tree) : List (GoString × Entry) :=
  (T.walk ign (fun _ => false)).filter (fun s => indexableFile s.2.lstat && tc.extOK s.1)

def loadSource (s : GoString × Entry) : GoString × Option Loaded :=
  (s.1, s.2.stat.bind (fun info =>
    if indexableFile info then
      s.2.read.map (fun raw => ⟨raw, tc.fileHash raw, info.stamp⟩)
    else none))

/-- `CrawlDir`; none is an error from the ignore policy. -/
def crawlDir (sched : Scheduler (GoString × Entry)) (T : Tree) (workers : Int) :
    Option (Index × Stats) :=
  let workers := normalizeWorkers workers
  match T.ignores tc with
  | none => none
  | some m =>
    let paths := (T.sources tc m.ignored).take maxIndexableFiles
    let locals := (sched.deal workers paths).map (runWorker tc (loadSource tc))
    some (mergeAll locals,
      { filesIndexed := paths.length
        bytesRead := (locals.map LocalIndex.bytesRd).sum
        workers := workers
        errors := paths.countP (fun s => (loadSource tc s).2.isNone)
        changed := 0
        unchanged := 0
        skippedByStamp := 0
        hashed := 0 })

theorem normalizeWorkers_pos (workers : Int) : 0 < normalizeWorkers workers := by
  unfold normalizeWorkers maxWorkers
  split_ifs <;> omega

end CodeMemory.Crawl
