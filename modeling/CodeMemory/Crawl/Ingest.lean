import CodeMemory.Crawl.Delta

/-! Targeted ingestion: given paths are looked up one by one, and their entries
removed, replaced or left alone. -/

namespace CodeMemory.Crawl

open Lib Lib.GoString Lib.Path

/-- The elements below the root that a cleaned path names. -/
def relElems (rel : GoString) : Rel := (rel.splitOn slash).filter (fun c => c ≠ [] ∧ c ≠ lit ".")

namespace Tree

def resolve (T : Tree) (p : Rel) : Option Found :=
  match T.listing.lookup p with
  | some (.dir _) => some .dir
  | some (.file e) => some (.file e)
  | none => T.outside p

/-- Whether the root is the root of the file system, below which no path passes
the test for a descendant. -/
def isSystemRoot (T : Tree) : Bool := decide (T.rootName = lit "/")

end Tree

namespace Index

def purge (idx : Index) (rel : GoString) : Index :=
  { idx with
    files := idx.files.erase rel
    filePostings := idx.filePostings.erase rel
    fileDefs := idx.fileDefs.erase rel
    fileRefs := idx.fileRefs.erase rel
    fileImps := idx.fileImps.erase rel
    fileHashes := idx.fileHashes.erase rel
    fileStamps := idx.fileStamps.erase rel
    fileEdges := idx.fileEdges.erase rel }

def replace (tc : Toolchain) (idx : Index) (rel : GoString) (x : Loaded) : Index :=
  let idx := { idx with
    filePostings := idx.filePostings.erase rel
    fileDefs := idx.fileDefs.erase rel
    fileRefs := idx.fileRefs.erase rel
    fileImps := idx.fileImps.erase rel
    fileEdges := idx.fileEdges.erase rel }
  let idx := (newLocalIndex.addLoaded tc rel x).mergeInto idx
  { idx with
    fileHashes := idx.fileHashes.insert rel x.hash
    fileStamps := idx.fileStamps.insert rel x.stamp }

end Index

inductive IngestAction where
  | skip
  | purge (rel : GoString)
  | replace (rel : GoString) (x : Loaded)

variable (tc : Toolchain)

/-- The checks on one cleaned path, in the order they are made. -/
def targetAction (ign : GoString → Bool → Bool) (T : Tree) (rel : GoString) :
    IngestAction :=
  if rel = lit ".." ∨ hasPrefix rel (lit "../") then .skip
  else if T.isSystemRoot ∧ relElems rel ≠ [] then .skip
  else match T.resolve (relElems rel) with
    | none => .purge rel
    | some .dir => .skip
    | some (.file e) =>
      match e.stat with
      | none => .purge rel
      | some info =>
        if info.isDir || ign rel false then .skip
        else if !indexableFile e.lstat then .skip
        else if !indexableFile info then .skip
        else if !tc.extOK rel then .skip
        else match e.read with
          | none => .skip
          | some raw => .replace rel ⟨raw, tc.fileHash raw, info.stamp⟩

/-- The cleaned form of a given path; a blank path names nothing. -/
def ingestTarget (given : GoString) : Option GoString :=
  let rel := trimSpace given
  if rel = [] then none else some (clean rel)

def ingestAction (ign : GoString → Bool → Bool) (T : Tree) (given : GoString) :
    IngestAction :=
  match ingestTarget given with
  | none => .skip
  | some rel => targetAction tc ign T rel

def Index.apply (idx : Index) : IngestAction → Index
  | .skip => idx
  | .purge rel => idx.purge rel
  | .replace rel x => idx.replace tc rel x

def IngestAction.changes : IngestAction → Bool
  | .skip => false
  | .purge _ => true
  | .replace _ _ => true

/-- `IngestPaths`, with the number of changed paths; none is an error from the
ignore policy. -/
def ingestPaths (T : Tree) (idx : Index) (rels : List GoString) :
    Option (Index × Nat) :=
  match T.ignores tc with
  | none => none
  | some m =>
    let actions := rels.map (ingestAction tc m.ignored T)
    some (rebuildGlobalFromFiles tc (actions.foldl (Index.apply tc) idx),
      actions.countP IngestAction.changes)

end CodeMemory.Crawl
