import CodeMemory.Crawl.Extract
import CodeMemory.Hosted.Chunks
import CodeMemory.Lib.Path

/-! Watched folders: a directory of text and JSONL files, or one JSONL file. Every
entry says whether it can be read at the moment; `LoadDocuments` passes over what
it cannot read and returns the rest. -/

namespace CodeMemory.Continual

open Lib Lib.GoString Lib.Path Crawl Hosted

/-- `json.Unmarshal` of a line into a map, with every value as `fmt.Sprint` prints
it; a null has no text. -/
abbrev Unmarshal := GoString → Option (GoMap GoString (Option GoString))

def strField (row : GoMap GoString (Option GoString)) : List GoString → GoString
  | [] => []
  | k :: keys =>
    match (row.lookup k).join with
    | some v => if trimSpace v ≠ [] ∧ trimSpace v ≠ lit "<nil>" then trimSpace v else strField row keys
    | none => strField row keys

def parseDocLine (unmarshal : Unmarshal) (line : GoString) : Option LocalDocument :=
  (unmarshal line).bind (fun row =>
    let id := strField row [lit "id", lit "document_id", lit "doc_id"]
    let text := strField row [lit "text", lit "body", lit "content"]
    let title := strField row [lit "title", lit "name"]
    let uri := strField row [lit "source_uri", lit "uri", lit "path"]
    if id = [] then none else if text = [] ∧ title = [] then none else some ⟨id, title, text, uri⟩)

/-- A line of a file. One that does not decode has been damaged since it was
written. -/
structure Line where
  text : GoString
  decodes : Bool

def lineDocument (unmarshal : Unmarshal) (l : Line) : Option LocalDocument :=
  let line := trimSpace l.text
  if line = [] ∨ l.decodes = false then none
  else (parseDocLine unmarshal line).filter (fun d => d.id ≠ [] ∧ d.text ≠ [])

structure SourceFile where
  modTime : Int64
  size : Int64
  readable : Bool
  lines : List Line

def SourceFile.raw (f : SourceFile) : GoString := List.intercalate (lit "\n") (f.lines.map Line.text)

/-- The entries of a directory, in the order of `filepath.Walk`. -/
inductive Listing where
  | nil
  | file (name : GoString) (f : SourceFile) (rest : Listing)
  | dir (name : GoString) (listed : Bool) (sub : Listing) (rest : Listing)

inductive Node where
  | file (f : SourceFile)
  | dir (listed : Bool) (l : Listing)

/-- What is at a watched path, and whether `os.Stat` succeeds on it. -/
structure Source where
  path : GoString
  node : Option Node
  found : Bool

structure Reader where
  tc : Toolchain
  unmarshal : Unmarshal

def loadJSONL (rd : Reader) (f : SourceFile) : Option (List LocalDocument) :=
  if f.readable = false then none else some (f.lines.filterMap (lineDocument rd.unmarshal))

def textExts : List GoString := [lit ".md", lit ".txt", lit ".markdown"]

def Reader.extOf (rd : Reader) (rel : GoString) : GoString := rd.tc.toLower (ext rel)

def loadFile (rd : Reader) (path rel : GoString) (f : SourceFile) : List LocalDocument :=
  if rd.extOf rel ∈ textExts then
    if f.readable = false then []
    else [⟨trimSuffix rel (rd.extOf rel), [], f.raw, lit "file://" ++ clean (path ++ slash :: rel)⟩]
  else if rd.extOf rel = lit ".jsonl" then (loadJSONL rd f).getD []
  else []

/-- The walk below the directory `dirs` of the folder. -/
def Listing.load (rd : Reader) (path : GoString) (dirs : Rel) : Listing → List LocalDocument
  | .nil => []
  | .file n f rest => loadFile rd path (join (dirs ++ [n])) f ++ rest.load rd path dirs
  | .dir n listed sub rest =>
    (if listed = false then [] else sub.load rd path (dirs ++ [n])) ++ rest.load rd path dirs

def Source.stat (s : Source) : Option Node := if s.found = false then none else s.node

def loadDocuments (rd : Reader) (s : Source) : Option (List LocalDocument) :=
  match s.stat with
  | none => none
  | some (.file f) => loadJSONL rd f
  | some (.dir listed l) => some (if listed = false then [] else l.load rd s.path [])

/-- One file in the fingerprint of a folder: the hash and the number of files. -/
def stampFile (rd : Reader) (rel : GoString) (f : SourceFile) (h : Int64 × Int64) : Int64 × Int64 :=
  if rd.extOf rel ∈ textExts ∨ rd.extOf rel = lit ".jsonl" then
    let mixed := rel.foldl (fun h b => (h * 1099511628211) ^^^ b.toNat.toInt64) h.1
    ((mixed ^^^ f.modTime) ^^^ (f.size * 2654435761), h.2 + 1)
  else h

def Listing.stamp (rd : Reader) (dirs : Rel) : Listing → Int64 × Int64 → Int64 × Int64
  | .nil, h => h
  | .file n f rest, h => rest.stamp rd dirs (stampFile rd (join (dirs ++ [n])) f h)
  | .dir n listed sub rest, h =>
    rest.stamp rd dirs (if listed = false then h else sub.stamp rd (dirs ++ [n]) h)

def pathStamp (rd : Reader) (s : Source) : Option Int64 :=
  match s.stat with
  | none => none
  | some (.file f) => some (f.modTime ^^^ (f.size <<< 1))
  | some (.dir listed l) =>
    let h := if listed = false then (1469598103934665603, 0) else l.stamp rd [] (1469598103934665603, 0)
    some ((h.1 ^^^ h.2) ^^^ (h.2 <<< 17))

def liveIDs (docs : List LocalDocument) : Finset GoString :=
  (docs.map (fun d => trimSpace d.id)).toFinset.erase []

theorem mem_liveIDs {docs : List LocalDocument} {id : GoString} :
    id ∈ liveIDs docs ↔ id ≠ [] ∧ ∃ d ∈ docs, trimSpace d.id = id := by
  simp [liveIDs]

/-- `liveDocIDsUnion`: one folder that cannot be loaded ends it. -/
def liveDocIDsUnion (rd : Reader) : List Source → Option (Finset GoString)
  | [] => some ∅
  | s :: rest => (loadDocuments rd s).bind (fun docs =>
      (liveDocIDsUnion rd rest).map (fun live => liveIDs docs ∪ live))

end CodeMemory.Continual
