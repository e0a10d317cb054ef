import CodeMemory.Crawl.Types

/-! SCIP documents: the edges that one document gives for a file, and how they
are merged into the edges that the index keeps for it. -/

namespace CodeMemory.Crawl

open Lib Lib.GoString

/-- One row of the occurrences table; `symbolRoles` is an `int32` bitset. -/
structure SCIPOccurence where
  range : List UInt32
  symbol : GoString
  symbolRoles : BitVec 32

structure SCIPSymbol where
  symbol : GoString
  displayName : GoString

structure SCIPDocument where
  toolName : GoString
  toolVersion : GoString
  occurrences : List SCIPOccurence
  symbols : List SCIPSymbol

inductive SCIPSymbolRole where
  | definition | import | writeAccess | readAccess | generated | test | forwardDefinition | unspecified
  | unknown (bits : BitVec 32)
  deriving DecidableEq

structure SCIPEdge where
  path : GoString
  fromName : GoString
  toName : GoString
  kind : EdgeKind
  role : SCIPSymbolRole
  confidence : UInt64
  language : GoString
  startLine : UInt32
  startCol : UInt32
  endLine : UInt32
  endCol : UInt32
  snippet : GoString

def maxSCIPOccurrences : Nat := 250000

def maxSCIPSymbols : Nat := 1000000

def scipRoleKnownMask : BitVec 32 := 0x7f

/-- The first role bit that is set, the most specific first; the confidences are
the bit patterns of 0.99, 0.95, 0.85, 0.75, 0.7 and 0.5. -/
def roleClassifier (roles : BitVec 32) : Option (EdgeKind × UInt64 × SCIPSymbolRole) :=
  if roles &&& 0x1 ≠ 0 then some (.definition, 0x3fefae147ae147ae, .definition)
  else if roles &&& 0x40 ≠ 0 then some (.definition, 0x3fee666666666666, .forwardDefinition)
  else if roles &&& 0x2 ≠ 0 then some (.import, 0x3feb333333333333, .import)
  else if roles &&& 0x4 ≠ 0 then some (.reference, 0x3fe8000000000000, .writeAccess)
  else if roles &&& 0x8 ≠ 0 then some (.reference, 0x3fe6666666666666, .readAccess)
  else if roles &&& 0x10 ≠ 0 then some (.reference, 0x3fe0000000000000, .generated)
  else if roles &&& 0x20 ≠ 0 then some (.reference, 0x3fe0000000000000, .test)
  else none

/-- An occurrence without a known role is a reference of confidence 0.4. -/
def classify (roles : BitVec 32) : EdgeKind × UInt64 × SCIPSymbolRole :=
  match roleClassifier roles with
  | some r => r
  | none =>
    let unknown := roles &&& ~~~scipRoleKnownMask
    (.reference, 0x3fd999999999999a, if unknown ≠ 0 then .unknown unknown else .unspecified)

def rangeBounds : List UInt32 → UInt32 × UInt32 × UInt32 × UInt32
  | a :: b :: c :: d :: _ => (a, b, c, d)
  | [a, b, c] => (a, b, c, b)
  | [a, b] => (a, b, a, b)
  | _ => (0, 0, 0, 0)

def space : UInt8 := 0x20

def dot : UInt8 := 0x2e

def derivePathFromSymbol (symbol : GoString) : GoString :=
  let parts := symbol.splitOn space
  if parts.length < 2 then []
  else
    let descriptor := parts.getLastD []
    if dot ∈ descriptor then trimPrefix ((descriptor.dropWhile (· ≠ dot)).drop 1) (lit "/") else []

/-- The trailing identifier of a descriptor, up to a disambiguator. -/
def lastSCIPName (symbol : GoString) : GoString :=
  if space ∈ symbol then
    let descriptor := trimSuffix ((symbol.splitOn space).getLastD []) (lit ".")
    let parts := (descriptor.splitOnP (fun b => b == 0x2f || b == dot)).filter (fun p => p ≠ [])
    (parts.getLastD []).takeWhile (fun b => b ∉ lit "()#:")
  else symbol

def displayNames (symbols : List SCIPSymbol) : GoMap GoString GoString :=
  symbols.foldl (fun names sym =>
    if sym.symbol = [] ∨ sym.displayName = [] then names else names.insert sym.symbol sym.displayName) ∅

def EdgeKind.text : EdgeKind → GoString
  | .call => lit "call"
  | .reference => lit "reference"
  | .import => lit "import"
  | .implementation => lit "implementation"
  | .inheritance => lit "inheritance"
  | .lexical => lit "lexical"
  | .definition => lit "definition"

def occurrenceEdge (names : GoMap GoString GoString) (language pathOverride : GoString)
    (occ : SCIPOccurence) : SCIPEdge :=
  let (kind, confidence, role) := classify occ.symbolRoles
  let (startLine, startCol, endLine, endCol) := rangeBounds occ.range
  let display := (names.lookup occ.symbol).getD []
  { path := if pathOverride = [] then derivePathFromSymbol occ.symbol else pathOverride
    fromName := []
    toName := if display = [] then lastSCIPName occ.symbol else display
    kind, role, confidence, language, startLine, startCol, endLine, endCol
    snippet := [] }

def scipEdgeLe (a b : SCIPEdge) : Bool :=
  if a.kind.text ≠ b.kind.text then strLe a.kind.text b.kind.text
  else if a.path ≠ b.path then strLe a.path b.path
  else if a.fromName ≠ b.fromName then strLe a.fromName b.fromName
  else if a.toName ≠ b.toName then strLe a.toName b.toName
  else if a.startLine ≠ b.startLine then a.startLine < b.startLine
  else a.startCol ≤ b.startCol

structure SCIPStats where
  occurrences : Nat
  edges : Nat
  definitions : Nat
  references : Nat
  imports : Nat
  truncated : Nat
  deriving DecidableEq

inductive SCIPError where
  | emptyPath | tooManyOccurrences | tooManySymbols
  deriving DecidableEq

/-- `codeindex.IngestSCIP`; on an error, how far the limit was passed. -/
def SCIPDocument.edges (doc : SCIPDocument) (language pathOverride : GoString) :
    Except (SCIPError × Nat) (List SCIPEdge × SCIPStats) :=
  if doc.occurrences.length > maxSCIPOccurrences then
    .error (.tooManyOccurrences, doc.occurrences.length - maxSCIPOccurrences)
  else if doc.symbols.length > maxSCIPSymbols then
    .error (.tooManySymbols, doc.symbols.length - maxSCIPSymbols)
  else
    let es := doc.occurrences.map (occurrenceEdge (displayNames doc.symbols) language pathOverride)
    let count (k : EdgeKind) := es.countP (fun e => e.kind = k)
    .ok (es.insertionSort (fun a b => scipEdgeLe a b = true),
      ⟨doc.occurrences.length, es.length, count .definition, count .reference, count .import, 0⟩)

def convertSCIPEdge (e : SCIPEdge) (fallbackPath : GoString) : Edge where
  fromName := e.fromName
  toName := e.toName
  kind := e.kind
  authority := .scip
  confidence := e.confidence
  provenance :=
    { file := if e.path = [] then fallbackPath else e.path
      line := e.startLine.toNat
      column := e.startCol.toNat
      parser := lit "scip"
      snippet := e.snippet
      language := e.language }
  target := []

def authorityRank : Authority → Nat
  | .scip => 4
  | .ast => 3
  | .heuristic => 2
  | .lexical => 1

def edgeLe (a b : Edge) : Bool :=
  if a.kind.text ≠ b.kind.text then strLe a.kind.text b.kind.text
  else if a.fromName ≠ b.fromName then strLe a.fromName b.fromName
  else if a.toName ≠ b.toName then strLe a.toName b.toName
  else if a.provenance.line ≠ b.provenance.line then a.provenance.line < b.provenance.line
  else if a.provenance.column ≠ b.provenance.column then a.provenance.column < b.provenance.column
  else strLe a.provenance.file b.provenance.file

def sortEdges (edgeCap : Nat) (es : List Edge) : List Edge :=
  (es.insertionSort (fun a b => edgeLe a b = true)).take edgeCap

structure SCIPIngestStats where
  toolName : GoString
  toolVersion : GoString
  scip : SCIPStats
  appliedFiles : Nat
  droppedFiles : Nat
  deriving DecidableEq

/-- The edges of `path` after a document's edges are merged: SCIP edges of an
earlier document go, the others stay, and the cap drops what comes last. -/
def mergeSCIP (edgeCap : Nat) (existing fresh : List Edge) : List Edge :=
  let kept := existing.filter (fun e => e.authority ≠ .scip ∧ authorityRank e.authority < authorityRank .scip)
  kept ++ fresh.take (edgeCap - kept.length)

def Index.ingestSCIP (edgeCap : Nat) (idx : Index) (doc : SCIPDocument) (path language : GoString) :
    Except (SCIPError × Nat) (Index × SCIPIngestStats) := do
  if path = [] then .error (.emptyPath, 0)
  else
    let (es, stats) ← doc.edges language path
    let existing := (idx.fileEdges.lookup path).getD []
    let merged := mergeSCIP edgeCap existing (es.map (convertSCIPEdge · path))
    let kept := mergeSCIP edgeCap existing []
    let applied := merged.length - kept.length
    .ok ({ idx with fileEdges := idx.fileEdges.insert path (sortEdges edgeCap merged) },
      ⟨doc.toolName, doc.toolVersion, { stats with edges := applied }, 1, es.length - applied⟩)

end CodeMemory.Crawl
