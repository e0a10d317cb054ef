import CodeMemory.Lib.Order
import CodeMemory.Lib.Path

/-! What the crawler computes from one file's path and contents: the token
frequencies, and the definitions, references and imports. A Go file is read by
`go/parser`; every other file, and a Go file that does not parse, by the
line-based heuristics here. Content hashing, Go parsing, typed edges and the
Unicode tables come from a `Toolchain`. -/

namespace CodeMemory.Crawl

open Lib Lib.GoString

inductive EdgeKind where
  | call | reference | import | implementation | inheritance | lexical | definition
  deriving DecidableEq

inductive Authority where
  | ast | heuristic | lexical | scip
  deriving DecidableEq

structure Provenance where
  file : GoString
  line : Nat
  column : Nat
  parser : GoString
  snippet : GoString
  language : GoString
  deriving DecidableEq

/-- One typed relation; `confidence` is the bit pattern of a `float64`. -/
structure Edge where
  fromName : GoString
  toName : GoString
  kind : EdgeKind
  authority : Authority
  confidence : UInt64
  provenance : Provenance
  target : GoString
  deriving DecidableEq

structure FileSymbols where
  defs : List GoString
  refs : List GoString
  imports : List GoString
  deriving DecidableEq

/-- The parts of the extraction that lie outside the crawler's own text. -/
structure Toolchain where
  isLetter : Rune → Bool
  isDigit : Rune → Bool
  isNumber : Rune → Bool
  toLowerRune : Rune → Rune
  fileHash : GoString → GoString
  /-- The symbols of a Go file that parses. -/
  goSymbols : GoString → GoString → Option FileSymbols
  extractTypedEdges : GoString → GoString → List Edge
  /-- The size limit of package `regexp`. -/
  regexpTooLarge : List Char → Bool

namespace Toolchain

variable (tc : Toolchain)

def toLower (s : GoString) : GoString := encodeRunes ((runes s).map tc.toLowerRune)

/-- The maximal runs of runes that satisfy `p`, in order; the open run is held
reversed. -/
def runsFrom (p : Rune → Bool) : List Rune → List Rune → List (List Rune)
  | run, [] => [run.reverse]
  | run, r :: rs => if p r then runsFrom p (r :: run) rs else run.reverse :: runsFrom p [] rs

def runs (p : Rune → Bool) (s : GoString) : List GoString :=
  (runsFrom p [] (runes s)).map encodeRunes

def tokenize (s : GoString) : List GoString :=
  (runs (fun r => tc.isLetter r || tc.isNumber r) (tc.toLower s)).filter (fun t => t ≠ [])

def tokenFreq (s : GoString) : GoMap GoString Nat :=
  (tc.tokenize s).foldl (fun freq t => freq.insert t ((freq.lookup t).getD 0 + 1)) ∅

def tokenizeLine (s : GoString) : List GoString :=
  (runs (fun r => tc.isLetter r || tc.isDigit r || r == '_'.toNat) s).filter (fun t => 3 ≤ t.length)

def importStop : List GoString :=
  ["import", "from", "use", "as", "package", "export", "require", "include", "type", "const",
    "static", "pub", "crate", "super", "self", "mod", "extern", "with", "select", "default"].map lit

def defPrefixes : List GoString :=
  ["def ", "class ", "function ", "fn ", "func ", "pub fn ", "export function ", "export const ",
    "export class ", "export interface ", "export type ", "export default ", "type ", "interface ",
    "const ", "let ", "struct ", "impl ", "enum ", "async def "].map lit

def importPrefixes : List GoString := ["import ", "from ", "use "].map lit

def isDefLine (lower : GoString) : Bool :=
  defPrefixes.any (hasPrefix lower) || decide (lit " implements " <:+: lower)

def appendUniqueStr (xs : List GoString) (v : GoString) : List GoString :=
  if v ∈ xs then xs else xs ++ [v]

/-- One line of the heuristic scan; `found.refs` still holds names that a later
line defines. -/
def scanLine (found : FileSymbols) (line : GoString) : FileSymbols :=
  let trim := trimSpace line
  let lower := tc.toLower trim
  let toks := tc.tokenizeLine trim
  let imports := if importPrefixes.any (hasPrefix lower) then
      (toks.filter (fun t => tc.toLower t ∉ importStop)).foldl appendUniqueStr found.imports
    else found.imports
  if isDefLine lower then
    { found with defs := toks.foldl appendUniqueStr found.defs, imports := imports }
  else { found with refs := toks.foldl appendUniqueStr found.refs, imports := imports }

def extractHeuristicSymbols (body : GoString) : FileSymbols :=
  let found := (body.splitOn 0x0A).foldl tc.scanLine ⟨[], [], []⟩
  { defs := sortStrings found.defs
    refs := sortStrings (found.refs.filter (fun r => r ∉ found.defs))
    imports := sortStrings found.imports }

def extractSymbols (rel body : GoString) : FileSymbols :=
  if body = [] then ⟨[], [], []⟩
  else if tc.toLower (Lib.Path.ext rel) ≠ lit ".go" then tc.extractHeuristicSymbols body
  else (tc.goSymbols rel body).getD (tc.extractHeuristicSymbols body)

/-- ASCII character classes, the contents as their own hash, no typed edges, and a
Go parser that accepts nothing. -/
def ascii : Toolchain where
  isLetter r := (0x41 ≤ r && r ≤ 0x5A) || (0x61 ≤ r && r ≤ 0x7A)
  isDigit r := 0x30 ≤ r && r ≤ 0x39
  isNumber r := 0x30 ≤ r && r ≤ 0x39
  toLowerRune r := if 0x41 ≤ r && r ≤ 0x5A then r + 0x20 else r
  fileHash body := body
  goSymbols _ _ := none
  extractTypedEdges _ _ := []
  regexpTooLarge _ := false

example : ascii.extractHeuristicSymbols (lit "import os\nclass Foo:\n  bar = 1\n") =
    ⟨[lit "Foo", lit "class"], [lit "bar", lit "import"], []⟩ := by
  decide

end Toolchain

end CodeMemory.Crawl
