import CodeMemory.Lib.Fields
import CodeMemory.Lib.GoMap
import CodeMemory.Lib.Order

/-! Packing of source ranges into a bounded context: rendering, allocation of the byte
limit, truncation to whole lines, and the ledger of the ranges a session was given.
Scores are finite; the arithmetic on them is that of `float64`, of which nothing is assumed.
Integers have 64 bits where a product can leave them. -/

namespace CodeMemory.ContextPack

open Lib Lib.GoString

def wrap (n : ℤ) : ℤ := n.bmod (2 ^ 64)

def bytesPerToken : ℤ := 4

def estimateTokens (content : GoString) : ℤ := (content.length + bytesPerToken - 1) / bytesPerToken

/-- Arithmetic of floating-point numbers, with the conversions from and to `int`. -/
structure Floats where
  ofInt : ℤ → ℚ
  add : ℚ → ℚ → ℚ
  mul : ℚ → ℚ → ℚ
  div : ℚ → ℚ → ℚ
  toInt : ℚ → ℤ

/-- Without rounding and overflow. -/
def Floats.exact : Floats := ⟨(↑), (· + ·), (· * ·), (· / ·), fun x => if 0 ≤ x then ⌊x⌋ else ⌈x⌉⟩

structure Budget where
  maxBytes : ℤ
  maxTokens : ℤ

def Budget.byteLimit (b : Budget) : ℤ :=
  let lim := if 0 < b.maxBytes then b.maxBytes else 0
  if 0 < b.maxTokens then
    let tb := wrap (b.maxTokens * bytesPerToken)
    if lim = 0 ∨ tb < lim then tb else lim
  else lim

structure Source where
  path : GoString
  startLine : ℤ
  endLine : ℤ
  content : GoString
  score : ℚ
  direct : Bool

def declKeywords : List GoString :=
  ["package", "import", "func", "type", "const", "var", "class", "struct", "interface", "enum", "trait", "impl",
    "def", "fn", "module", "namespace", "export", "public", "private", "protected"].map lit

def isDeclLine (line : GoString) : Bool :=
  let t := trimSpace line
  declKeywords.any fun kw =>
    decide (t = kw) || (hasPrefix t kw && (t.drop kw.length).head?.any fun rest => rest ∈ lit " \t(\x7b:")

def isCloserLine (line : GoString) : Bool := trimSpace line ∈ ["\x7d", "\x7d);", ")", "]", "end"].map lit

def isBlank (line : GoString) : Bool := trimSpace line = []

def isCommentLine (line : GoString) : Bool := (["//", "#", "/*", "*", "--"].map lit).any (hasPrefix (trimSpace line))

def splitLines (content : GoString) : List GoString := content.splitOn 0x0A

def joinLines (lines : List GoString) : GoString := List.intercalate [0x0A] lines

def filterLines (content : GoString) (keep : GoString → Bool) : List GoString :=
  ((splitLines content).map fun l => (l.reverse.dropWhile fun b => b = 0x20 || b = 0x09).reverse).filter keep

def render (content mode : GoString) : GoString :=
  if mode = lit "signatures" then joinLines (filterLines content isDeclLine)
  else if mode = lit "skeleton" then joinLines (filterLines content fun l => isDeclLine l || isCloserLine l)
  else if mode = lit "compact" then joinLines (filterLines content fun l => !isBlank l && !isCommentLine l)
  else content

def takeLines (maxBytes : ℤ) : GoString → List GoString → GoString
  | b, [] => b
  | b, line :: lines =>
    if maxBytes < b.length + (line.length + 1 : ℤ) then b else takeLines maxBytes (b ++ 0x0A :: line) lines

def truncateLines (content : GoString) (maxBytes : ℤ) : GoString :=
  let maxBytes := max maxBytes 0
  if content.length ≤ maxBytes then content
  else
    match splitLines content with
    | [] => []
    | first :: lines => if maxBytes < first.length then [] else takeLines maxBytes first lines

structure Key where
  path : GoString
  startLine : ℤ
  endLine : ℤ
  variant : GoString
  deriving DecidableEq

structure Handle where
  id : GoString
  key : Key
  fingerprint : GoString

structure Registry where
  seq : ℕ
  byKey : GoMap Key ℕ
  latest : GoMap Key GoString
  issued : GoMap GoString Handle

def newRegistry : Registry := ⟨0, ∅, ∅, ∅⟩

def dedupRef (ordinal : ℕ) : GoString := lit "d" ++ Decimal.natText ordinal

def Registry.track (r : Registry) (k : Key) (fingerprint : GoString) : Bool × GoString × Registry :=
  if r.latest.lookup k = some fingerprint then (true, dedupRef ((r.byKey.lookup k).getD 0), r)
  else
    let ordinal := (r.byKey.lookup k).getD (r.seq + 1)
    (false, dedupRef ordinal,
      { r with seq := r.seq + 1, byKey := r.byKey.insert k ordinal, latest := r.latest.insert k fingerprint })

def Registry.issue (r : Registry) (h : Handle) : Registry := { r with issued := r.issued.insert h.id h }

section Handles

variable (sha256 : GoString → GoString)

def fingerprint (content : GoString) : GoString := Fields.hexText (sha256 content)

def newHandle (k : Key) (content : GoString) : Handle where
  id := lit "h_" ++ Fields.hexText ((sha256 (Fields.separated 0 [k.path, Decimal.intText k.startLine,
    Decimal.intText k.endLine, k.variant, fingerprint sha256 content])).take 8)
  key := k
  fingerprint := fingerprint sha256 content

end Handles

/-- A governor and what its clock will show. -/
structure Governor where
  maxCandidates : ℤ
  maxOutputBytes : ℤ
  maxWallTime : ℤ
  start : ℤ
  candidates : ℤ
  outputBytes : ℤ
  now : ℕ → ℤ

namespace Governor

variable (g : Governor)

def checkTime : Bool × Governor :=
  if g.maxWallTime ≤ 0 then (true, g)
  else (g.now 0 - g.start ≤ g.maxWallTime, { g with now := fun n => g.now (n + 1) })

def allowCandidate : Bool × Governor :=
  if 0 < g.maxCandidates ∧ g.maxCandidates ≤ g.candidates then (false, g)
  else (true, { g with candidates := g.candidates + 1 })

def reserveOutputBytes (n : ℤ) : Bool × Governor :=
  if n < 0 ∨ (0 < g.maxOutputBytes ∧ g.maxOutputBytes < g.outputBytes + n) then (false, g)
  else (true, { g with outputBytes := g.outputBytes + n })

end Governor

/-- The checks before a source is considered: the reason to leave it out. -/
def governed : Option Governor → Option GoString × Option Governor
  | none => (none, none)
  | some g =>
    match g.checkTime with
    | (false, g) => (some (lit "limit_wall_time"), some g)
    | (true, g) =>
      match g.allowCandidate with
      | (false, g) => (some (lit "limit_candidates"), some g)
      | (true, g) => (none, some g)

def reserved (n : ℤ) : Option Governor → Bool × Option Governor
  | none => (true, none)
  | some g => ((g.reserveOutputBytes n).1, some (g.reserveOutputBytes n).2)

structure Candidate where
  index : ℕ
  source : Source
  rendered : GoString

def before (a b : Source) : Bool :=
  if a.score ≠ b.score then b.score < a.score
  else if a.path ≠ b.path then strLe a.path b.path
  else if a.startLine ≠ b.startLine then a.startLine < b.startLine
  else a.endLine ≤ b.endLine

/-- `0.4` in 64 bits. -/
def defaultDirectFloorFraction : ℚ := 3602879701896397 / 2 ^ 53

def floorFraction (f : ℚ) : ℚ :=
  let f := if f ≤ 0 then defaultDirectFloorFraction else f
  if 1 < f then 1 else f

def grant (perDirect : ℤ) (c : Candidate) : ℤ := if c.source.direct then min perDirect c.rendered.length else 0

def weight (c : Candidate) : ℚ := max c.source.score 0

section Allocate

variable (fl : Floats)

def share (remaining : ℤ) (total : ℚ) (count : ℕ) (c : Candidate) : ℤ :=
  if 0 < total then fl.toInt (fl.div (fl.mul (fl.ofInt remaining) (weight c)) total) else remaining / count

def allocate (cs : List Candidate) (limit : ℤ) (floorFrac : ℚ) : List ℤ :=
  if limit ≤ 0 then cs.map fun c => c.rendered.length
  else
    let direct := cs.countP (·.source.direct)
    let perDirect :=
      if 0 < direct then fl.toInt (fl.div (fl.mul (fl.ofInt limit) floorFrac) (fl.ofInt direct)) else 0
    let remaining := limit - (cs.map (grant perDirect)).sum
    let total := cs.foldl (fun total c => fl.add total (weight c)) 0
    cs.map fun c => min (grant perDirect c + share fl remaining total cs.length c) c.rendered.length

end Allocate

structure Request where
  sources : List Source
  budget : Budget
  render : GoString
  directFloorFraction : ℚ

def Request.mode (q : Request) : GoString := if q.render = [] then lit "full" else q.render

/-- An item: the source whose path, range and score it repeats, and what the content was before deduplication. -/
structure PackedItem where
  index : ℕ
  source : Source
  carried : GoString
  content : GoString
  ref : GoString
  dedup : Bool
  bytes : ℤ
  tokens : ℤ
  truncated : Bool
  handle : Handle

structure Omission where
  index : ℕ
  source : Source
  reason : GoString
  handle : Handle

/-- Where the loop of `Pack` stands. -/
structure Packing where
  registry : Option Registry
  governor : Option Governor
  items : List PackedItem
  omitted : List Omission
  usedBytes : ℤ
  usedTokens : ℤ
  truncated : ℤ
  deduped : ℤ
  dedupSavedByte : ℤ

def Packing.omit (p : Packing) (c : Candidate) (handle : Handle) (reason : GoString) : Packing :=
  { p with omitted := p.omitted ++ [⟨c.index, c.source, reason, handle⟩] }

/-- Without a ledger nothing is deduplicated. -/
def tracked (handle : Handle) : Option Registry → Bool × GoString × Option Registry
  | none => (false, [], none)
  | some r =>
    let (dedup, ref, r') := r.track handle.key handle.fingerprint
    (dedup, ref, some r')

def packedItem (registry : Option Registry) (c : Candidate) (handle : Handle) (content : GoString) (truncated : Bool) :
    PackedItem :=
  let dedup := (tracked handle registry).1
  { index := c.index, source := c.source, carried := content, content := if dedup then [] else content
    ref := (tracked handle registry).2.1, dedup := dedup, bytes := if dedup then 0 else content.length
    tokens := if dedup then 0 else estimateTokens content, truncated := truncated && !dedup, handle := handle }

def Packing.emit (p : Packing) (c : Candidate) (handle : Handle) (content : GoString) (truncated : Bool) : Packing :=
  let item := packedItem p.registry c handle content truncated
  { p with
    registry := (tracked handle p.registry).2.2
    items := p.items ++ [item]
    usedBytes := p.usedBytes + item.bytes
    usedTokens := p.usedTokens + item.tokens
    truncated := p.truncated + if item.truncated then 1 else 0
    deduped := p.deduped + if item.dedup then 1 else 0
    dedupSavedByte := p.dedupSavedByte + if item.dedup then (content.length : ℤ) else 0 }

/-- The most bytes an item may have, unless the tokens are used up. -/
def itemLimit (b : Budget) (alloc usedTokens : ℤ) : Option ℤ :=
  if 0 < b.maxTokens then
    let remaining := b.maxTokens - usedTokens
    let tokenBytes := wrap (remaining * bytesPerToken)
    if remaining ≤ 0 then none else some (if alloc = 0 ∨ tokenBytes < alloc then tokenBytes else alloc)
  else some alloc

def cut (rendered : GoString) (limit : ℤ) : GoString × Bool :=
  if limit < rendered.length then (truncateLines rendered limit, true) else (rendered, false)

section Pack

variable (sha256 : GoString → GoString) (q : Request)

def Request.key (c : Candidate) (alloc : ℤ) : Key :=
  ⟨c.source.path, c.source.startLine, c.source.endLine, q.mode ++ lit ":" ++ Decimal.intText alloc⟩

def packOne (p : Packing) (ca : Candidate × ℤ) : Packing :=
  let (c, alloc) := ca
  let handle := newHandle sha256 (q.key c alloc) c.source.content
  let (reason, governor) := governed p.governor
  let p := { p with registry := p.registry.map (Registry.issue · handle), governor := governor }
  match reason with
  | some reason => p.omit c handle reason
  | none =>
    match itemLimit q.budget alloc p.usedTokens with
    | none => p.omit c handle (lit "budget")
    | some limit =>
      let (content, truncated) := cut c.rendered limit
      if truncated ∧ content = [] then p.omit c handle (lit "budget")
      else
        let (granted, governor) := reserved content.length p.governor
        let p := { p with governor := governor }
        if granted then p.emit c handle content truncated else p.omit c handle (lit "limit_output_bytes")

/-- The output that a governor still allows, if it limits it. -/
def room : Option Governor → Option ℤ
  | none => none
  | some g => if 0 < g.maxOutputBytes then some (g.maxOutputBytes - g.outputBytes) else none

theorem room_governed (g : Option Governor) : room (governed g).2 = room g := by
  cases g with
  | none => rfl
  | some g =>
    simp only [governed, Governor.checkTime, Governor.allowCandidate]
    grind [room]

theorem room_reserved (n : ℤ) (g : Option Governor) : if (reserved n g).1 then
    room (reserved n g).2 = (room g).map (· - n) ∧ ∀ left ∈ room g, n ≤ left else room (reserved n g).2 = room g := by
  cases g with
  | none => simp [reserved, room]
  | some g =>
    simp only [reserved, Governor.reserveOutputBytes]
    grind [room]

/-- A source is left out, or an item with what the limit leaves of it is emitted, as far as the governor allows it. -/
theorem packOne_cases (p : Packing) (c : Candidate) (alloc : ℤ) :
    (∃ governor o, o.index = c.index ∧ o.source = c.source ∧ room governor = room p.governor ∧
      packOne sha256 q p (c, alloc) =
        { p with
          registry := p.registry.map (Registry.issue · (newHandle sha256 (q.key c alloc) c.source.content))
          governor := governor
          omitted := p.omitted ++ [o] }) ∨
    ∃ governor limit, itemLimit q.budget alloc p.usedTokens = some limit ∧
      room governor = (room p.governor).map (· - ((cut c.rendered limit).1.length : ℤ)) ∧
      (∀ left ∈ room p.governor, ((cut c.rendered limit).1.length : ℤ) ≤ left) ∧ packOne sha256 q p (c, alloc) =
        { p with
          registry := p.registry.map (Registry.issue · (newHandle sha256 (q.key c alloc) c.source.content))
          governor := governor }.emit c (newHandle sha256 (q.key c alloc) c.source.content) (cut c.rendered limit).1
            (cut c.rendered limit).2 := by
  have hgov := room_governed p.governor
  unfold packOne
  simp only
  split
  · exact .inl ⟨_, _, rfl, rfl, hgov, rfl⟩
  · split
    · exact .inl ⟨_, _, rfl, rfl, hgov, rfl⟩
    · next limit hlimit =>
      have hreserved := room_reserved (cut c.rendered limit).1.length (governed p.governor).2
      rw [hgov] at hreserved
      split_ifs with hempty hgranted
      · exact .inl ⟨_, _, rfl, rfl, hgov, rfl⟩
      · rw [if_pos hgranted] at hreserved
        exact .inr ⟨_, limit, hlimit, hreserved.1, hreserved.2, rfl⟩
      · rw [if_neg hgranted] at hreserved
        exact .inl ⟨_, _, rfl, rfl, hreserved, rfl⟩

def Request.ordered : List Candidate :=
  (q.sources.zipIdx.insertionSort fun a b => before a.1 b.1 = true).map fun s =>
    ⟨s.2, s.1, ContextPack.render s.1.content q.mode⟩

def Request.allocations (fl : Floats) : List ℤ :=
  allocate fl q.ordered q.budget.byteLimit (floorFraction q.directFloorFraction)

def pack (fl : Floats) (registry : Option Registry) (governor : Option Governor) : Packing :=
  (q.ordered.zip (q.allocations fl)).foldl (packOne sha256 q) ⟨registry, governor, [], [], 0, 0, 0, 0, 0⟩

end Pack

end CodeMemory.ContextPack
