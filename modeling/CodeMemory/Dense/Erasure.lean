import CodeMemory.Lib.Order
import Mathlib.Data.List.Sort
import Mathlib.Algebra.Order.Field.Rat

/-! The in-process vector index, its searches and the erasure of documents from it. A search
names a vector's document by its metadata, an erasure by the text of the vector's id, so
an erasure is exact where the two agree on every stored vector. -/

namespace CodeMemory.Dense

open Lib Lib.GoString List

abbrev Vec := List ℚ

structure HitMetadata where
  documentID : GoString
  chunkID : GoString
  sourceURI : GoString
  deriving DecidableEq

structure Hit where
  vectorID : GoString
  documentID : GoString
  chunkID : GoString
  sourceURI : GoString
  score : ℚ

structure IndexIdentity where
  scope : GoString
  model : GoString
  dimensions : ℤ
  contentDigest : GoString

/-- The modes of a search; the empty text is `auto`. -/
inductive SearchMode
  | auto
  | exact
  | ann
  | invalid
  deriving DecidableEq

inductive SearchError
  | mode
  | scope
  | model
  | dimensions
  | contentDigest

/-- One position of the parallel slices `ids`, `vecs` and `meta`. -/
structure Slot where
  id : GoString
  vec : Vec
  metadata : HitMetadata
  deriving DecidableEq

structure HNSW where
  dim : ℕ
  scope : GoString
  model : GoString
  digest : GoString
  m : ℕ
  ef : ℕ
  slots : List Slot
  graph : List (List ℕ)
  /-- The first vector fixes the dimension, and no vector is empty. -/
  dim_pos : slots ≠ [] → 0 < dim

def hnswExactThreshold : ℕ := 512

def normalizeHitMetadata (id : GoString) (metadata : HitMetadata) : HitMetadata :=
  { metadata with
    documentID := if metadata.documentID = [] then id else metadata.documentID
    chunkID := if metadata.chunkID = [] then id ++ lit "#0" else metadata.chunkID }

def Slot.document (s : Slot) : GoString := (normalizeHitMetadata s.id s.metadata).documentID

def Slot.hit (s : Slot) (score : ℚ) : Hit :=
  { vectorID := s.id, documentID := s.document
    chunkID := (normalizeHitMetadata s.id s.metadata).chunkID
    sourceURI := s.metadata.sourceURI, score := score }

def cosineUnit (a b : Vec) : ℚ := if a.length = b.length then (List.zipWith (· * ·) a b).sum else 0

namespace HNSW

variable (h : HNSW)

abbrev Cand := ℕ × ℚ

def similarity (q : Vec) (i : ℕ) : ℚ := h.slots[i]?.elim 0 (cosineUnit q ·.vec)

def idAt (i : ℕ) : GoString := h.slots[i]?.elim [] (·.id)

def before (a b : Cand) : Bool := if a.2 ≠ b.2 then b.2 < a.2 else strLe (h.idAt a.1) (h.idAt b.1)

def ranked (cs : List Cand) : List Cand := cs.insertionSort (fun a b => h.before a b = true)

def hitLocked (c : Cand) : Option Hit := h.slots[c.1]?.map (·.hit c.2)

/-- The positions that the entry of an approximate search is chosen among. -/
def entries : List ℕ :=
  let step := if h.ef < h.slots.length then max 1 (h.slots.length / h.ef) else 1
  (List.range h.slots.length).filter (· % step = 0)

def entry (q : Vec) : Cand :=
  h.entries.foldl (fun best i => if best.2 < h.similarity q i then (i, h.similarity q i) else best)
    (0, h.similarity q 0)

/-- A neighbour that was not met before joins the frontier. -/
def visit (q : Vec) (seen : List ℕ × List Cand) (nb : ℕ) : List ℕ × List Cand :=
  if nb ∈ seen.1 then seen else (nb :: seen.1, seen.2 ++ [(nb, h.similarity q nb)])

/-- The greedy expansion; `n` bounds the positions still to be taken. -/
def expand (q : Vec) : ℕ → List ℕ → List Cand → List Cand → List Cand
  | 0, _, _, heap => heap
  | n + 1, visited, frontier, heap =>
    match h.ranked frontier with
    | [] => heap
    | cur :: rest =>
      let seen := ((h.graph[cur.1]?).getD []).foldl (h.visit q) (visited, rest)
      expand q n seen.1 seen.2 (heap ++ [cur])

def distinct : List GoString → List Cand → List Cand
  | _, [] => []
  | seen, c :: cs =>
    if h.idAt c.1 ∈ seen then distinct seen cs else c :: distinct (h.idAt c.1 :: seen) cs

def searchExact (q : Vec) (topK : ℕ) : List Hit :=
  ((h.ranked ((List.range h.slots.length).map fun i => (i, h.similarity q i))).take topK).filterMap h.hitLocked

def searchApprox (q : Vec) (topK : ℕ) : List Hit :=
  let best := h.entry q
  let heap := h.ranked (h.expand q (h.ef * 2) [best.1] [best] [])
  ((h.distinct [] heap).take topK).filterMap h.hitLocked

/-- What `SearchScopedMode` refuses with, in its order. -/
def refusal (query : Vec) (expected : IndexIdentity) (mode : SearchMode) : Option SearchError :=
  if mode = .invalid then some .mode
  else if expected.scope ≠ [] ∧ expected.scope ≠ h.scope then some .scope
  else if expected.model ≠ [] ∧ expected.model ≠ h.model then some .model
  else if 0 < expected.dimensions ∧ expected.dimensions ≠ h.dim then some .dimensions
  else if expected.contentDigest ≠ [] ∧ expected.contentDigest ≠ h.digest then some .contentDigest
  else if query.length ≠ h.dim then some .dimensions
  else none

/-- `SearchScopedMode` without its diagnostics; `Search` is the mode `auto` and no expected
identity. -/
def searchScopedMode (normalizeCopy : Vec → Vec) (query : Vec) (topK : ℤ) (expected : IndexIdentity)
    (mode : SearchMode) : Except SearchError (List Hit) :=
  if query = [] ∨ topK = 0 then .ok []
  else match h.refusal query expected mode with
    | some e => .error e
    | none =>
      let limit := if topK < 0 then h.slots.length else topK.toNat
      if h.slots = [] then .ok []
      else if mode = .exact ∨ mode = .auto ∧ h.slots.length ≤ hnswExactThreshold then
        .ok (h.searchExact (normalizeCopy query) limit)
      else .ok (h.searchApprox (normalizeCopy query) limit)

end HNSW

def vectorIDMatchesDocument (vectorID docID : GoString) : Bool :=
  docID ≠ [] && (vectorID == docID || (docID ++ lit "#").isPrefixOf vectorID)

def vectorIDMatchesAnyDocument (vectorID : GoString) (docIDs : List GoString) : Bool :=
  docIDs.any (vectorIDMatchesDocument vectorID)

namespace HNSW

def new (dim m ef : ℕ) : HNSW :=
  { dim := dim, scope := [], model := [], digest := [], m := if m = 0 then 16 else m
    ef := if ef = 0 then 64 else ef, slots := [], graph := [], dim_pos := fun hs => absurd rfl hs }

section Mutators

-- `rewire slots i graph` is `rewireLocked i`: erasure does not depend on the edges it chooses.
variable (normalizeCopy : Vec → Vec) (rewire : List Slot → ℕ → List (List ℕ) → List (List ℕ)) (h : HNSW)

/-- A vector replaces the one of its id or takes a new slot. -/
def upsertWithMetadata (id : GoString) (vec : Vec) (metadata : HitMetadata) : Option HNSW :=
  if hne : id = [] ∨ vec = [] then none
  else if vec.length ≠ (if h.dim = 0 then vec.length else h.dim) then none
  else
    let slot : Slot := ⟨id, normalizeCopy vec, normalizeHitMetadata id metadata⟩
    let at? := h.slots.findIdx? (·.id = id)
    let slots := at?.elim (h.slots ++ [slot]) (h.slots.set · slot)
    some { h with
      dim := if h.dim = 0 then vec.length else h.dim
      slots := slots
      graph := rewire slots (at?.getD h.slots.length) (if at?.isSome then h.graph else h.graph ++ [[]])
      dim_pos := fun _ => by
        have := List.length_pos_iff.2 (not_or.1 hne).2
        split_ifs <;> omega }

def deleteDocuments (docIDs : List GoString) : HNSW :=
  let keep := h.slots.filter fun s => !vectorIDMatchesAnyDocument s.id docIDs
  if keep.length = h.slots.length then h
  else
    { h with
      slots := keep
      graph := (List.range keep.length).foldl (fun g i => rewire keep i g) (List.replicate keep.length [])
      dim_pos := fun hk => h.dim_pos fun hs => hk (by simp [keep, hs]) }

end Mutators

def hasDocuments (h : HNSW) (docIDs : List GoString) : List GoString :=
  sortStrings ((docIDs.filter fun d => h.slots.any (vectorIDMatchesDocument ·.id d)).dedup)

end HNSW

section Erasure

variable (normalizeCopy : Vec → Vec) (rewire : List Slot → ℕ → List (List ℕ) → List (List ℕ))

/-- The erasure of `docIDs` is exact: no search in any mode names one of them, none is
reported as stored, and the vectors of the other documents stand as they were. -/
structure Exact (h h' : HNSW) (docIDs : List GoString) : Prop where
  unfound : ∀ query topK expected mode hits, h'.searchScopedMode normalizeCopy query topK expected mode = .ok hits →
    ∀ hit ∈ hits, hit.documentID ∉ docIDs
  unstored : h'.hasDocuments docIDs = []
  others : h'.slots.filter (·.document ∉ docIDs) = h.slots.filter (·.document ∉ docIDs)

variable {h : HNSW} {docIDs : List GoString}

/-- Erasure removes the slots whose id matches and keeps the others in their order. -/
theorem slots_deleteDocuments : (h.deleteDocuments rewire docIDs).slots =
    h.slots.filter fun s => !vectorIDMatchesAnyDocument s.id docIDs := by
  simp only [HNSW.deleteDocuments]
  split_ifs with hlen
  · exact (filter_sublist.eq_of_length hlen).symm
  · rfl

theorem mem_deleteDocuments {s : Slot} : s ∈ (h.deleteDocuments rewire docIDs).slots ↔
    s ∈ h.slots ∧ vectorIDMatchesAnyDocument s.id docIDs = false := by
  simp [slots_deleteDocuments]

/-- The verifier asks by the same match as the erasure, so it finds nothing. -/
theorem hasDocuments_deleteDocuments : (h.deleteDocuments rewire docIDs).hasDocuments docIDs = [] := by
  have hnone : (docIDs.filter fun d =>
      (h.deleteDocuments rewire docIDs).slots.any (vectorIDMatchesDocument ·.id d)) = [] := by
    rw [filter_eq_nil_iff]
    intro d hd hany
    obtain ⟨s, hs, hm⟩ := any_eq_true.1 hany
    have hfree := ((mem_deleteDocuments rewire).1 hs).2
    exact Bool.false_ne_true (hfree.symm.trans (any_eq_true.2 ⟨d, hd, hm⟩))
  rw [HNSW.hasDocuments, hnone]
  rfl

/-- Every hit is a hit on a stored slot, in every mode. -/
theorem hit_of_search {query : Vec} {topK : ℤ} {expected : IndexIdentity} {mode : SearchMode} {hits : List Hit}
    (hs : h.searchScopedMode normalizeCopy query topK expected mode = .ok hits) {hit : Hit} (hhit : hit ∈ hits) :
    ∃ s ∈ h.slots, hit.documentID = s.document := by
  have located : ∀ cs : List HNSW.Cand, hit ∈ cs.filterMap h.hitLocked → ∃ s ∈ h.slots,
    hit.documentID = s.document := by
    intro cs hc
    obtain ⟨c, -, hc⟩ := mem_filterMap.1 hc
    obtain ⟨s, hs, rfl⟩ := Option.map_eq_some_iff.1 hc
    exact ⟨s, mem_of_getElem? hs, rfl⟩
  unfold HNSW.searchScopedMode at hs
  by_cases hq : query = [] ∨ topK = 0
  · rw [if_pos hq] at hs
    cases hs
    simp at hhit
  rw [if_neg hq] at hs
  cases hr : h.refusal query expected mode with
  | some e => simp [hr] at hs
  | none =>
    simp only [hr] at hs
    split_ifs at hs <;> cases hs
    · simp at hhit
    all_goals exact located _ hhit

/-- The exact mode without a limit answers with every slot. -/
theorem found_by_exact {s : Slot} (hs : s ∈ h.slots) :
    ∃ hits, h.searchScopedMode normalizeCopy (List.replicate h.dim 0) (-1) ⟨[], [], 0, []⟩ .exact = .ok hits ∧
      ∃ hit ∈ hits, hit.documentID = s.document := by
  have hne := ne_nil_of_mem hs
  have hq : List.replicate h.dim (0 : ℚ) ≠ [] := by simpa using (h.dim_pos hne).ne'
  refine ⟨h.searchExact (normalizeCopy (List.replicate h.dim 0)) h.slots.length, ?_, ?_⟩
  · simp [HNSW.searchScopedMode, HNSW.refusal, hq, hne]
  · obtain ⟨i, hi, rfl⟩ := getElem_of_mem hs
    refine ⟨h.slots[i].hit (h.similarity (normalizeCopy (List.replicate h.dim 0)) i), mem_filterMap.2
      ⟨(i, h.similarity (normalizeCopy (List.replicate h.dim 0)) i), ?_, ?_⟩, rfl⟩
    · rw [take_of_length_le (by simp [HNSW.ranked]), HNSW.ranked, mem_insertionSort]
      exact mem_map.2 ⟨i, mem_range.2 hi, rfl⟩
    · simp [HNSW.hitLocked, hi]

/-- Erasure is exact just when, on every stored vector, the id is that of a chunk of one of the erased
documents where the metadata names one. -/
theorem deleteDocuments_exact_iff (h : HNSW) (docIDs : List GoString) :
    Exact normalizeCopy h (h.deleteDocuments rewire docIDs) docIDs ↔
      ∀ s ∈ h.slots, (∃ d ∈ docIDs, d ≠ [] ∧ (s.id = d ∨ d ++ lit "#" <+: s.id)) ↔ s.document ∈ docIDs := by
  have hmatch : ∀ id, vectorIDMatchesAnyDocument id docIDs = true ↔
      ∃ d ∈ docIDs, d ≠ [] ∧ (id = d ∨ d ++ lit "#" <+: id) := by
    simp [vectorIDMatchesAnyDocument, vectorIDMatchesDocument]
  simp only [← hmatch]
  constructor
  · intro hex s hs
    constructor
    · intro hmatch
      by_contra hdoc
      have hkept : s ∈ (h.deleteDocuments rewire docIDs).slots.filter (·.document ∉ docIDs) := by
        rw [hex.others]
        exact mem_filter.2 ⟨hs, by simpa using hdoc⟩
      have hfree := ((mem_deleteDocuments rewire).1 (mem_filter.1 hkept).1).2
      exact Bool.false_ne_true (hfree.symm.trans hmatch)
    · intro hdoc
      by_contra hmatch
      have hkept := (mem_deleteDocuments rewire).2 ⟨hs, Bool.eq_false_iff.2 hmatch⟩
      obtain ⟨hits, hsearch, hit, hmem, heq⟩ := found_by_exact normalizeCopy hkept
      exact hex.unfound _ _ _ _ _ hsearch hit hmem (heq ▸ hdoc)
  · intro hagree
    refine ⟨?_, hasDocuments_deleteDocuments rewire, ?_⟩
    · intro query topK expected mode hits hsearch hit hmem hdoc
      obtain ⟨s, hs, heq⟩ := hit_of_search normalizeCopy hsearch hmem
      obtain ⟨hs, hfree⟩ := (mem_deleteDocuments rewire).1 hs
      exact Bool.false_ne_true (hfree.symm.trans ((hagree s hs).2 (heq ▸ hdoc)))
    · rw [slots_deleteDocuments, filter_filter]
      refine filter_congr fun s hs => ?_
      by_cases hdoc : s.document ∈ docIDs
      · simp [hdoc]
      · simp [hdoc, Bool.eq_false_iff.2 (mt (hagree s hs).1 hdoc)]

end Erasure

/-- The erasure of the document `a` takes the vector of the document `a#b` with it. -/
theorem deleteDocuments_takes_other :
    ∃ h, (HNSW.new 1 0 0).upsertWithMetadata id (fun _ _ g => g) (lit "a#b#0") [1] ⟨lit "a#b", [], []⟩ = some h ∧
      (h.deleteDocuments (fun _ _ g => g) [lit "a"]).slots = [] ∧
      ¬ Exact id h (h.deleteDocuments (fun _ _ g => g) [lit "a"]) [lit "a"] := by
  refine ⟨_, rfl, ?hnone, fun hex => ?_⟩
  case hnone => decide
  have hothers := hex.others
  exact absurd hothers (by decide)

end CodeMemory.Dense
