import CodeMemory.Hosted.Chunks
import CodeMemory.Lib.JsonLines
import CodeMemory.Lib.Order

/-! The chunk files of a brain on disk: `chunks.jsonl` and the delta that upserts
append to. Each line is a JSON object with the fields of one chunk; the delta is
read after the base, and a later line replaces an earlier one with the same id. -/

namespace CodeMemory.Hosted

open Lib Lib.GoString Lib.Json Lib.GoMap List

def rowJson (ch : ChunkWrite) : Json :=
  .obj [(lit "chunk_id", .str ch.chunkID), (lit "document_id", .str ch.documentID), (lit "op", .str (lit "upsert")),
    (lit "source_uri", .str ch.sourceURI), (lit "text", .str ch.text)]

def rowLine (ch : ChunkWrite) : GoString := render (rowJson ch)

def encodeRows (rows : List ChunkWrite) : GoString := JsonLines.file (rows.map rowLine)

/-- The members of an object of strings; a null is an empty string. -/
def stringMembers : List (GoString × Json) → GoMap GoString GoString → Option (GoMap GoString GoString)
  | [], row => some row
  | (k, .str s) :: ms, row => stringMembers ms (row.insert k s)
  | (k, .null) :: ms, row => stringMembers ms (row.insert k [])
  | _ :: _, _ => none

def unmarshalRow (line : GoString) : Option (GoMap GoString GoString) :=
  (parseAll line).bind (fun j =>
    match j with
    | .null => some ∅
    | .obj ms => stringMembers ms ∅
    | _ => none)

/-- The chunk of one line; lines that are blank, do not decode or say `delete` are
passed over. -/
def readRow (line : GoString) : Option ChunkWrite :=
  let line := trimSpace line
  if line = [] then none
  else (unmarshalRow line).bind (fun row =>
    let field (name : GoString) := (row.lookup name).getD []
    if field (lit "op") = lit "delete" then none
    else some ⟨field (lit "document_id"), field (lit "chunk_id"), field (lit "text"), field (lit "source_uri")⟩)

def maxJSONLLineBytes : Nat := 8 * 1024 * 1024

/-- `loadChunkJSONL`; a line that fills the scanner's buffer is an error. -/
def loadChunkJSONL (raw : GoString) : Option (List ChunkWrite) :=
  let scanned := Scanner.scan maxJSONLLineBytes raw
  if scanned.2 = false then none else some (scanned.1.filterMap readRow)

def compactDeltaLines : Nat := 512

def countJSONLLines (raw : GoString) : Nat :=
  let scanned := Scanner.scan maxJSONLLineBytes raw
  if scanned.2 = false then compactDeltaLines else (scanned.1.filter (fun l => trimSpace l ≠ [])).length

def ChunkWrite.Valid (ch : ChunkWrite) : Prop :=
  validString ch.chunkID = true ∧ validString ch.documentID = true ∧ validString ch.text = true ∧
    validString ch.sourceURI = true

instance (ch : ChunkWrite) : Decidable ch.Valid := inferInstanceAs (Decidable (_ ∧ _))

theorem numbers_rowJson (ch : ChunkWrite) : Numbers (rowJson ch) :=
  ⟨trivial, trivial, trivial, trivial, trivial, trivial⟩

theorem intact_rowLine (ch : ChunkWrite) : JsonLines.Intact (rowLine ch) :=
  JsonLines.intact_obj (numbers_rowJson ch)

variable {ch : ChunkWrite}

theorem clean_rowJson (h : ch.Valid) : clean (rowJson ch) = rowJson ch := by
  obtain ⟨hid, hdoc, htext, huri⟩ := h
  have hkeys : ∀ k ∈ [lit "chunk_id", lit "document_id", lit "op", lit "source_uri", lit "text", lit "upsert"],
      toValid k = k := by decide +kernel
  simp only [forall_mem_cons] at hkeys
  obtain ⟨h₁, h₂, h₃, h₄, h₅, h₆, -⟩ := hkeys
  simp only [rowJson, clean, cleanMembers, h₁, h₂, h₃, h₄, h₅, h₆, (toValid_eq_self_iff _).mpr hid,
    (toValid_eq_self_iff _).mpr hdoc, (toValid_eq_self_iff _).mpr htext, (toValid_eq_self_iff _).mpr huri]

theorem readRow_rowLine (h : ch.Valid) : readRow (rowLine ch) = some ch := by
  have hintact := intact_rowLine ch
  have hparse : parseAll (rowLine ch) = some (rowJson ch) := by
    rw [rowLine, parseAll_text _ (numbers_rowJson ch), clean_rowJson h]
  simp only [readRow, hintact.trimmed, if_neg hintact.ne_nil, unmarshalRow, hparse, Option.bind_some, rowJson,
    stringMembers]
  simp (disch := decide) only [Finmap.lookup_insert_of_ne, Finmap.lookup_insert, Option.getD_some]
  rw [if_neg (by decide)]

theorem loadChunkJSONL_encodeRows {rows loaded : List ChunkWrite} (h : ∀ ch ∈ rows, ch.Valid)
    (hload : loadChunkJSONL (encodeRows rows) = some loaded) : loaded = rows := by
  have hintact : ∀ l ∈ rows.map rowLine, JsonLines.Intact l := by
    intro l hl
    obtain ⟨ch, -, rfl⟩ := mem_map.mp hl
    exact intact_rowLine ch
  unfold loadChunkJSONL at hload
  dsimp only at hload
  split_ifs at hload with hend
  rw [encodeRows, JsonLines.scan_file hintact (by simpa [encodeRows] using hend)] at hload
  cases hload
  rw [filterMap_map]
  calc rows.filterMap (readRow ∘ rowLine) = rows.filterMap some :=
        filterMap_congr (fun ch hch => readRow_rowLine (h ch hch))
    _ = rows := filterMap_some

theorem encodeRows_append (a b : List ChunkWrite) : encodeRows (a ++ b) = encodeRows a ++ encodeRows b := by
  rw [encodeRows, map_append, JsonLines.file_append]
  rfl

def rowOf (k : GoString) (c : MemChunk) : ChunkWrite := ⟨c.dsid, k, c.text, c.sourceURI⟩

/-- The stored ones of the ids, as rows. -/
def rowsOf (bag : Bag) (ids : List GoString) : List ChunkWrite :=
  ids.filterMap (fun k => (bag.lookup k).map (rowOf k))

theorem mem_rowsOf {bag : Bag} {ids : List GoString} :
    ch ∈ rowsOf bag ids ↔ ch.chunkID ∈ ids ∧ bag.lookup ch.chunkID = some ⟨ch.documentID, ch.text, ch.sourceURI⟩ := by
  simp only [rowsOf, mem_filterMap, Option.map_eq_some_iff]
  constructor
  · rintro ⟨k, hk, c, hc, rfl⟩
    exact ⟨hk, hc⟩
  · rintro ⟨hk, hc⟩
    exact ⟨_, hk, _, hc, rfl⟩

/-- Putting the rows of some ids brings these ids up to date. -/
theorem lookup_putChunks_rowsOf (old bag : Bag) (ids : List GoString) (k : GoString) :
    (putChunks old (rowsOf bag ids)).lookup k = if k ∈ ids ∧ k ∈ bag.keys then bag.lookup k else old.lookup k := by
  split_ifs with h
  · obtain ⟨c, hc⟩ := mem_keys_iff.mp h.2
    have hwritten : ∃ ch ∈ rowsOf bag ids, ch.chunkID = k := ⟨rowOf k c, mem_rowsOf.mpr ⟨h.1, hc⟩, rfl⟩
    obtain ⟨ch, hch, hk, hlookup⟩ := lookup_putChunks_written hwritten
    rw [hlookup, ← hk, (mem_rowsOf.mp hch).2]
  · apply lookup_putChunks_of_notMem
    intro ch hch hk
    obtain ⟨hid, hc⟩ := mem_rowsOf.mp hch
    exact h ⟨hk ▸ hid, hk ▸ mem_keys_of_lookup hc⟩

/-- The rows of a bag give the bag. -/
theorem putChunks_rowsOf_sortedKeys (bag : Bag) : putChunks ∅ (rowsOf bag (sortedKeys bag)) = bag := by
  apply Finmap.ext_lookup
  intro k
  rw [lookup_putChunks_rowsOf]
  by_cases hk : k ∈ bag.keys
  · rw [if_pos ⟨mem_sortedKeys.mpr hk, hk⟩]
  · rw [if_neg (fun h => hk h.2), lookup_of_notMem_keys hk]
    rfl

def loadChunks (base delta : GoString) : Option Bag :=
  (loadChunkJSONL base).bind (fun chunks =>
    (loadChunkJSONL delta).bind (fun delta =>
      let byID := putChunks ∅ ((chunks ++ delta).filter (fun ch => ch.chunkID ≠ []))
      match upsertChunks ∅ (rowsOf byID (sortedKeys byID)) with
      | (bag, none) => some bag
      | (_, some _) => none))

theorem ChunkWrite.Ready.chunkID_ne_nil (h : ch.Ready) : ch.chunkID ≠ [] := by
  intro hnil
  have hblank : trimSpace ch.chunkID = [] := by
    rw [hnil]
    decide
  rw [ChunkWrite.Ready, storedChunk, if_pos hblank] at h
  cases h

/-- What is loaded from the files of rows is what the rows give. -/
theorem loadChunks_encodeRows {base delta : List ChunkWrite} (h : ∀ ch ∈ base ++ delta, ch.Ready ∧ ch.Valid) {bag : Bag}
    (hload : loadChunks (encodeRows base) (encodeRows delta) = some bag) : bag = putChunks ∅ (base ++ delta) := by
  obtain ⟨chunks, hchunks, hrest⟩ := Option.bind_eq_some_iff.mp hload
  obtain ⟨deltaChunks, hdelta, hmerged⟩ := Option.bind_eq_some_iff.mp hrest
  obtain rfl := loadChunkJSONL_encodeRows (fun ch hch => (h ch (mem_append_left _ hch)).2) hchunks
  obtain rfl := loadChunkJSONL_encodeRows (fun ch hch => (h ch (mem_append_right _ hch)).2) hdelta
  have hids : (chunks ++ deltaChunks).filter (fun ch => ch.chunkID ≠ []) = chunks ++ deltaChunks :=
    filter_eq_self.mpr (fun ch hch => decide_eq_true (h ch hch).1.chunkID_ne_nil)
  have hready : ∀ ch ∈ rowsOf (putChunks ∅ (chunks ++ deltaChunks))
      (sortedKeys (putChunks ∅ (chunks ++ deltaChunks))), ch.Ready := by
    intro ch hch
    rcases lookup_putChunks_cases (mem_rowsOf.mp hch).2 with hnone | ⟨row, hrow, hid, hc⟩
    · simp at hnone
    · obtain ⟨hdoc, htext, huri⟩ := MemChunk.mk.inj hc
      have hsame : row = ch := by
        cases row
        cases ch
        simp_all
      exact hsame ▸ (h row hrow).1
  dsimp only at hmerged
  rw [hids, upsertChunks_of_ready hready, putChunks_rowsOf_sortedKeys] at hmerged
  exact (Option.some.inj hmerged).symm

end CodeMemory.Hosted
