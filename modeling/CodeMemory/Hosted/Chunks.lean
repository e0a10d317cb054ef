import CodeMemory.Lib.GoMap
import CodeMemory.Lib.Trim

/-! The chunk store of a brain: how documents become chunks, and the map of
chunks that upserts and deletions change. A document gives at most one chunk. -/

namespace CodeMemory.Hosted

open Lib Lib.GoString Lib.GoMap List

structure LocalDocument where
  id : GoString
  title : GoString
  text : GoString
  sourceURI : GoString
  deriving DecidableEq

structure ChunkWrite where
  documentID : GoString
  chunkID : GoString
  text : GoString
  sourceURI : GoString
  deriving DecidableEq

/-- A stored chunk; its token counts are those of `text`. -/
structure MemChunk where
  dsid : GoString
  text : GoString
  sourceURI : GoString
  deriving DecidableEq

abbrev Bag := GoMap GoString MemChunk

/-- The text of a document's chunk: the title, if there is one, above the text. -/
def chunkText (title text : GoString) : GoString :=
  if title = [] then trimSpace text else trimSpace (title ++ lit "\n\n" ++ trimSpace text)

def chunkIDOf (documentID : GoString) : GoString := documentID ++ lit "#0"

/-- The chunk of a document; one without an id or without text gives none. -/
def documentChunk (d : LocalDocument) : Option ChunkWrite :=
  let id := trimSpace d.id
  let text := chunkText d.title d.text
  if id = [] ∨ text = [] then none else some ⟨id, chunkIDOf id, text, d.sourceURI⟩

def documentsToChunks (docs : List LocalDocument) : List ChunkWrite := docs.filterMap documentChunk

variable {d : LocalDocument} {ch : ChunkWrite} {docs : List LocalDocument} {bag : Bag} {chunks : List ChunkWrite}
  {k : GoString}

theorem documentChunk_eq_some_iff : documentChunk d = some ch ↔ trimSpace d.id ≠ [] ∧ chunkText d.title d.text ≠ [] ∧
      ch = ⟨trimSpace d.id, chunkIDOf (trimSpace d.id), chunkText d.title d.text, d.sourceURI⟩ := by
  by_cases h : trimSpace d.id = [] ∨ chunkText d.title d.text = []
  · simp only [documentChunk, if_pos h, reduceCtorEq, false_iff]
    rintro ⟨hid, htext, -⟩
    exact h.elim hid htext
  · simp only [documentChunk, if_neg h, Option.some.injEq]
    rw [not_or] at h
    exact ⟨fun he => ⟨h.1, h.2, he.symm⟩, fun he => he.2.2.symm⟩

theorem mem_documentsToChunks :
    ch ∈ documentsToChunks docs ↔ ∃ d ∈ docs, documentChunk d = some ch := mem_filterMap

@[simp] theorem trimSpace_chunkText (title text : GoString) :
    trimSpace (chunkText title text) = chunkText title text := by
  unfold chunkText
  split <;> exact trimSpace_trimSpace _

theorem trimSpace_chunkIDOf (id : GoString) : trimSpace (chunkIDOf (trimSpace id)) = chunkIDOf (trimSpace id) :=
  trimSpace_of_trimmed ((trimmed_trimSpace id).append (by decide) (by decide) [])

/-- A document made of a chunk gives that chunk again. -/
theorem documentChunk_of_chunk (h : documentChunk d = some ch) :
    documentChunk ⟨ch.documentID, [], ch.text, ch.sourceURI⟩ = some ch := by
  obtain ⟨hid, htext, rfl⟩ := documentChunk_eq_some_iff.mp h
  have hbare : chunkText [] (chunkText d.title d.text) = chunkText d.title d.text := by
    rw [chunkText, if_pos rfl, trimSpace_chunkText]
  rw [documentChunk_eq_some_iff, hbare, trimSpace_trimSpace]
  exact ⟨hid, htext, rfl⟩

theorem chunkIDOf_ne_nil (id : GoString) : chunkIDOf id ≠ [] :=
  append_ne_nil_of_right_ne_nil id (by decide)

theorem chunkIDOf_inj {a b : GoString} : chunkIDOf a = chunkIDOf b ↔ a = b := append_left_inj _

inductive UpsertError where
  | missingChunkID | missingDocumentID | emptyText
  deriving DecidableEq

/-- What an upsert stores, and under which id. -/
def storedChunk (ch : ChunkWrite) : Except UpsertError (GoString × MemChunk) :=
  if trimSpace ch.chunkID = [] then .error .missingChunkID
  else if trimSpace ch.documentID = [] then .error .missingDocumentID
  else if trimSpace ch.text = [] then .error .emptyText
  else .ok (trimSpace ch.chunkID, ⟨trimSpace ch.documentID, trimSpace ch.text, ch.sourceURI⟩)

/-- `UpsertChunks`: what the bag is afterwards, and the error that ended it. The
chunks before the one with the error stay stored. -/
def upsertChunks : Bag → List ChunkWrite → Bag × Option UpsertError
  | bag, [] => (bag, none)
  | bag, ch :: rest =>
    match storedChunk ch with
    | .error e => (bag, some e)
    | .ok (id, c) => upsertChunks (bag.insert id c) rest

/-- The chunk is stored as it is. -/
def ChunkWrite.Ready (ch : ChunkWrite) : Prop :=
  storedChunk ch = .ok (ch.chunkID, ⟨ch.documentID, ch.text, ch.sourceURI⟩)

theorem ready_of_documentChunk (h : documentChunk d = some ch) : ch.Ready := by
  obtain ⟨hid, htext, rfl⟩ := documentChunk_eq_some_iff.mp h
  simp only [ChunkWrite.Ready, storedChunk, trimSpace_chunkIDOf, trimSpace_trimSpace, trimSpace_chunkText,
    if_neg (chunkIDOf_ne_nil _), if_neg hid, if_neg htext]

theorem ready_documentsToChunks : ∀ ch ∈ documentsToChunks docs, ch.Ready := by
  intro ch hch
  obtain ⟨d, -, hd⟩ := mem_documentsToChunks.mp hch
  exact ready_of_documentChunk hd

/-- The bag with chunks that are ready to be stored put in, in order. -/
def putChunks (bag : Bag) (chunks : List ChunkWrite) : Bag :=
  chunks.foldl (fun bag ch => bag.insert ch.chunkID ⟨ch.documentID, ch.text, ch.sourceURI⟩) bag

theorem upsertChunks_of_ready (h : ∀ ch ∈ chunks, ch.Ready) :
    upsertChunks bag chunks = (putChunks bag chunks, none) := by
  induction chunks generalizing bag with
  | nil => rfl
  | cons ch rest ih =>
    have hch : storedChunk ch = _ := h ch (.head _)
    rw [upsertChunks, hch]
    exact ih (fun c hc => h c (mem_cons_of_mem ch hc))

/-- The last chunk put under an id is the one that is stored. -/
theorem lookup_putChunks_concat (bag : Bag) (chunks : List ChunkWrite) (ch : ChunkWrite) (k : GoString) :
    (putChunks bag (chunks ++ [ch])).lookup k =
      if k = ch.chunkID then some ⟨ch.documentID, ch.text, ch.sourceURI⟩ else (putChunks bag chunks).lookup k := by
  rw [putChunks, foldl_append, foldl_cons, foldl_nil, lookup_insert_eq]
  rfl

theorem lookup_putChunks_of_notMem
    (h : ∀ ch ∈ chunks, ch.chunkID ≠ k) : (putChunks bag chunks).lookup k = bag.lookup k := by
  induction chunks using List.reverseRecOn with
  | nil => rfl
  | append_singleton chunks ch ih =>
    rw [lookup_putChunks_concat, if_neg (fun hk => h ch (by simp) hk.symm)]
    exact ih (fun c hc => h c (mem_append_left _ hc))

/-- An id that was written holds one of the chunks written to it. -/
theorem lookup_putChunks_written (h : ∃ ch ∈ chunks, ch.chunkID = k) : ∃ ch ∈ chunks, ch.chunkID = k ∧
    ∀ bag, (putChunks bag chunks).lookup k = some ⟨ch.documentID, ch.text, ch.sourceURI⟩ := by
  induction chunks using List.reverseRecOn with
  | nil =>
    obtain ⟨ch, hch, -⟩ := h
    cases hch
  | append_singleton chunks last ih =>
    by_cases hk : k = last.chunkID
    · exact ⟨last, by simp, hk.symm, fun bag => by rw [lookup_putChunks_concat, if_pos hk]⟩
    · obtain ⟨ch, hch, he⟩ := h
      rcases mem_append.mp hch with hmem | hmem
      · obtain ⟨w, hw, hwk, hlookup⟩ := ih ⟨ch, hmem, he⟩
        exact ⟨w, mem_append_left _ hw, hwk, fun bag => by rw [lookup_putChunks_concat, if_neg hk, hlookup]⟩
      · obtain rfl := mem_singleton.mp hmem
        exact absurd he.symm hk

/-- What is stored afterwards was put, or was there and is not written over. -/
theorem putChunks_cases (chunks : List ChunkWrite) (k : GoString) :
    (∃ ch ∈ chunks, ch.chunkID = k ∧
      ∀ bag, (putChunks bag chunks).lookup k = some ⟨ch.documentID, ch.text, ch.sourceURI⟩) ∨
    (∀ ch ∈ chunks, ch.chunkID ≠ k) ∧ ∀ bag, (putChunks bag chunks).lookup k = bag.lookup k := by
  by_cases h : ∃ ch ∈ chunks, ch.chunkID = k
  · exact .inl (lookup_putChunks_written h)
  · have hnot : ∀ ch ∈ chunks, ch.chunkID ≠ k := fun ch hch hk => h ⟨ch, hch, hk⟩
    exact .inr ⟨hnot, fun bag => lookup_putChunks_of_notMem hnot⟩

theorem lookup_putChunks_cases {c : MemChunk} (h : (putChunks bag chunks).lookup k = some c) :
    bag.lookup k = some c ∨ ∃ ch ∈ chunks, ch.chunkID = k ∧ c = ⟨ch.documentID, ch.text, ch.sourceURI⟩ := by
  rcases putChunks_cases chunks k with ⟨ch, hch, hk, hput⟩ | ⟨-, hkept⟩
  · exact .inr ⟨ch, hch, hk, Option.some.inj (h.symm.trans (hput bag))⟩
  · exact .inl (hkept bag ▸ h)

/-- Nothing that was stored or put is gone afterwards. -/
theorem exists_lookup_putChunks (h : (∃ c, bag.lookup k = some c) ∨ ∃ ch ∈ chunks, ch.chunkID = k) :
    ∃ c, (putChunks bag chunks).lookup k = some c := by
  rcases putChunks_cases chunks k with ⟨ch, -, -, hput⟩ | ⟨hnot, hkept⟩
  · exact ⟨_, hput bag⟩
  · rw [hkept]
    exact h.resolve_right fun hput => hput.elim fun ch hch => hnot ch hch.1 hch.2

/-- Chunks with different ids are all stored, whatever the order. -/
theorem lookup_putChunks_of_mem (hd : (chunks.map ChunkWrite.chunkID).Nodup) (h : ch ∈ chunks) :
    (putChunks bag chunks).lookup ch.chunkID = some ⟨ch.documentID, ch.text, ch.sourceURI⟩ := by
  obtain ⟨ch', hch', hid, hput⟩ := lookup_putChunks_written ⟨ch, h, rfl⟩
  rw [hput, inj_on_of_nodup_map hd hch' h hid]

/-- What is put hides what was there. -/
theorem lookup_putChunks_or (bag : Bag) (chunks : List ChunkWrite) (k : GoString) :
    (putChunks bag chunks).lookup k = ((putChunks ∅ chunks).lookup k).or (bag.lookup k) := by
  rcases putChunks_cases chunks k with ⟨ch, -, -, hput⟩ | ⟨-, hkept⟩
  · rw [hput, hput, Option.some_or]
  · rw [hkept, hkept, Finmap.lookup_empty, Option.none_or]

theorem putChunks_append (bag : Bag) (a b : List ChunkWrite) :
    putChunks bag (a ++ b) = putChunks (putChunks bag a) b := foldl_append

def documentIDs (bag : Bag) : Finset GoString :=
  (bag.keys.image (fun k => ((bag.lookup k).map MemChunk.dsid).getD [])).filter (fun id => id ≠ [])

theorem mem_documentIDs {id : GoString} :
    id ∈ documentIDs bag ↔ id ≠ [] ∧ ∃ k c, bag.lookup k = some c ∧ c.dsid = id := by
  simp only [documentIDs, Finset.mem_filter, Finset.mem_image]
  constructor
  · rintro ⟨⟨k, hk, rfl⟩, hne⟩
    obtain ⟨c, hc⟩ := mem_keys_iff.mp hk
    exact ⟨hne, k, c, hc, by rw [hc]; rfl⟩
  · rintro ⟨hne, k, c, hc, rfl⟩
    exact ⟨⟨k, mem_keys_of_lookup hc, by rw [hc]; rfl⟩, hne⟩

/-- `DeleteDocuments`: every chunk of the named documents goes. -/
def deleteDocuments (bag : Bag) (docIDs : Finset GoString) : Bag :=
  let want := (docIDs.image trimSpace).erase []
  build bag.keys (fun k => (bag.lookup k).filter (fun c => c.dsid ∉ want))

theorem lookup_deleteDocuments (bag : Bag) (docIDs : Finset GoString) (k : GoString) :
    (deleteDocuments bag docIDs).lookup k =
      (bag.lookup k).filter (fun c => c.dsid ∉ (docIDs.image trimSpace).erase []) := by
  rw [deleteDocuments, lookup_build]
  split_ifs with hk
  · rfl
  · rw [lookup_of_notMem_keys hk]
    rfl

def missingDocuments (bag : Bag) (live : Finset GoString) : Finset GoString := documentIDs bag \ live

def pruneMissingDocuments (bag : Bag) (live : Finset GoString) : Bag :=
  deleteDocuments bag (missingDocuments bag live)

def changedChunks (bag : Bag) (chunks : List ChunkWrite) : List ChunkWrite :=
  chunks.filter (fun ch => (bag.lookup ch.chunkID).map MemChunk.text ≠ some ch.text)

def deltaChunks (bag : Bag) (docs : List LocalDocument) : Bag :=
  putChunks bag (changedChunks bag (documentsToChunks docs))

theorem mem_changedChunks :
    ch ∈ changedChunks bag chunks ↔ ch ∈ chunks ∧ (bag.lookup ch.chunkID).map MemChunk.text ≠ some ch.text := by
  simp [changedChunks]

/-- After a delta an id holds the text that its documents agree on, if it held that
text before or one of them is its own. -/
theorem text_deltaChunks {text : GoString} (hagree : ∀ ch ∈ documentsToChunks docs, ch.chunkID = k → ch.text = text)
    (h : (bag.lookup k).map MemChunk.text = some text ∨ ∃ ch ∈ documentsToChunks docs, ch.chunkID = k) :
    ((deltaChunks bag docs).lookup k).map MemChunk.text = some text := by
  by_cases hwritten : ∃ ch ∈ changedChunks bag (documentsToChunks docs), ch.chunkID = k
  · obtain ⟨ch, hch, hk, hlookup⟩ := lookup_putChunks_written hwritten
    rw [deltaChunks, hlookup, Option.map_some, hagree ch (mem_changedChunks.mp hch).1 hk]
  · rw [deltaChunks, lookup_putChunks_of_notMem (fun ch hch hk => hwritten ⟨ch, hch, hk⟩)]
    rcases h with hold | ⟨ch, hch, hk⟩
    · exact hold
    · by_contra hne
      rw [← hagree ch hch hk, ← hk] at hne
      exact hwritten ⟨ch, mem_changedChunks.mpr ⟨hch, hne⟩, hk⟩

/-- Every chunk is that of a document, under the id that ingestion gives it. -/
def OfDocuments (bag : Bag) : Prop :=
  ∀ k c, bag.lookup k = some c → k = chunkIDOf c.dsid ∧ c.dsid ≠ [] ∧ trimSpace c.dsid = c.dsid

theorem ofDocuments_empty : OfDocuments ∅ := by
  intro k c h
  simp at h

section

variable (hbag : OfDocuments bag)
include hbag

theorem OfDocuments.putChunks (h : ∀ ch ∈ chunks, ch ∈ documentsToChunks docs) :
    OfDocuments (putChunks bag chunks) := by
  intro k c hc
  rcases lookup_putChunks_cases hc with hold | ⟨ch, hch, rfl, rfl⟩
  · exact hbag k c hold
  · obtain ⟨d, -, hd⟩ := mem_documentsToChunks.mp (h ch hch)
    obtain ⟨hid, -, rfl⟩ := documentChunk_eq_some_iff.mp hd
    exact ⟨rfl, hid, trimSpace_trimSpace _⟩

theorem OfDocuments.deltaChunks (docs : List LocalDocument) :
    OfDocuments (deltaChunks bag docs) :=
  hbag.putChunks (fun _ hch => (mem_changedChunks.mp hch).1)

theorem OfDocuments.mem_documentIDs {id : GoString} :
    id ∈ documentIDs bag ↔ ∃ c, bag.lookup (chunkIDOf id) = some c := by
  rw [Hosted.mem_documentIDs]
  constructor
  · rintro ⟨-, k, c, hc, rfl⟩
    exact ⟨c, (hbag k c hc).1 ▸ hc⟩
  · rintro ⟨c, hc⟩
    obtain ⟨hk, hne, -⟩ := hbag _ c hc
    obtain rfl := chunkIDOf_inj.mp hk
    exact ⟨hne, _, c, hc, rfl⟩

/-- Pruning keeps the chunks of the live documents. -/
theorem OfDocuments.lookup_prune (live : Finset GoString) (k : GoString) :
    (pruneMissingDocuments bag live).lookup k = (bag.lookup k).filter (fun c => c.dsid ∈ live) := by
  rw [pruneMissingDocuments, lookup_deleteDocuments]
  cases hc : bag.lookup k with
  | none => rfl
  | some c =>
    obtain ⟨-, hne, htrim⟩ := hbag k c hc
    have hwant : c.dsid ∉ ((missingDocuments bag live).image trimSpace).erase [] ↔ c.dsid ∈ live := by
      simp only [Finset.mem_erase, Finset.mem_image, missingDocuments, Finset.mem_sdiff]
      constructor
      · intro h
        by_contra hlive
        exact h ⟨hne, c.dsid, ⟨Hosted.mem_documentIDs.mpr ⟨hne, k, c, hc, rfl⟩, hlive⟩, htrim⟩
      · rintro hlive ⟨-, id, ⟨hid, hnot⟩, he⟩
        obtain ⟨-, k', c', hc', rfl⟩ := Hosted.mem_documentIDs.mp hid
        rw [(hbag k' c' hc').2.2] at he
        exact hnot (he ▸ hlive)
    simp only [Option.filter, hwant]

theorem OfDocuments.prune (live : Finset GoString) :
    OfDocuments (pruneMissingDocuments bag live) := by
  intro k c hc
  rw [hbag.lookup_prune] at hc
  exact hbag k c (Option.filter_eq_some_iff.mp hc).1

theorem OfDocuments.mem_documentIDs_prune {live : Finset GoString}
    {id : GoString} : id ∈ documentIDs (pruneMissingDocuments bag live) ↔ id ∈ documentIDs bag ∧ id ∈ live := by
  rw [(hbag.prune live).mem_documentIDs, hbag.mem_documentIDs, hbag.lookup_prune]
  constructor
  · rintro ⟨c, hc⟩
    obtain ⟨hc, hlive⟩ := Option.filter_eq_some_iff.mp hc
    obtain rfl := chunkIDOf_inj.mp (hbag _ c hc).1
    exact ⟨⟨c, hc⟩, of_decide_eq_true hlive⟩
  · rintro ⟨⟨c, hc⟩, hlive⟩
    obtain rfl := chunkIDOf_inj.mp (hbag _ c hc).1
    exact ⟨c, Option.filter_eq_some_iff.mpr ⟨hc, decide_eq_true hlive⟩⟩

end

theorem chunkID_of_mem (h : ch ∈ documentsToChunks docs) : ch.chunkID = chunkIDOf ch.documentID := by
  obtain ⟨d, -, hd⟩ := mem_documentsToChunks.mp h
  obtain ⟨-, -, rfl⟩ := documentChunk_eq_some_iff.mp hd
  rfl

/-- A delta stores documents and removes none. -/
theorem OfDocuments.mem_documentIDs_delta (hbag : OfDocuments bag) {id : GoString} :
    id ∈ documentIDs (Hosted.deltaChunks bag docs) ↔ id ∈ documentIDs bag ∨
      ∃ ch ∈ documentsToChunks docs, ch.documentID = id := by
  rw [(hbag.deltaChunks docs).mem_documentIDs, hbag.mem_documentIDs]
  constructor
  · rintro ⟨c, hc⟩
    rcases lookup_putChunks_cases hc with hold | ⟨ch, hch, hk, -⟩
    · exact .inl ⟨c, hold⟩
    · have hmem := (mem_changedChunks.mp hch).1
      exact .inr ⟨ch, hmem, chunkIDOf_inj.mp ((chunkID_of_mem hmem).symm.trans hk)⟩
  · rintro (hold | ⟨ch, hmem, rfl⟩)
    · exact exists_lookup_putChunks (.inl hold)
    · rw [← chunkID_of_mem hmem]
      by_cases hsame : (bag.lookup ch.chunkID).map MemChunk.text = some ch.text
      · obtain ⟨c, hc, -⟩ := Option.map_eq_some_iff.mp hsame
        exact exists_lookup_putChunks (.inl ⟨c, hc⟩)
      · exact exists_lookup_putChunks (.inr ⟨ch, mem_changedChunks.mpr ⟨hmem, hsame⟩, rfl⟩)

end CodeMemory.Hosted
