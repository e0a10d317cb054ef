import CodeMemory.Hosted.HotLex
import CodeMemory.Lib.Order
import CodeMemory.Privacy.Guard

/-! Ingestion of documents into a brain: the guard's verdict on each document, the
chunk store, the lexical index, the memory cortex and the dense store. Every text
that one of the four is given is recorded. -/

namespace CodeMemory.Hosted

open Lib Lib.GoString Crawl Privacy

inductive Destination where
  | chunkStore | lexicalIndex | cortex | denseStore
  deriving DecidableEq

/-- A text given to a store, under the id of its document. -/
structure Handed where
  dest : Destination
  documentID : GoString
  text : GoString
  deriving DecidableEq

structure Memory where
  bag : Bag
  hot : HotLex

section

variable (tc : Toolchain)

/-- `EnsureHotLex`: the index is built from the store again. -/
def Memory.ensureHotLex (m : Memory) : Memory × List Handed :=
  ({ m with hot := buildHotLex tc m.bag },
    (GoMap.sortedKeys m.bag).filterMap (fun k =>
      (m.bag.lookup k).map (fun c => ⟨.lexicalIndex, c.dsid, c.text⟩)))

/-- `EnsureHotLexIncremental`; also whether the index is then saved. -/
def Memory.ensureHotLexIncremental (m : Memory) (docs : List LocalDocument) :
    (Memory × List Handed) × Bool :=
  let chunks := documentsToChunks docs
  if m.hot.len = 0 then (m.ensureHotLex tc, false)
  else if chunks = [] then ((m, []), false)
  else if m.hot.mapped = true ∨ (chunks.length > m.hot.len / 2 ∧ chunks.length > 32) ∨ chunks.length > 512 then
    (m.ensureHotLex tc, false)
  else
    (({ m with hot := m.hot.addChunks tc chunks },
      chunks.map (fun ch => ⟨.lexicalIndex, ch.documentID, ch.text⟩)), true)

structure Interleaving where
  arrange : List ChunkWrite → List ChunkWrite
  perm : ∀ chunks, (arrange chunks).Perm chunks

def Interleaving.inOrder : Interleaving := ⟨id, fun _ => .refl _⟩

/-- `BurstUpsert` in memory. -/
def Memory.burstUpsert (m : Memory) (order : Interleaving) (chunks : List ChunkWrite) :
    Memory × List Handed :=
  let writes := order.arrange chunks
  let r := Memory.ensureHotLex tc { m with bag := (upsertChunks m.bag writes).1 }
  (r.1, writes.map (fun ch => ⟨.chunkStore, ch.documentID, ch.text⟩) ++ r.2)

theorem bag_ensureHotLexIncremental (m : Memory) (docs : List LocalDocument) :
    (m.ensureHotLexIncremental tc docs).1.1.bag = m.bag := by
  unfold Memory.ensureHotLexIncremental
  dsimp only
  split_ifs <;> rfl

/-- What is saved is the index with the chunks added. -/
theorem hot_ensureHotLexIncremental (m : Memory) (docs : List LocalDocument)
    (h : (m.ensureHotLexIncremental tc docs).2 = true) :
    (m.ensureHotLexIncremental tc docs).1.1.hot = m.hot.addChunks tc (documentsToChunks docs) := by
  unfold Memory.ensureHotLexIncremental at h ⊢
  dsimp only at h ⊢
  split_ifs at h ⊢
  rfl

theorem bag_burstUpsert (m : Memory) (order : Interleaving) {chunks : List ChunkWrite}
    (hready : ∀ ch ∈ chunks, ch.Ready) :
    (m.burstUpsert tc order chunks).1.bag = putChunks m.bag (order.arrange chunks) := by
  have hwrites : ∀ ch ∈ order.arrange chunks, ch.Ready := fun ch hch => hready ch ((order.perm _).mem_iff.mp hch)
  show (upsertChunks m.bag (order.arrange chunks)).1 = _
  rw [upsertChunks_of_ready hwrites]

end

/-- `seedMemoryAfterIngest`: the cortex gets one text for each id. -/
def seedCortex (docs : List LocalDocument) : List Handed :=
  let body : GoMap GoString GoString :=
    docs.foldl (fun body d => if d.id = [] then body else body.insert d.id d.text) ∅
  (GoMap.sortedKeys body).filterMap (fun id => (body.lookup id).map (fun text => ⟨.cortex, id, text⟩))

/-- `seedDenseAfterIngest`: the texts that are embedded. -/
def seedDense (docs : List LocalDocument) : List Handed :=
  (docs.filter (fun d => d.id ≠ [] ∧ d.text ≠ [])).map (fun d => ⟨.denseStore, d.id, d.text⟩)

inductive WithheldReason where
  | inspectionFailed
  | status (s : Status)
  deriving DecidableEq

/-- What the guard says of a text under an id. -/
abbrev Inspector (σ : Type) := σ → GoString → GoString → Verdict × σ

structure PrivacyOutcome where
  admitted : List LocalDocument
  withheld : GoMap GoString WithheldReason
  redacted : Nat

def redactDocument (out : PrivacyOutcome) (d : LocalDocument) : Verdict → PrivacyOutcome
  | .failed => { out with withheld := out.withheld.insert d.id .inspectionFailed }
  | .withheld s => { out with withheld := out.withheld.insert d.id (.status s) }
  | .published text =>
    { out with
      admitted := out.admitted ++ [{ d with text := text }]
      redacted := if text = d.text then out.redacted else out.redacted + 1 }

def redactLoop {σ : Type} (inspect : Inspector σ) : PrivacyOutcome → σ → List LocalDocument → PrivacyOutcome × σ
  | out, s, [] => (out, s)
  | out, s, d :: rest =>
    let (verdict, s) := inspect s d.id d.text
    redactLoop inspect (redactDocument out d verdict) s rest

theorem redactLoop_cons {σ : Type} (inspect : Inspector σ) (out : PrivacyOutcome) (s : σ) (d : LocalDocument)
    (rest : List LocalDocument) :
    redactLoop inspect out s (d :: rest) =
      redactLoop inspect (redactDocument out d (inspect s d.id d.text).1) (inspect s d.id d.text).2 rest := rfl

/-- `redactDocuments` of a client with a guard. -/
def redactDocuments {σ : Type} (inspect : Inspector σ) (s : σ) (docs : List LocalDocument) : PrivacyOutcome × σ :=
  redactLoop inspect ⟨[], ∅, 0⟩ s docs

/-- The unicode tables, the guard, and which of the optional stores there are. -/
structure Brain (σ : Type) where
  tc : Toolchain
  inspect : Inspector σ
  hasCortex : Bool
  hasDense : Bool

structure Client (σ : Type) where
  guard : σ
  memory : Memory
  generation : Nat
  handed : List Handed

inductive IngestError where
  | everyDocumentWithheld | emptyBurst | flushFailed
  deriving DecidableEq

structure IngestResult where
  ingested : Nat
  generation : Nat
  withheld : GoMap GoString WithheldReason
  redacted : Nat

variable {σ : Type}

def Client.give (c : Client σ) (r : Memory × List Handed) : Client σ :=
  { c with memory := r.1, handed := c.handed ++ r.2 }

/-- What follows an upsert that reached the disk: the generation is bumped and the
other stores get the documents. -/
def Brain.seed (b : Brain σ) (c : Client σ) (docs : List LocalDocument) : Client σ :=
  { c with
    generation := c.generation + 1
    handed := c.handed ++ (if b.hasCortex then seedCortex docs else []) ++ (if b.hasDense then seedDense docs else []) }

/-- `BurstIngestLocal`; `flushed` says whether the batch reached the disk. -/
def Brain.burstIngestLocal (b : Brain σ) (c : Client σ) (docs : List LocalDocument) (order : Interleaving)
    (flushed : Bool) : Except IngestError IngestResult × Client σ :=
  let (privacy, guard) := redactDocuments b.inspect c.guard docs
  let c := { c with guard := guard }
  let chunks := documentsToChunks privacy.admitted
  if privacy.admitted = [] then (.error .everyDocumentWithheld, c)
  else if chunks = [] then (.error .emptyBurst, c)
  else
    let c := c.give (c.memory.burstUpsert b.tc order chunks)
    if flushed = false then (.error .flushFailed, c)
    else
      let c := b.seed c privacy.admitted
      let c := if c.memory.hot.len > 0 ∧ privacy.admitted.length < 64 then
          c.give (c.memory.ensureHotLexIncremental b.tc privacy.admitted).1 else c
      (.ok ⟨chunks.length, c.generation, privacy.withheld, privacy.redacted⟩, c)

def deltaDocuments (changed : List ChunkWrite) : List LocalDocument :=
  changed.map (fun ch => ⟨ch.documentID, [], ch.text, ch.sourceURI⟩)

theorem documentsToChunks_deltaDocuments {docs : List LocalDocument} {changed : List ChunkWrite}
    (h : ∀ ch ∈ changed, ch ∈ documentsToChunks docs) : documentsToChunks (deltaDocuments changed) = changed := by
  induction changed with
  | nil => rfl
  | cons ch rest ih =>
    obtain ⟨d, -, hd⟩ := mem_documentsToChunks.mp (h ch (.head _))
    have hrest := ih (fun c hc => h c (List.mem_cons_of_mem ch hc))
    simp only [documentsToChunks, deltaDocuments, List.map_cons] at hrest ⊢
    rw [List.filterMap_cons_some (documentChunk_of_chunk hd), hrest]

def Brain.continualDeltaLocal (b : Brain σ) (c : Client σ) (docs : List LocalDocument) (flushed : Bool) :
    Except IngestError IngestResult × Client σ :=
  let changed := changedChunks c.memory.bag (documentsToChunks docs)
  if changed = [] then (.ok ⟨0, c.generation, ∅, 0⟩, c)
  else
    let c := c.give (c.memory.burstUpsert b.tc .inOrder changed)
    if flushed = false then (.error .flushFailed, c)
    else
      let c := b.seed c (deltaDocuments changed)
      let c := c.give (c.memory.ensureHotLexIncremental b.tc (deltaDocuments changed)).1
      (.ok ⟨changed.length, c.generation, ∅, 0⟩, c)

end CodeMemory.Hosted
