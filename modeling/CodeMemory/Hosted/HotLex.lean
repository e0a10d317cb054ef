import CodeMemory.Crawl.Extract
import CodeMemory.Hosted.Chunks

/-! The lexical serving index, as the map of the chunks that are live in it. Term
postings, document lengths and scores are functions of these. A chunk without a
token is not indexed. -/

namespace CodeMemory.Hosted

open Lib Lib.GoString Crawl Lib.GoMap

variable (tc : Toolchain)

/-- Lower-case runs of letters, numbers and underscores of at least two bytes. -/
def hotTokenize (s : GoString) : List GoString :=
  (Toolchain.runs (fun r => tc.isLetter r || tc.isNumber r || r == '_'.toNat) (tc.toLower s)).filter
    (fun t => 2 ≤ t.length)

/-- `mapped` says that the index is a view of a snapshot file. -/
structure HotLex where
  live : Bag
  mapped : Bool

def HotLex.len (h : HotLex) : Nat := h.live.keys.card

def indexable (chunkID : GoString) (c : MemChunk) : Bool :=
  trimSpace chunkID ≠ [] && trimSpace c.text ≠ [] && hotTokenize tc c.text ≠ []

/-- `AddChunk`: the chunk replaces the one with its id; without a token it only
removes it. -/
def HotLex.addChunk (h : HotLex) (chunkID : GoString) (c : MemChunk) : HotLex :=
  if trimSpace chunkID = [] ∨ trimSpace c.text = [] then h
  else if hotTokenize tc c.text = [] then ⟨h.live.erase chunkID, false⟩
  else ⟨h.live.insert chunkID c, false⟩

def liveChunks (bag : Bag) : Bag :=
  build bag.keys (fun k => (bag.lookup k).filter (indexable tc k))

/-- `BuildHotLex`: every chunk of the bag is added to an empty index. -/
def buildHotLex (bag : Bag) : HotLex := ⟨liveChunks tc bag, false⟩

def HotLex.removeDocument (h : HotLex) (dsid : GoString) : HotLex :=
  if trimSpace dsid = [] then h
  else ⟨build h.live.keys (fun k => (h.live.lookup k).filter (fun c => c.dsid ≠ dsid)), false⟩

def ChunkWrite.memChunk (ch : ChunkWrite) : MemChunk := ⟨ch.documentID, ch.text, ch.sourceURI⟩

def HotLex.addChunks (h : HotLex) (chunks : List ChunkWrite) : HotLex :=
  chunks.foldl (fun h ch => h.addChunk tc ch.chunkID ch.memChunk) h

theorem lookup_liveChunks (bag : Bag) (k : GoString) :
    (liveChunks tc bag).lookup k = (bag.lookup k).filter (indexable tc k) := by
  rw [liveChunks, lookup_build]
  split_ifs with hk
  · rfl
  · rw [lookup_of_notMem_keys hk]
    rfl

variable {tc : Toolchain} {bag : Bag} {h : HotLex}

/-- Adding a chunk to the index of a bag gives the index of the bag with it. -/
theorem addChunk_insert {k : GoString} {c : MemChunk}
    (hl : h.live = liveChunks tc bag) (hk : trimSpace k ≠ []) (hc : trimSpace c.text ≠ []) :
    (h.addChunk tc k c).live = liveChunks tc (bag.insert k c) := by
  have hblank : ¬ (trimSpace k = [] ∨ trimSpace c.text = []) := not_or.mpr ⟨hk, hc⟩
  apply Finmap.ext_lookup
  intro j
  rw [HotLex.addChunk, if_neg hblank, lookup_liveChunks, lookup_insert_eq]
  by_cases htok : hotTokenize tc c.text = []
  · rw [if_pos htok, lookup_erase_eq, hl, lookup_liveChunks]
    split_ifs with hj
    · simp [Option.filter, indexable, htok]
    · rfl
  · rw [if_neg htok, lookup_insert_eq, hl, lookup_liveChunks]
    split_ifs with hj
    · simp [Option.filter, indexable, htok, hj, hk, hc]
    · rfl

theorem ChunkWrite.Ready.not_blank {ch : ChunkWrite} (h : ch.Ready) :
    trimSpace ch.chunkID ≠ [] ∧ trimSpace ch.text ≠ [] := by
  unfold ChunkWrite.Ready storedChunk at h
  split_ifs at h with hid hdoc htext
  exact ⟨hid, htext⟩

theorem addChunks_putChunks {chunks : List ChunkWrite}
    (hl : h.live = liveChunks tc bag) (hready : ∀ ch ∈ chunks, ch.Ready) :
    (h.addChunks tc chunks).live = liveChunks tc (putChunks bag chunks) := by
  induction chunks generalizing h bag with
  | nil => exact hl
  | cons ch rest ih =>
    obtain ⟨hid, htext⟩ := (hready ch (.head _)).not_blank
    have hadd : (h.addChunk tc ch.chunkID ch.memChunk).live = _ := addChunk_insert hl hid htext
    exact ih hadd (fun c hc => hready c (List.mem_cons_of_mem ch hc))

end CodeMemory.Hosted
