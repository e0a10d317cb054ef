import CodeMemory.Continual.Source
import CodeMemory.Hosted.Ingest

/-! What pruning removes. A document is live if `LoadDocuments` returned it, so an
entry that could not be read at that moment takes its stored documents away. -/

namespace CodeMemory.Continual

open Lib Lib.GoString Lib.Path Crawl Hosted List

/-- How `ContinualDeltaLocal` ends when there is something to write. -/
inductive DeltaOutcome where
  | stored | unflushed | refused
  deriving DecidableEq

/-- `ContinualDeltaLocal` on the bag, and whether it succeeds. A batch that did not
reach the disk is in memory all the same. -/
def continualDelta (bag : Bag) (docs : List LocalDocument) (outcome : DeltaOutcome) : Bag × Bool :=
  if changedChunks bag (documentsToChunks docs) = [] then (bag, true)
  else
    match outcome with
    | .stored => (deltaChunks bag docs, true)
    | .unflushed => (deltaChunks bag docs, false)
    | .refused => (bag, false)

def applyWatchDelta (bag : Bag) (docs : List LocalDocument) (outcome : DeltaOutcome) : Bag × Bool :=
  let bag := pruneMissingDocuments bag (liveIDs docs)
  if docs = [] then (bag, true) else continualDelta bag docs outcome

/-- The delta of `WatchDocsMulti` for one folder; there is none without documents. -/
def folderDelta (bag : Bag) (docs : List LocalDocument) (outcome : DeltaOutcome) : Bag :=
  if docs = [] then bag else (continualDelta bag docs outcome).1

/-- The prune of `WatchDocsMulti`: one folder that cannot be loaded prevents it. -/
def unionPrune (rd : Reader) (bag : Bag) (sources : List Source) : Bag :=
  match liveDocIDsUnion rd sources with
  | none => bag
  | some live => pruneMissingDocuments bag live

theorem continualDelta_cases (bag : Bag) (docs : List LocalDocument) (outcome : DeltaOutcome) :
    (continualDelta bag docs outcome).1 = bag ∨ (continualDelta bag docs outcome).1 = deltaChunks bag docs := by
  unfold continualDelta
  split_ifs
  · exact .inl rfl
  · cases outcome with
    | stored | unflushed => exact .inr rfl
    | refused => exact .inl rfl

/-- A line as it was before it was damaged. -/
def Line.repaired (l : Line) : Line := { l with decodes := true }

def SourceFile.repaired (f : SourceFile) : SourceFile :=
  { f with readable := true, lines := f.lines.map Line.repaired }

def Listing.repaired : Listing → Listing
  | .nil => .nil
  | .file n f rest => .file n f.repaired rest.repaired
  | .dir n _ sub rest => .dir n true sub.repaired rest.repaired

def Node.repaired : Node → Node
  | .file f => .file f.repaired
  | .dir _ l => .dir true l.repaired

def Source.repaired (s : Source) : Source := { s with node := s.node.map Node.repaired, found := true }

/-- The documents whose files or lines are present at a path. -/
def presentDocuments (rd : Reader) (s : Source) : List LocalDocument := (loadDocuments rd s.repaired).getD []

/-- The documents of the lines that do not decode. -/
def lostLines (rd : Reader) (f : SourceFile) : List LocalDocument :=
  (f.lines.filter (fun l => l.decodes = false)).filterMap (fun l => lineDocument rd.unmarshal l.repaired)

/-- The documents that a file has and that are not read from it. -/
def lostFile (rd : Reader) (path rel : GoString) (f : SourceFile) : List LocalDocument :=
  if f.readable = false then loadFile rd path rel f.repaired
  else if rd.extOf rel = lit ".jsonl" then lostLines rd f
  else []

/-- The documents of unreadable files, damaged lines and unlistable directories. -/
def Listing.lost (rd : Reader) (path : GoString) (dirs : Rel) : Listing → List LocalDocument
  | .nil => []
  | .file n f rest => lostFile rd path (join (dirs ++ [n])) f ++ rest.lost rd path dirs
  | .dir n listed sub rest =>
    (if listed = false then sub.repaired.load rd path (dirs ++ [n]) else sub.lost rd path (dirs ++ [n])) ++
      rest.lost rd path dirs

/-- The documents that a load which returned without an error passed over. -/
def lostDocuments (rd : Reader) (s : Source) : List LocalDocument :=
  match s.stat with
  | none => []
  | some (.file f) => lostLines rd f
  | some (.dir listed l) => if listed = false then l.repaired.load rd s.path [] else l.lost rd s.path []

section Lost

variable {rd : Reader} {path : GoString} {d : LocalDocument}

theorem lineDocument_of_damaged {unmarshal : Unmarshal} {l : Line} (h : l.decodes = false) :
    lineDocument unmarshal l = none := by
  simp [lineDocument, h]

theorem Line.repaired_of_decodes {l : Line} (h : l.decodes = true) : l.repaired = l := by
  cases l
  subst h
  rfl

/-- A document of the repaired lines is read from the lines or lost. -/
theorem mem_repairedLines {f : SourceFile} :
    d ∈ f.repaired.lines.filterMap (lineDocument rd.unmarshal) ↔
      d ∈ f.lines.filterMap (lineDocument rd.unmarshal) ∨ d ∈ lostLines rd f := by
  simp only [SourceFile.repaired, lostLines, mem_filterMap, mem_map, mem_filter]
  constructor
  · rintro ⟨-, ⟨l, hl, rfl⟩, hd⟩
    cases hdec : l.decodes with
    | true =>
      rw [l.repaired_of_decodes hdec] at hd
      exact .inl ⟨l, hl, hd⟩
    | false => exact .inr ⟨l, ⟨hl, by simp [hdec]⟩, hd⟩
  · rintro (⟨l, hl, hd⟩ | ⟨l, ⟨hl, -⟩, hd⟩)
    · cases hdec : l.decodes with
      | true => exact ⟨l, ⟨l, hl, l.repaired_of_decodes hdec⟩, hd⟩
      | false =>
        rw [lineDocument_of_damaged hdec] at hd
        cases hd
    · exact ⟨l.repaired, ⟨l, hl, rfl⟩, hd⟩

theorem mem_loadFile_repaired {rel : GoString} {f : SourceFile} :
    d ∈ loadFile rd path rel f.repaired ↔ d ∈ loadFile rd path rel f ∨ d ∈ lostFile rd path rel f := by
  have hraw : f.repaired.raw = f.raw := by
    simp [SourceFile.raw, SourceFile.repaired, Line.repaired, Function.comp_def]
  cases hread : f.readable with
  | false =>
    have hnone : loadFile rd path rel f = [] := by
      simp [loadFile, loadJSONL, hread]
    rw [hnone, lostFile, if_pos hread]
    simp
  | true =>
    have hlost : lostFile rd path rel f = if rd.extOf rel = lit ".jsonl" then lostLines rd f else [] := by
      rw [lostFile, if_neg (by simp [hread])]
    rw [hlost]
    by_cases htext : rd.extOf rel ∈ textExts
    · have hnot : rd.extOf rel ≠ lit ".jsonl" := fun he => absurd (he ▸ htext) (by decide)
      have hrep : f.repaired.readable = true := rfl
      simp [loadFile, htext, hnot, hread, hraw, hrep]
    · by_cases hext : rd.extOf rel = lit ".jsonl"
      · simp only [loadFile, if_neg htext, if_pos hext, loadJSONL, hread, Bool.true_eq_false, if_false,
          Option.getD_some]
        exact mem_repairedLines
      · simp only [loadFile, if_neg htext, if_neg hext, not_mem_nil, or_self]

/-- A document of the repaired listing is loaded or lost. -/
theorem Listing.mem_load_repaired {l : Listing} {dirs : Rel} :
    d ∈ l.repaired.load rd path dirs ↔ d ∈ l.load rd path dirs ∨ d ∈ l.lost rd path dirs := by
  induction l generalizing dirs with
  | nil => simp [Listing.repaired, Listing.load, Listing.lost]
  | file n f rest ih =>
    simp only [Listing.repaired, Listing.load, Listing.lost, mem_append, mem_loadFile_repaired, ih]
    exact or_or_or_comm
  | dir n listed sub rest ihs ihr =>
    simp only [Listing.repaired, Listing.load, Listing.lost, mem_append, ihr]
    cases listed with
    | true =>
      simp only [Bool.true_eq_false, if_false, ihs]
      exact or_or_or_comm
    | false =>
      simp only [Bool.true_eq_false, if_false, if_true, not_mem_nil, false_or]
      exact or_left_comm

theorem mem_presentDocuments {s : Source} {docs : List LocalDocument} (h : loadDocuments rd s = some docs) :
    d ∈ presentDocuments rd s ↔ d ∈ docs ∨ d ∈ lostDocuments rd s := by
  obtain ⟨path, node, found⟩ := s
  cases found with
  | false => cases h
  | true =>
    cases node with
    | none => cases h
    | some node =>
      cases node with
      | file f =>
        cases hread : f.readable with
        | false => simp [loadDocuments, Source.stat, loadJSONL, hread] at h
        | true =>
          have hdocs : f.lines.filterMap (lineDocument rd.unmarshal) = docs := by
            simpa [loadDocuments, Source.stat, loadJSONL, hread] using h
          rw [← hdocs]
          exact mem_repairedLines
      | dir listed l =>
        obtain rfl : (if listed = false then [] else l.load rd path []) = docs := Option.some.inj h
        cases listed with
        | false =>
          show d ∈ l.repaired.load rd path [] ↔ d ∈ [] ∨ d ∈ l.repaired.load rd path []
          simp
        | true => exact Listing.mem_load_repaired

end Lost

def presentIDs (rd : Reader) (sources : List Source) : Finset GoString :=
  liveIDs (sources.flatMap (presentDocuments rd))

/-- The documents that entries which could not be read would give. -/
def lostIDs (rd : Reader) (sources : List Source) : Finset GoString :=
  liveIDs (sources.flatMap (lostDocuments rd))

def loadedIDs (rd : Reader) (sources : List Source) : Finset GoString :=
  liveIDs (sources.flatMap (fun s => (loadDocuments rd s).getD []))

/-- Only documents without a present file or line are gone. -/
def OnlyAbsentRemoved (rd : Reader) (sources : List Source) (before after : Bag) : Prop :=
  ∀ id ∈ documentIDs before, id ∉ documentIDs after → id ∉ presentIDs rd sources

/-- Every stored document of an entry that could not be read has another entry that
was read. -/
def LostAreRead (rd : Reader) (sources : List Source) (bag : Bag) : Prop :=
  ∀ id ∈ documentIDs bag, id ∈ lostIDs rd sources → id ∈ loadedIDs rd sources

/-- The delta writes the document, unless the client refuses it. -/
def Written (docs : List LocalDocument) (outcome : DeltaOutcome) (id : GoString) : Prop :=
  outcome ≠ .refused ∧ ∃ ch ∈ documentsToChunks docs, ch.documentID = id

section Removal

variable {rd : Reader} {bag : Bag}

theorem liveIDs_append (a b : List LocalDocument) : liveIDs (a ++ b) = liveIDs a ∪ liveIDs b := by
  ext id
  simp only [mem_liveIDs, mem_append, Finset.mem_union]
  constructor
  · rintro ⟨hne, d, hd | hd, he⟩
    · exact .inl ⟨hne, d, hd, he⟩
    · exact .inr ⟨hne, d, hd, he⟩
  · rintro (⟨hne, d, hd, he⟩ | ⟨hne, d, hd, he⟩)
    · exact ⟨hne, d, .inl hd, he⟩
    · exact ⟨hne, d, .inr hd, he⟩

variable {sources : List Source} {live : Finset GoString}

/-- The live ids are those of the loaded documents, and all present ones that are
not lost. -/
theorem liveDocIDsUnion_spec (h : liveDocIDsUnion rd sources = some live) :
    live = loadedIDs rd sources ∧ presentIDs rd sources = live ∪ lostIDs rd sources := by
  induction sources generalizing live with
  | nil =>
    cases h
    exact ⟨rfl, rfl⟩
  | cons s rest ih =>
    obtain ⟨docs, hdocs, hrest⟩ := Option.bind_eq_some_iff.mp h
    obtain ⟨live', hlive', rfl⟩ := Option.map_eq_some_iff.mp hrest
    obtain ⟨hloaded, hpresent⟩ := ih hlive'
    have hs : liveIDs (presentDocuments rd s) = liveIDs docs ∪ liveIDs (lostDocuments rd s) := by
      rw [← liveIDs_append]
      ext id
      simp only [mem_liveIDs, mem_presentDocuments hdocs, mem_append]
    constructor
    · rw [loadedIDs, flatMap_cons, hdocs, Option.getD_some, liveIDs_append, hloaded]
      rfl
    · rw [presentIDs, lostIDs, flatMap_cons, flatMap_cons, liveIDs_append, liveIDs_append, hs]
      show _ ∪ presentIDs rd rest = _ ∪ (_ ∪ lostIDs rd rest)
      rw [hpresent]
      exact Finset.union_union_union_comm ..

theorem onlyAbsentRemoved_iff (h : liveDocIDsUnion rd sources = some live) {after : Bag} {W : GoString → Prop}
    (hafter : ∀ id ∈ documentIDs bag, (id ∈ documentIDs after ↔ id ∈ live ∨ W id)) :
    OnlyAbsentRemoved rd sources bag after ↔
      ∀ id ∈ documentIDs bag, id ∈ lostIDs rd sources → id ∈ loadedIDs rd sources ∨ W id := by
  obtain ⟨rfl, hpresent⟩ := liveDocIDsUnion_spec h
  refine forall_congr' (fun id => forall_congr' (fun hid => ?_))
  rw [hafter id hid, hpresent, Finset.mem_union]
  tauto

variable {docs : List LocalDocument}

/-- The documents of a load have live ids. -/
theorem mem_liveIDs_of_chunk {ch : ChunkWrite} (h : ch ∈ documentsToChunks docs) : ch.documentID ∈ liveIDs docs := by
  obtain ⟨d, hd, hdc⟩ := mem_documentsToChunks.mp h
  obtain ⟨hne, -, rfl⟩ := documentChunk_eq_some_iff.mp hdc
  exact mem_liveIDs.mpr ⟨hne, d, hd, rfl⟩

theorem folderDelta_eq (bag : Bag) (docs : List LocalDocument) (outcome : DeltaOutcome) :
    folderDelta bag docs outcome = if outcome = .refused then bag else deltaChunks bag docs := by
  have hnil (h : changedChunks bag (documentsToChunks docs) = []) : deltaChunks bag docs = bag := by
    rw [deltaChunks, h]
    rfl
  unfold folderDelta continualDelta
  by_cases hdocs : docs = []
  · rw [if_pos hdocs, hnil (by rw [hdocs]; rfl), ite_self]
  rw [if_neg hdocs]
  split_ifs with hch href href
  · rfl
  · exact (hnil hch).symm
  · rw [href]
  · cases outcome with
    | stored | unflushed => rfl
    | refused => exact absurd rfl href

theorem mem_documentIDs_folderDelta (hbag : OfDocuments bag) (docs : List LocalDocument) (outcome : DeltaOutcome)
    {id : GoString} : id ∈ documentIDs (folderDelta bag docs outcome) ↔
      id ∈ documentIDs bag ∨ Written docs outcome id := by
  rw [folderDelta_eq]
  split_ifs with href
  · simp [Written, href]
  · rw [hbag.mem_documentIDs_delta]
    simp [Written, href]

theorem applyWatchDelta_bag (docs : List LocalDocument) (outcome : DeltaOutcome) :
    (applyWatchDelta bag docs outcome).1 = folderDelta (pruneMissingDocuments bag (liveIDs docs)) docs outcome := by
  unfold applyWatchDelta folderDelta
  split_ifs <;> rfl

/-- A watch of one folder, the visit of a folder by a watch of several, and the
prune after its baseline remove only documents without a present file or line
exactly if every stored document of an unreadable entry is also read elsewhere, or
is among the documents that were loaded for the visit before and is written again. A
folder that cannot be loaded at all removes nothing. -/
theorem watch_removes_only_absent_iff (hbag : OfDocuments bag) :
    (∀ s docs outcome, loadDocuments rd s = some docs →
      (OnlyAbsentRemoved rd [s] bag (applyWatchDelta bag docs outcome).1 ↔ LostAreRead rd [s] bag)) ∧
    (∀ sources docs outcome,
      OnlyAbsentRemoved rd sources bag (folderDelta (unionPrune rd bag sources) docs outcome) ↔
        ((liveDocIDsUnion rd sources).isSome → ∀ id ∈ documentIDs bag, id ∈ lostIDs rd sources →
          id ∈ loadedIDs rd sources ∨ Written docs outcome id)) ∧
    (∀ sources, OnlyAbsentRemoved rd sources bag (unionPrune rd bag sources) ↔
      ((liveDocIDsUnion rd sources).isSome → LostAreRead rd sources bag)) := by
  have hprune : ∀ live, ∀ id ∈ documentIDs bag,
      (id ∈ documentIDs (pruneMissingDocuments bag live) ↔ id ∈ live) := fun live id hid => by
    rw [hbag.mem_documentIDs_prune]
    exact and_iff_right hid
  refine ⟨?_, ?_, ?_⟩
  · intro s docs outcome hdocs
    have hlive : liveDocIDsUnion rd [s] = some (liveIDs docs) := by
      rw [liveDocIDsUnion, hdocs]
      simp [liveDocIDsUnion]
    refine (onlyAbsentRemoved_iff hlive (W := fun _ => False) fun id hid => ?_).trans
      (by simp only [or_false, LostAreRead])
    rw [applyWatchDelta_bag, mem_documentIDs_folderDelta (hbag.prune _), hprune _ id hid, or_false,
      or_iff_left_iff_imp]
    rintro ⟨-, ch, hch, rfl⟩
    exact mem_liveIDs_of_chunk hch
  · intro sources docs outcome
    cases hlive : liveDocIDsUnion rd sources with
    | none =>
      rw [unionPrune, hlive]
      refine iff_of_true (fun id hid hnot => absurd ?_ hnot) (fun h => by cases h)
      exact (mem_documentIDs_folderDelta hbag docs outcome).mpr (.inl hid)
    | some live =>
      rw [unionPrune, hlive]
      refine (onlyAbsentRemoved_iff hlive (fun id hid => ?_)).trans ⟨fun h _ => h, fun h => h rfl⟩
      rw [mem_documentIDs_folderDelta (hbag.prune _), hprune _ id hid]
  · intro sources
    cases hlive : liveDocIDsUnion rd sources with
    | none =>
      rw [unionPrune, hlive]
      exact iff_of_true (fun id hid hnot => absurd hid hnot) (fun h => by cases h)
    | some live =>
      rw [unionPrune, hlive]
      refine (onlyAbsentRemoved_iff hlive (W := fun _ => False) fun id hid => ?_).trans
        (by simp [LostAreRead])
      rw [hprune _ id hid, or_false]

end Removal

def textReader : Reader := ⟨.ascii, fun _ => none⟩

def note (readable : Bool) : SourceFile := ⟨0, 5, readable, [⟨lit "hello", true⟩]⟩

def noteFolder (l : Listing) : Source := ⟨lit "docs", some (.dir true l), true⟩

def storedNote : Bag := (∅ : Bag).insert (lit "a#0") ⟨lit "a", lit "hello", []⟩

theorem ofDocuments_storedNote : OfDocuments storedNote := by
  intro k c h
  rw [storedNote, GoMap.lookup_insert_eq] at h
  split_ifs at h with hk
  · cases h
    exact ⟨hk, by decide, by decide⟩
  · exact absurd h (by simp)

/-- The note is unreadable, but its text copy gives the same document. -/
def copiedNote : Source := noteFolder (.file (lit "a.md") (note false) (.file (lit "a.txt") (note true) .nil))

theorem watch_removes_only_absent_iff_copy :
    OnlyAbsentRemoved textReader [copiedNote] storedNote (unionPrune textReader storedNote [copiedNote]) :=
  ((watch_removes_only_absent_iff ofDocuments_storedNote).2.2 [copiedNote]).mpr
    (fun _ => by unfold LostAreRead; decide +kernel)

def unreadableNote : Source := noteFolder (.file (lit "a.md") (note false) .nil)

/-- The file is there, its document is stored, and the watch removes it. -/
theorem unreadable_note_is_removed :
    loadDocuments textReader unreadableNote = some [] ∧
      ¬ OnlyAbsentRemoved textReader [unreadableNote] storedNote (applyWatchDelta storedNote [] .stored).1 ∧
      ¬ OnlyAbsentRemoved textReader [unreadableNote] storedNote
        (unionPrune textReader storedNote [unreadableNote]) := by
  unfold OnlyAbsentRemoved
  decide +kernel

end CodeMemory.Continual
