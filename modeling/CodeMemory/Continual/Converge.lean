import CodeMemory.Continual.Loops

/-! What the polling loops make of folders that no longer change. A folder is
loaded again exactly if the stamp that was last acted on is not the one it rests
at, so what an earlier visit with that stamp failed to store stays missing. -/

namespace CodeMemory.Continual

open Lib Lib.GoString Hosted List

/-- Watched folders that can be stamped and loaded, and what that gives. -/
structure Rest (rd : Reader) (paths : List GoString) where
  src : GoString → Source
  stamp : GoString → Int64
  docs : GoString → List LocalDocument
  stamped : ∀ p ∈ paths, pathStamp rd (src p) = some (stamp p)
  loaded : ∀ p ∈ paths, loadDocuments rd (src p) = some (docs p)

def ClockRuns (later : ℕ → Visit) : Prop := ∀ t : Int, ∃ n, ∀ m ≥ n, t ≤ (later m).since

/-- The visits of a folder once it rests: every call sees it as it is and
succeeds. -/
structure SeesFolder (s : Source) (later : ℕ → Visit) : Prop where
  stamped : ∀ n, (later n).stamped = s
  loaded : ∀ n, (later n).loaded = s
  stored : ∀ n, (later n).outcome = .stored
  clock : ClockRuns later

def watchLater (rd : Reader) (debounce : Int) (w : WatchState) (later : ℕ → Visit) : ℕ → WatchState
  | 0 => w
  | n + 1 => watchTick rd debounce (watchLater rd debounce w later n) (later n)

def multiLater (rd : Reader) (debounce : Int) (paths : List GoString) (m : MultiState)
    (later : GoString → ℕ → Visit) : ℕ → MultiState
  | 0 => m
  | n + 1 => multiTick rd debounce paths (multiLater rd debounce paths m later n) (fun p => later p n)

def Agree (docs : List LocalDocument) : Prop :=
  ∀ d ∈ docs, ∀ d' ∈ docs, trimSpace d.id = trimSpace d'.id → chunkText d.title d.text = chunkText d'.title d'.text

/-- The stored texts are those of the documents, and a document without text has
none. -/
def Serves (docs : List LocalDocument) (bag : Bag) : Prop :=
  ∀ id text, (∃ k c, bag.lookup k = some c ∧ c.dsid = id ∧ c.text = text) ↔
    ∃ ch ∈ documentsToChunks docs, ch.documentID = id ∧ ch.text = text

namespace Rest

variable {rd : Reader} {paths : List GoString}

def allDocs (r : Rest rd paths) : List LocalDocument := paths.flatMap r.docs

def Seen (r : Rest rd paths) (m : MultiState) (p : GoString) : Prop := (m.stamps p).last = r.stamp p

/-- A document has its text, or a folder with it will be loaded again. -/
def KeptAt (r : Rest rd paths) (m : MultiState) (ch : ChunkWrite) : Prop :=
  (∃ q ∈ paths, ¬ r.Seen m q ∧ ∃ ch' ∈ documentsToChunks (r.docs q), ch'.documentID = ch.documentID) ∨
    (m.bag.lookup (chunkIDOf ch.documentID)).map MemChunk.text = some ch.text

/-- The loop has not marked anything as seen that it still has to do: the stored
text of a document is its own unless a folder with it will be loaded again, no
blank document is stored, and a stored document that is gone leaves with the next
load of some folder. -/
@[mk_iff]
structure Recoverable (r : Rest rd paths) (m : MultiState) : Prop where
  kept : ∀ p ∈ paths, ∀ ch ∈ documentsToChunks (r.docs p), r.KeptAt m ch
  emptied : ∀ d ∈ r.allDocs, chunkText d.title d.text = [] → trimSpace d.id ∉ documentIDs m.bag
  gone : (∃ p ∈ paths, ¬ r.Seen m p) ∨ documentIDs m.bag ⊆ liveIDs r.allDocs

end Rest

section Debounce

variable {debounce : Int} {stamp : Int64}

/-- What a visit makes of a folder that has the stamp and can be loaded. -/
def StampState.rest (s : StampState) (debounce : Int) (v : Visit) (stamp : Int64) : StampState :=
  match s.notice debounce v stamp with
  | (s', false) => s'
  | (_, true) => ⟨stamp, none⟩

theorem StampState.rest_of_seen {s : StampState} (h : s.last = stamp) (v : Visit) : s.rest debounce v stamp = s := by
  simp [StampState.rest, StampState.notice, h]

theorem StampState.last_notice (s : StampState) (debounce : Int) (v : Visit) (stamp : Int64) :
    (s.notice debounce v stamp).1.last = s.last := by
  unfold StampState.notice
  split_ifs <;> rfl

theorem StampState.ne_of_notice (s : StampState) (debounce : Int) (v : Visit) (stamp : Int64)
    (h : (s.notice debounce v stamp).2 = true) : s.last ≠ stamp := by
  intro he
  simp [StampState.notice, he] at h

/-- A stamp that is not acted on is remembered since the first time it is seen. -/
theorem StampState.rest_of_new {s : StampState} (h : s.last ≠ stamp) (v : Visit) :
    s.rest debounce v stamp =
      if v.since - s.dirtySince.getD v.now < effectiveDebounce debounce then
        { s with dirtySince := some (s.dirtySince.getD v.now) } else ⟨stamp, none⟩ := by
  unfold StampState.rest StampState.notice
  rw [if_neg (fun he => h he.symm)]
  by_cases hwait : v.since - s.dirtySince.getD v.now < effectiveDebounce debounce
  · simp [hwait]
  · simp [hwait]

/-- A folder at rest is acted on in the end. -/
theorem exists_last_eq_stamp {s : ℕ → StampState} {later : ℕ → Visit} (hclock : ClockRuns later)
    (hstep : ∀ n, s (n + 1) = (s n).rest debounce (later n) stamp) : ∃ N, ∀ n ≥ N, (s n).last = stamp := by
  have hstays : ∀ N, (s N).last = stamp → ∀ n ≥ N, (s n).last = stamp := by
    intro N hN n hn
    induction n, hn using Nat.le_induction with
    | base => exact hN
    | succ n _ ih => rwa [hstep, StampState.rest_of_seen ih]
  by_contra hnever
  have hnew : ∀ n, (s n).last ≠ stamp := fun n hn => hnever ⟨n, hstays n hn⟩
  -- after the first tick the folder is dirty since a fixed time
  have hwait : ∀ n, s (n + 1) = { s n with dirtySince := some ((s n).dirtySince.getD (later n).now) } := by
    intro n
    have hn := hnew (n + 1)
    rw [hstep, StampState.rest_of_new (hnew n)] at hn ⊢
    split_ifs at hn ⊢ with hlt
    · rfl
    · exact absurd rfl hn
  have hsince : ∀ n, (s (n + 1)).dirtySince = (s 1).dirtySince := by
    intro n
    induction n with
    | zero => rfl
    | succ n ih => rw [hwait, ← ih, hwait n]; rfl
  obtain ⟨t, ht⟩ : ∃ t, (s 1).dirtySince = some t := ⟨_, congrArg StampState.dirtySince (hwait 0)⟩
  obtain ⟨n, hn⟩ := hclock (t + effectiveDebounce debounce)
  have hact := hnew (n + 1 + 1)
  have hlate := hn (n + 1) (by omega)
  rw [hstep, StampState.rest_of_new (hnew (n + 1)), hsince n, ht, if_neg (by rw [Option.getD_some]; omega)] at hact
  exact hact rfl

end Debounce

section Load

variable {bag : Bag} {live : Finset GoString} {docs : List LocalDocument}

theorem folderDelta_stored (bag : Bag) (docs : List LocalDocument) :
    folderDelta bag docs .stored = deltaChunks bag docs := by
  unfold folderDelta continualDelta
  split_ifs with hnil hnone
  · subst hnil
    rfl
  · rw [deltaChunks, hnone]
    rfl
  · rfl

theorem Agree.chunks (h : Agree docs) {ch ch' : ChunkWrite} (hch : ch ∈ documentsToChunks docs)
    (hch' : ch' ∈ documentsToChunks docs) (hid : ch.documentID = ch'.documentID) : ch.text = ch'.text := by
  obtain ⟨d, hd, hdc⟩ := mem_documentsToChunks.mp hch
  obtain ⟨d', hd', hdc'⟩ := mem_documentsToChunks.mp hch'
  obtain ⟨-, -, rfl⟩ := documentChunk_eq_some_iff.mp hdc
  obtain ⟨-, -, rfl⟩ := documentChunk_eq_some_iff.mp hdc'
  exact h d hd d' hd' hid

theorem Agree.mono {docs' : List LocalDocument} (h : Agree docs) (hsub : ∀ d ∈ docs', d ∈ docs) : Agree docs' :=
  fun d hd d' hd' => h d (hsub d hd) d' (hsub d' hd')

/-- No chunk is that of a blank document. -/
theorem Agree.ne_of_blank (h : Agree docs) {d : LocalDocument} (hd : d ∈ docs) (hblank : chunkText d.title d.text = [])
    {ch : ChunkWrite} (hch : ch ∈ documentsToChunks docs) : ch.documentID ≠ trimSpace d.id := by
  intro hid
  obtain ⟨d', hd', hdc'⟩ := mem_documentsToChunks.mp hch
  obtain ⟨-, htext, rfl⟩ := documentChunk_eq_some_iff.mp hdc'
  exact htext ((h d' hd' d hd hid).trans hblank)

/-- The documents of the load have their texts afterwards. -/
theorem text_of_loaded (hagree : Agree docs) {ch : ChunkWrite} (hch : ch ∈ documentsToChunks docs) :
    ((folderDelta (pruneMissingDocuments bag live) docs .stored).lookup (chunkIDOf ch.documentID)).map MemChunk.text =
      some ch.text := by
  rw [folderDelta_stored]
  apply text_deltaChunks
  · intro ch' hch' hk
    rw [chunkID_of_mem hch', chunkIDOf_inj] at hk
    exact hagree.chunks hch' hch hk
  · exact .inr ⟨ch, hch, chunkID_of_mem hch⟩

/-- A live document that the load does not write stays as it is, and another one
goes. -/
theorem lookup_of_not_loaded (hbag : OfDocuments bag) {id : GoString}
    (hnot : ∀ ch ∈ documentsToChunks docs, ch.documentID ≠ id) :
    (folderDelta (pruneMissingDocuments bag live) docs .stored).lookup (chunkIDOf id) =
      if id ∈ live then bag.lookup (chunkIDOf id) else none := by
  have hkeys : ∀ ch ∈ changedChunks (pruneMissingDocuments bag live) (documentsToChunks docs),
      ch.chunkID ≠ chunkIDOf id := by
    intro ch hch hk
    have hmem := (mem_changedChunks.mp hch).1
    rw [chunkID_of_mem hmem, chunkIDOf_inj] at hk
    exact hnot ch hmem hk
  rw [folderDelta_stored, deltaChunks, lookup_putChunks_of_notMem hkeys, hbag.lookup_prune]
  cases hc : bag.lookup (chunkIDOf id) with
  | none => simp
  | some c =>
    obtain rfl := chunkIDOf_inj.mp (hbag _ c hc).1
    simp [Option.filter]

end Load

namespace Rest

variable {rd : Reader} {paths : List GoString} (r : Rest rd paths) {debounce : Int} {m : MultiState} {p : GoString}
  {ch : ChunkWrite} {v : Visit} {ps : List GoString} {visits : GoString → Visit}

theorem liveDocIDsUnion_src : liveDocIDsUnion rd (paths.map r.src) = some (liveIDs r.allDocs) := by
  have hall : ∀ ps : List GoString, (∀ p ∈ ps, loadDocuments rd (r.src p) = some (r.docs p)) →
      liveDocIDsUnion rd (ps.map r.src) = some (liveIDs (ps.flatMap r.docs)) := by
    intro ps
    induction ps with
    | nil => exact fun _ => rfl
    | cons p ps ih =>
      intro h
      rw [map_cons, liveDocIDsUnion, h p (.head _), Option.bind_some,
        ih (fun q hq => h q (mem_cons_of_mem p hq)), flatMap_cons, liveIDs_append]
      rfl
  exact hall paths r.loaded

theorem mem_allDocs (hp : p ∈ paths) {d : LocalDocument} (hd : d ∈ r.docs p) : d ∈ r.allDocs :=
  mem_flatMap.mpr ⟨p, hp, hd⟩

theorem mem_chunks_allDocs : ch ∈ documentsToChunks r.allDocs ↔ ∃ p ∈ paths, ch ∈ documentsToChunks (r.docs p) := by
  simp only [mem_documentsToChunks, allDocs, mem_flatMap]
  constructor
  · rintro ⟨d, ⟨p, hp, hd⟩, hdc⟩
    exact ⟨p, hp, d, hd, hdc⟩
  · rintro ⟨p, hp, d, hd, hdc⟩
    exact ⟨d, ⟨p, hp, hd⟩, hdc⟩

theorem mem_live_of_chunk (hp : p ∈ paths) (hch : ch ∈ documentsToChunks (r.docs p)) :
    ch.documentID ∈ liveIDs r.allDocs :=
  mem_liveIDs_of_chunk (r.mem_chunks_allDocs.mpr ⟨p, hp, hch⟩)

/-- The folder is loaded: its stamp is remembered, what is gone is pruned and its
documents are stored. -/
def act (m : MultiState) (p : GoString) : MultiState :=
  ⟨Function.update m.stamps p ⟨r.stamp p, none⟩,
    folderDelta (pruneMissingDocuments m.bag (liveIDs r.allDocs)) (r.docs p) .stored⟩

theorem seen_act_iff {q : GoString} : r.Seen (r.act m p) q ↔ q = p ∨ r.Seen m q := by
  unfold Seen act
  by_cases hq : q = p
  · subst hq
    simp
  · simp [hq]

theorem ofDocuments_act (hbag : OfDocuments m.bag) : OfDocuments (r.act m p).bag :=
  ofDocuments_folderDelta (hbag.prune _) _ _

/-- Recoverability is about the store and the last stamps. -/
theorem recoverable_congr {m' : MultiState} (hbag : m'.bag = m.bag)
    (hlast : ∀ p, (m'.stamps p).last = (m.stamps p).last) : r.Recoverable m' ↔ r.Recoverable m := by
  have hseen : ∀ p, r.Seen m' p ↔ r.Seen m p := fun p => by rw [Seen, Seen, hlast]
  have hkept : ∀ ch, r.KeptAt m' ch ↔ r.KeptAt m ch := fun ch => by simp only [KeptAt, hseen, hbag]
  simp only [recoverable_iff, hkept, hseen, hbag]

theorem mem_documentIDs_act_iff (hbag : OfDocuments m.bag) {id : GoString}
    (hnot : ∀ ch ∈ documentsToChunks (r.docs p), ch.documentID ≠ id) :
    id ∈ documentIDs (r.act m p).bag ↔ id ∈ liveIDs r.allDocs ∧ id ∈ documentIDs m.bag := by
  rw [(r.ofDocuments_act hbag).mem_documentIDs, hbag.mem_documentIDs, act, lookup_of_not_loaded hbag hnot]
  split_ifs with hlive
  · exact (and_iff_right hlive).symm
  · simp [hlive]

theorem documentIDs_act_subset (hbag : OfDocuments m.bag) (hp : p ∈ paths) :
    documentIDs (r.act m p).bag ⊆ liveIDs r.allDocs := by
  intro id hid
  by_cases hex : ∃ ch ∈ documentsToChunks (r.docs p), ch.documentID = id
  · obtain ⟨ch, hch, rfl⟩ := hex
    exact r.mem_live_of_chunk hp hch
  · push Not at hex
    exact ((r.mem_documentIDs_act_iff hbag hex).mp hid).1

section

variable (hagree : Agree r.allDocs)
include hagree

theorem keptAt_act_iff (hbag : OfDocuments m.bag) (hp : p ∈ paths)
    (hnew : ¬ r.Seen m p) {q : GoString} (hq : q ∈ paths)
    (hch : ch ∈ documentsToChunks (r.docs q)) : r.KeptAt (r.act m p) ch ↔ r.KeptAt m ch := by
  by_cases hex : ∃ ch' ∈ documentsToChunks (r.docs p), ch'.documentID = ch.documentID
  · -- the load writes the document
    refine iff_of_true (.inr ?_) (.inl ⟨p, hp, hnew, hex⟩)
    obtain ⟨ch', hch', hid⟩ := hex
    have htext : ch'.text = ch.text :=
      hagree.chunks (r.mem_chunks_allDocs.mpr ⟨p, hp, hch'⟩) (r.mem_chunks_allDocs.mpr ⟨q, hq, hch⟩) hid
    rw [← hid, ← htext]
    exact text_of_loaded (hagree.mono (fun d hd => r.mem_allDocs hp hd)) hch'
  · push Not at hex
    have hlookup : (r.act m p).bag.lookup (chunkIDOf ch.documentID) = m.bag.lookup (chunkIDOf ch.documentID) := by
      rw [act, lookup_of_not_loaded hbag hex, if_pos (r.mem_live_of_chunk hq hch)]
    unfold KeptAt
    rw [hlookup]
    refine or_congr_left (exists_congr (fun q' => and_congr_right (fun _ => and_congr_left ?_)))
    rintro ⟨ch', hch', hid⟩
    have hne : q' ≠ p := fun he => hex ch' (he ▸ hch') hid
    rw [r.seen_act_iff, or_iff_right hne]

/-- Loading a folder that was still to be loaded makes nothing recoverable that was
not, and nothing unrecoverable that was. -/
theorem recoverable_act_iff (hbag : OfDocuments m.bag) (hp : p ∈ paths)
    (hnew : ¬ r.Seen m p) : r.Recoverable (r.act m p) ↔ r.Recoverable m := by
  have hemptied : ∀ d ∈ r.allDocs, chunkText d.title d.text = [] →
      (trimSpace d.id ∈ documentIDs (r.act m p).bag ↔ trimSpace d.id ∈ documentIDs m.bag) := by
    intro d hd hblank
    have hnot : ∀ ch ∈ documentsToChunks (r.docs p), ch.documentID ≠ trimSpace d.id :=
      fun ch hch => hagree.ne_of_blank hd hblank (r.mem_chunks_allDocs.mpr ⟨p, hp, hch⟩)
    rw [r.mem_documentIDs_act_iff hbag hnot]
    exact and_iff_right_of_imp (fun hid => mem_liveIDs.mpr ⟨(mem_documentIDs.mp hid).1, d, hd, rfl⟩)
  rw [recoverable_iff, recoverable_iff]
  refine and_congr (forall₄_congr fun q hq ch hch => r.keptAt_act_iff hagree hbag hp hnew hq hch) (and_congr ?_ ?_)
  · exact forall₃_congr fun d hd hblank => (hemptied d hd hblank).not
  · exact iff_of_true (.inr (r.documentIDs_act_subset hbag hp)) (.inl ⟨p, hp, hnew⟩)

/-- With nothing left to load, the store is recoverable exactly if it serves the
documents. -/
theorem recoverable_iff_serves (hbag : OfDocuments m.bag)
    (hseen : ∀ p ∈ paths, r.Seen m p) : r.Recoverable m ↔ Serves r.allDocs m.bag := by
  constructor
  · intro h id text
    have htext : ∀ ch ∈ documentsToChunks r.allDocs,
        (m.bag.lookup (chunkIDOf ch.documentID)).map MemChunk.text = some ch.text := by
      intro ch hch
      obtain ⟨p, hp, hmem⟩ := r.mem_chunks_allDocs.mp hch
      exact (h.kept p hp ch hmem).resolve_left (fun ⟨q, hq, hnot, _⟩ => hnot (hseen q hq))
    have hlive := h.gone.resolve_left (fun ⟨q, hq, hnot⟩ => hnot (hseen q hq))
    constructor
    · rintro ⟨k, c, hc, rfl, rfl⟩
      have hid : c.dsid ∈ documentIDs m.bag := mem_documentIDs.mpr ⟨(hbag k c hc).2.1, k, c, hc, rfl⟩
      obtain ⟨hne, d, hd, he⟩ := mem_liveIDs.mp (hlive hid)
      have hnotBlank : chunkText d.title d.text ≠ [] := fun hblank => h.emptied d hd hblank (he ▸ hid)
      have hdc := documentChunk_eq_some_iff.mpr ⟨he ▸ hne, hnotBlank, rfl⟩
      have hmem := mem_documentsToChunks.mpr ⟨d, hd, hdc⟩
      refine ⟨_, hmem, he, ?_⟩
      have hstored := htext _ hmem
      rw [show chunkIDOf (trimSpace d.id) = k from he ▸ (hbag k c hc).1.symm, hc] at hstored
      exact (Option.some.inj hstored).symm
    · rintro ⟨ch, hch, rfl, rfl⟩
      obtain ⟨c, hc, ht⟩ := Option.map_eq_some_iff.mp (htext ch hch)
      exact ⟨_, c, hc, (chunkIDOf_inj.mp (hbag _ c hc).1).symm, ht⟩
  · intro h
    have hchunk : ∀ id ∈ documentIDs m.bag, ∃ ch ∈ documentsToChunks r.allDocs, ch.documentID = id := by
      intro id hid
      obtain ⟨-, k, c, hc, he⟩ := mem_documentIDs.mp hid
      obtain ⟨ch, hch, hcid, -⟩ := (h id c.text).mp ⟨k, c, hc, he, rfl⟩
      exact ⟨ch, hch, hcid⟩
    refine ⟨fun p hp ch hch => .inr ?_, fun d hd hblank hid => ?_, .inr (fun id hid => ?_)⟩
    · obtain ⟨k, c, hc, hid, ht⟩ := (h _ _).mpr ⟨ch, r.mem_chunks_allDocs.mpr ⟨p, hp, hch⟩, rfl, rfl⟩
      rw [← hid, ← (hbag k c hc).1, hc, Option.map_some, ht]
    · obtain ⟨ch, hch, he⟩ := hchunk _ hid
      exact hagree.ne_of_blank hd hblank hch he
    · obtain ⟨ch, hch, rfl⟩ := hchunk id hid
      exact mem_liveIDs_of_chunk hch

end

/-- Every call of the visit sees the folders at rest and succeeds. -/
structure Sees (p : GoString) (v : Visit) : Prop where
  stamped : v.stamped = r.src p
  loaded : v.loaded = r.src p
  union : v.union = paths.map r.src
  stored : v.outcome = .stored

theorem multiVisit_eq (hp : p ∈ paths) (hv : r.Sees p v) : multiVisit rd debounce m p v =
      match (m.stamps p).notice debounce v (r.stamp p) with
      | (s, false) => m.set p s
      | (_, true) => r.act m p := by
  simp only [multiVisit, hv.stamped, r.stamped p hp, hv.loaded, r.loaded p hp, hv.union, hv.stored, unionPrune,
    r.liveDocIDsUnion_src]
  rfl

theorem stamps_multiVisit (hp : p ∈ paths) (hv : r.Sees p v) : (multiVisit rd debounce m p v).stamps =
      Function.update m.stamps p ((m.stamps p).rest debounce v (r.stamp p)) := by
  rw [r.multiVisit_eq hp hv, StampState.rest]
  rcases (m.stamps p).notice debounce v (r.stamp p) with ⟨s, _ | _⟩
  · rfl
  · rfl

/-- A visit loads the folder if it was still to be loaded, or keeps the store and
what is seen. -/
theorem recoverable_multiVisit_iff (hagree : Agree r.allDocs) (hbag : OfDocuments m.bag) (hp : p ∈ paths)
    (hv : r.Sees p v) : r.Recoverable (multiVisit rd debounce m p v) ↔ r.Recoverable m := by
  rw [r.multiVisit_eq hp hv]
  have hlast := (m.stamps p).last_notice debounce v (r.stamp p)
  have hnew := (m.stamps p).ne_of_notice debounce v (r.stamp p)
  revert hlast hnew
  rcases (m.stamps p).notice debounce v (r.stamp p) with ⟨s, _ | _⟩
  · intro hlast _
    have hbag' : (m.set p s).bag = m.bag := rfl
    apply r.recoverable_congr hbag'
    intro q
    by_cases hq : q = p
    · subst hq
      simpa [MultiState.set] using hlast
    · simp [MultiState.set, hq]
  · exact fun _ hnew => r.recoverable_act_iff hagree hbag hp (hnew rfl)

/-- A tick visits every folder once. -/
theorem stamps_multiTick (hnodup : ps.Nodup) (hsub : ∀ q ∈ ps, q ∈ paths) (hv : ∀ q ∈ paths, r.Sees q (visits q)) :
    (multiTick rd debounce ps m visits).stamps p =
      if p ∈ ps then (m.stamps p).rest debounce (visits p) (r.stamp p) else m.stamps p := by
  induction ps generalizing m with
  | nil => rfl
  | cons q ps ih =>
    obtain ⟨hq, hrest⟩ := nodup_cons.mp hnodup
    have hqp := hsub q (.head _)
    show (multiTick rd debounce ps (multiVisit rd debounce m q (visits q)) visits).stamps p = _
    rw [ih hrest (fun q' hq' => hsub q' (mem_cons_of_mem q hq')), r.stamps_multiVisit hqp (hv q hqp)]
    by_cases hpq : p = q
    · subst hpq
      simp [hq]
    · simp [hpq]

theorem recoverable_multiTick_iff (hagree : Agree r.allDocs) (hbag : OfDocuments m.bag)
    (hsub : ∀ q ∈ ps, q ∈ paths) (hv : ∀ q ∈ paths, r.Sees q (visits q)) :
    r.Recoverable (multiTick rd debounce ps m visits) ↔ r.Recoverable m := by
  induction ps generalizing m with
  | nil => exact Iff.rfl
  | cons q ps ih =>
    have hq := hsub q (.head _)
    refine (ih (ofDocuments_multiVisit hbag q (visits q)) (fun q' hq' => ?_)).trans ?_
    · exact hsub q' (mem_cons_of_mem q hq')
    · exact r.recoverable_multiVisit_iff hagree hbag hq (hv q hq)

section Later

variable {later : GoString → ℕ → Visit}

theorem ofDocuments_multiLater (hbag : OfDocuments m.bag) (n : ℕ) :
    OfDocuments (multiLater rd debounce paths m later n).bag := by
  induction n with
  | zero => exact hbag
  | succ n ih => exact ofDocuments_multiTick ih _

theorem recoverable_multiLater_iff (hagree : Agree r.allDocs) (hbag : OfDocuments m.bag)
    (hv : ∀ p ∈ paths, ∀ n, r.Sees p (later p n)) (n : ℕ) :
    r.Recoverable (multiLater rd debounce paths m later n) ↔ r.Recoverable m := by
  induction n with
  | zero => exact Iff.rfl
  | succ n ih =>
    refine (r.recoverable_multiTick_iff hagree (ofDocuments_multiLater hbag n) (fun _ hq => hq) ?_).trans ih
    exact fun q hq => hv q hq n

/-- Every folder is loaded in the end. -/
theorem eventually_seen (hnodup : paths.Nodup) (hv : ∀ p ∈ paths, ∀ n, r.Sees p (later p n))
    (hclock : ∀ p ∈ paths, ClockRuns (later p)) :
    ∃ N, ∀ n ≥ N, ∀ p ∈ paths, r.Seen (multiLater rd debounce paths m later n) p := by
  have hone : ∀ p ∈ paths, ∃ N, ∀ n ≥ N, r.Seen (multiLater rd debounce paths m later n) p := by
    intro p hp
    apply exists_last_eq_stamp (s := fun n => (multiLater rd debounce paths m later n).stamps p) (hclock p hp)
    intro n
    exact (r.stamps_multiTick hnodup (fun _ hq => hq) (fun q hq => hv q hq n)).trans (if_pos hp)
  simp only [← Filter.eventually_atTop] at hone ⊢
  exact (Filter.eventually_all_finite paths.finite_toSet).mpr hone

/-- The documents are served from some tick on exactly if the state is recoverable
when the folders come to rest. -/
theorem settles_iff (hnodup : paths.Nodup) (hagree : Agree r.allDocs) (hbag : OfDocuments m.bag)
    (hv : ∀ p ∈ paths, ∀ n, r.Sees p (later p n)) (hclock : ∀ p ∈ paths, ClockRuns (later p)) :
    (∃ N, ∀ n ≥ N, Serves r.allDocs (multiLater rd debounce paths m later n).bag) ↔ r.Recoverable m := by
  obtain ⟨N, hN⟩ : ∃ N, ∀ n ≥ N, ∀ p ∈ paths, r.Seen (multiLater rd debounce paths m later n) p :=
    r.eventually_seen hnodup hv hclock
  have hend : ∀ n ≥ N, (Serves r.allDocs (multiLater rd debounce paths m later n).bag ↔ r.Recoverable m) := by
    intro n hn
    rw [← r.recoverable_iff_serves hagree (ofDocuments_multiLater hbag n) (hN n hn)]
    exact r.recoverable_multiLater_iff hagree hbag hv n
  constructor
  · rintro ⟨N', h⟩
    exact (hend (max N N') (by omega)).mp (h _ (by omega))
  · exact fun h => ⟨N, fun n hn => (hend n hn).mpr h⟩

end Later

end Rest

/-- A watch of one folder as one of several. -/
def WatchState.multi (w : WatchState) : MultiState := ⟨fun _ => w.stamp, w.bag⟩

section Single

variable {rd : Reader} {debounce : Int} {path : GoString} (r : Rest rd [path]) {w : WatchState} {later : ℕ → Visit}

/-- The same visits, with the union that a watch of several folders would see. -/
def Rest.unionVisits (r : Rest rd [path]) (later : ℕ → Visit) (_ : GoString) (n : ℕ) : Visit :=
  { later n with union := [r.src path] }

theorem Rest.sees_unionVisits (hs : SeesFolder (r.src path) later) :
    ∀ p ∈ [path], ∀ n, r.Sees p (r.unionVisits later p n) := by
  intro p hp n
  obtain rfl := mem_singleton.mp hp
  exact ⟨hs.stamped n, hs.loaded n, rfl, hs.stored n⟩

theorem Rest.multiLater_eq_watchLater (hs : SeesFolder (r.src path) later) (n : ℕ) :
    (multiLater rd debounce [path] w.multi (r.unionVisits later) n).stamps path =
        (watchLater rd debounce w later n).stamp ∧
      (multiLater rd debounce [path] w.multi (r.unionVisits later) n).bag = (watchLater rd debounce w later n).bag := by
  have hpath : path ∈ [path] := mem_singleton_self path
  induction n with
  | zero => exact ⟨rfl, rfl⟩
  | succ n ih =>
    obtain ⟨hstamp, hbag⟩ := ih
    have hdocs : r.allDocs = r.docs path := by simp [Rest.allDocs]
    have hnotice : ∀ s : StampState,
        s.notice debounce (r.unionVisits later path n) (r.stamp path) = s.notice debounce (later n) (r.stamp path) :=
      fun _ => rfl
    rw [multiLater, watchLater, multiTick, foldl_cons, foldl_nil,
      r.multiVisit_eq hpath (r.sees_unionVisits hs path hpath n), hstamp, hnotice]
    simp only [watchTick, hs.stamped, r.stamped path hpath, hs.loaded, r.loaded path hpath, hs.stored,
      applyWatchDelta_bag]
    rcases (watchLater rd debounce w later n).stamp.notice debounce (later n) (r.stamp path) with ⟨s, _ | _⟩
    · exact ⟨Function.update_self .., hbag⟩
    · refine ⟨Function.update_self .., ?_⟩
      show folderDelta _ _ _ = folderDelta _ _ _
      rw [hbag, hdocs]

theorem Rest.watch_settles (hagree : Agree r.allDocs) (hbag : OfDocuments w.bag)
    (hs : SeesFolder (r.src path) later) :
    (∃ N, ∀ n ≥ N, Serves r.allDocs (watchLater rd debounce w later n).bag) ↔ r.Recoverable w.multi := by
  have hclock : ∀ p ∈ [path], ClockRuns (r.unionVisits later p) := fun _ _ => hs.clock
  have hbags : ∀ n, (multiLater rd debounce [path] w.multi (r.unionVisits later) n).bag =
      (watchLater rd debounce w later n).bag := fun n => (r.multiLater_eq_watchLater hs n).2
  simp only [← hbags]
  exact r.settles_iff (nodup_singleton path) hagree hbag (r.sees_unionVisits hs) hclock

end Single

/-- With folders that have come to rest after any run, the stored documents are
exactly the loaded ones from some tick on, exactly if the state was recoverable
when they came to rest. -/
theorem watch_settles_iff {rd : Reader} {debounce : Int} {bag : Bag} (hbag : OfDocuments bag) :
    (∀ (path : GoString) (r : Rest rd [path]) (start : Visit) (ticks : List Visit) (later : ℕ → Visit),
      Agree r.allDocs → SeesFolder (r.src path) later →
      ((∃ N, ∀ n ≥ N, Serves r.allDocs
          (watchLater rd debounce (watchRun rd debounce bag start ticks) later n).bag) ↔
        r.Recoverable (watchRun rd debounce bag start ticks).multi)) ∧
    (∀ (given : List GoString) (r : Rest rd (uniqueNonEmpty given)) (start : GoString → Visit) (union : List Source)
      (ticks : List (GoString → Visit)) (later : GoString → ℕ → Visit),
      Agree r.allDocs →
      (∀ p ∈ uniqueNonEmpty given, SeesFolder (r.src p) (later p) ∧
        ∀ n, (later p n).union = (uniqueNonEmpty given).map r.src) →
      ((∃ N, ∀ n ≥ N, Serves r.allDocs (multiLater rd debounce (uniqueNonEmpty given)
          (multiRun rd debounce (uniqueNonEmpty given) bag start union ticks) later n).bag) ↔
        r.Recoverable (multiRun rd debounce (uniqueNonEmpty given) bag start union ticks))) := by
  constructor
  · intro path r start ticks later hagree hs
    exact r.watch_settles hagree (ofDocuments_watchRun hbag start ticks) hs
  · intro given r start union ticks later hagree hs
    apply r.settles_iff (nodup_uniqueNonEmpty given) hagree (ofDocuments_multiRun hbag start union ticks)
    · exact fun p hp n => ⟨(hs p hp).1.stamped n, (hs p hp).1.loaded n, (hs p hp).2 n, (hs p hp).1.stored n⟩
    · exact fun p hp => (hs p hp).1.clock

/-- A reader that takes every line for the same document. -/
def lineReader : Reader :=
  ⟨.ascii, fun _ => some (((∅ : GoMap GoString (Option GoString)).insert (lit "id") (some (lit "a"))).insert
    (lit "text") (some (lit "hello")))⟩

def linesFile (readable : Bool) : Source :=
  ⟨lit "docs.jsonl", some (.file ⟨7, 5, readable, [⟨lit "line", true⟩]⟩), true⟩

def restingFile : Rest lineReader [lit "docs.jsonl"] where
  src _ := linesFile true
  stamp _ := 13
  docs _ := [⟨lit "a", [], lit "hello", []⟩]
  stamped _ _ := by decide +kernel
  loaded _ _ := by decide +kernel

def fileVisit (s : Source) (n : ℕ) : Visit := ⟨linesFile true, n, n, s, [], .stored⟩

theorem seesFolder_restingFile : SeesFolder (linesFile true) (fileVisit (linesFile true)) where
  stamped _ := rfl
  loaded _ := rfl
  stored _ := rfl
  clock t := ⟨t.toNat, fun n hn => by
    show t ≤ (n : Int)
    omega⟩

theorem agree_restingFile : Agree restingFile.allDocs := by
  intro d hd d' hd' _
  rw [mem_singleton.mp hd, mem_singleton.mp hd']

/-- A folder that could not be stamped at first is loaded later. -/
theorem watch_settles_iff_file :
    ∃ N, ∀ n ≥ N, Serves restingFile.allDocs (watchLater lineReader 1
      (watchRun lineReader 1 ∅ ⟨{ linesFile true with found := false }, 0, 0, linesFile true, [], .stored⟩ [])
      (fileVisit (linesFile true)) n).bag := by
  apply ((watch_settles_iff ofDocuments_empty).1 _ restingFile _ [] _ agree_restingFile seesFolder_restingFile).mpr
  have hnew : ∀ p, ¬ restingFile.Seen (WatchState.multi ⟨⟨0, none⟩, ∅⟩) p := by
    intro p hseen
    exact absurd (show (0 : Int64) = 13 from hseen) (by decide)
  have hempty : documentIDs ∅ = ∅ := by decide
  refine ⟨fun p hp ch hch => .inl ?_, fun d _ _ hid => ?_, .inl ⟨_, mem_singleton_self _, hnew _⟩⟩
  · exact ⟨p, hp, hnew p, ch, hch, rfl⟩
  · exact absurd (hempty ▸ hid) (Finset.notMem_empty _)

/-- A file that could not be read in the baseline is never read again. -/
theorem failed_baseline_is_not_retried :
    SeesFolder (restingFile.src (lit "docs.jsonl")) (fileVisit (linesFile true)) ∧
      ¬ ∃ N, ∀ n ≥ N, Serves restingFile.allDocs (watchLater lineReader 1
        (watchRun lineReader 1 ∅ (fileVisit (linesFile false) 0) []) (fileVisit (linesFile true)) n).bag := by
  refine ⟨seesFolder_restingFile, fun h => ?_⟩
  have hrun : watchRun lineReader 1 ∅ (fileVisit (linesFile false) 0) [] = ⟨⟨13, none⟩, ∅⟩ := rfl
  rw [hrun, restingFile.watch_settles agree_restingFile ofDocuments_empty seesFolder_restingFile] at h
  have hchunk : (⟨lit "a", lit "a#0", lit "hello", []⟩ : ChunkWrite) ∈
      documentsToChunks (restingFile.docs (lit "docs.jsonl")) := by decide +kernel
  rcases h.kept _ (mem_singleton_self _) _ hchunk with ⟨q, -, hnew, -⟩ | hstored
  · exact hnew rfl
  · cases hstored

end CodeMemory.Continual
