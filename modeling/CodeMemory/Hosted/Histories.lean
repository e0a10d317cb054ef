import CodeMemory.Hosted.Recovery

/-! Histories of a durable brain: calls, re-opens and crashes between two file
writes. As long as no crash hits a flush that has changed the chunk files under a
snapshot of the present generation, every re-open installs the index of the corpus
that it loads. -/

namespace CodeMemory.Hosted

open Lib Lib.GoString Crawl List

variable {tc : Toolchain}

/-- A chunk with the white space that an upsert strips gone. -/
def ChunkWrite.trimmed (ch : ChunkWrite) : ChunkWrite :=
  ⟨trimSpace ch.documentID, trimSpace ch.chunkID, trimSpace ch.text, ch.sourceURI⟩

theorem storedChunk_trimmed (ch : ChunkWrite) : storedChunk ch.trimmed = storedChunk ch := by
  simp only [storedChunk, ChunkWrite.trimmed, trimSpace_trimSpace]

theorem upsertChunks_trimmed (bag : Bag) (chunks : List ChunkWrite) :
    upsertChunks bag (chunks.map ChunkWrite.trimmed) = upsertChunks bag chunks := by
  induction chunks generalizing bag with
  | nil => rfl
  | cons ch rest ih =>
    rw [map_cons, upsertChunks, upsertChunks, storedChunk_trimmed]
    cases storedChunk ch with
    | error e => rfl
    | ok r => exact ih _

theorem ChunkWrite.Ready.trimmed_eq {ch : ChunkWrite} (h : ch.Ready) : ch.trimmed = ch := by
  unfold ChunkWrite.Ready storedChunk at h
  split_ifs at h
  obtain ⟨hid, hc⟩ := Prod.mk.inj (Except.ok.inj h)
  obtain ⟨hdoc, htext, -⟩ := MemChunk.mk.inj hc
  rw [ChunkWrite.trimmed, hid, hdoc, htext]

namespace Session

variable {s : Session} {chunks : List ChunkWrite}

section

variable (h : s.Sound tc)
include h

variable {rows : List ChunkWrite} {m : Memory}

/-- After an upsert the dirty ids are those that the files lack. -/
theorem Sound.pending_marked
    (hbag : m.bag = putChunks s.store.memory.bag rows) (hmem : ∀ ch, ch ∈ rows ↔ ch ∈ chunks.map ChunkWrite.trimmed)
    (hprop : ∀ ch ∈ rows, ch.Proper tc) : (s.marked m chunks).store.Pending tc s.disk s.store.memory.bag := by
  have hids : ∀ k, k ∈ (s.marked m chunks).store.dirty ↔ ∃ ch ∈ rows, ch.chunkID = k := by
    intro k
    simp only [marked, h.settled.dirty, Finset.empty_union, mem_toFinset, mem_map, hmem]
    constructor
    · rintro ⟨ch, hch, rfl⟩
      exact ⟨ch.trimmed, ⟨ch, hch, rfl⟩, rfl⟩
    · rintro ⟨_, ⟨ch, hch, rfl⟩, rfl⟩
      exact ⟨ch, hch, rfl⟩
  have hstored : (s.marked m chunks).store.memory.bag = putChunks s.store.memory.bag rows := hbag
  refine ⟨?_, h.settled.holds, h.settled.trusts, ?_, ?_, ?_, h.settled.pending.behind⟩
  · rw [hstored]
    exact properBag_putChunks h.settled.holds.proper hprop
  · intro _ k hk
    rw [hstored]
    exact lookup_putChunks_of_notMem (fun ch hch he => hk ((hids k).mpr ⟨ch, hch, he⟩))
  · intro k hk
    rw [hstored]
    exact GoMap.mem_keys_iff.mpr (exists_lookup_putChunks (.inr ((hids k).mp hk)))
  · intro hclean
    cases hclean

theorem Sound.flush_marked
    (hbag : m.bag = putChunks s.store.memory.bag rows) (hmem : ∀ ch, ch ∈ rows ↔ ch ∈ chunks.map ChunkWrite.trimmed)
    (hprop : ∀ ch ∈ rows, ch.Proper tc) :
    ((s.marked m chunks).flush tc).1.Sound tc ∧ ((s.marked m chunks).flush tc).2 = true ∧
      ((s.marked m chunks).flush tc).1.store.memory = m := by
  obtain ⟨hsound, hok, hmemory, -⟩ :=
    sound_flush (s := s.marked m chunks) h.points (h.pending_marked hbag hmem hprop)
  exact ⟨hsound, hok, hmemory⟩

theorem Sound.upsertChunks
    (hprop : ∀ ch ∈ chunks, ch.trimmed.Proper tc) : (s.upsertChunks tc chunks).Sound tc := by
  have hrows : ∀ ch ∈ chunks.map ChunkWrite.trimmed, ch.Proper tc := by
    intro row hrow
    obtain ⟨ch, hch, rfl⟩ := mem_map.mp hrow
    exact hprop ch hch
  unfold Session.upsertChunks
  rw [← upsertChunks_trimmed, upsertChunks_of_ready (fun ch hch => (hrows ch hch).ready)]
  dsimp only
  split_ifs with hnone
  · exact h
  · exact (h.flush_marked rfl (fun _ => Iff.rfl) hrows).1.setHot _
  · rename_i hfailed
    exact absurd (h.flush_marked rfl (fun _ => Iff.rfl) hrows).2.1 hfailed

/-- A burst leaves the index of the bag in memory, and the bag on disk. -/
theorem Sound.burstUpsert (order : Interleaving) (hprop : ∀ ch ∈ chunks, ch.Proper tc) :
    (s.burstUpsert tc order chunks).1.Sound tc ∧ (s.burstUpsert tc order chunks).2 = true ∧
      (s.burstUpsert tc order chunks).1.store.memory.bag = putChunks s.store.memory.bag (order.arrange chunks) ∧
      (s.burstUpsert tc order chunks).1.store.memory.hot =
        buildHotLex tc (s.burstUpsert tc order chunks).1.store.memory.bag := by
  have hready : ∀ ch ∈ chunks, ch.Ready := fun ch hch => (hprop ch hch).ready
  have htrimmed : chunks.map ChunkWrite.trimmed = chunks := by
    rw [map_congr_left (fun ch hch => (hready ch hch).trimmed_eq), map_id']
  have hmem : ∀ ch, ch ∈ order.arrange chunks ↔ ch ∈ chunks.map ChunkWrite.trimmed := by
    intro ch
    rw [htrimmed]
    exact (order.perm chunks).mem_iff
  have hbag := bag_burstUpsert tc s.store.memory order hready
  obtain ⟨hsound, hok, hmemory⟩ := h.flush_marked hbag hmem
    (fun ch hch => hprop ch ((order.perm chunks).mem_iff.mp hch))
  unfold Session.burstUpsert
  rw [hmemory]
  exact ⟨hsound, hok, hbag, rfl⟩

theorem Sound.flush :
    (s.flush tc).1.Sound tc ∧ (s.flush tc).1.store.memory = s.store.memory ∧
      (s.flush tc).1.disk.generation = some (s.flush tc).1.store.generation := by
  obtain ⟨hsound, -, hmemory, hgen⟩ := sound_flush h.points h.settled.pending
  exact ⟨hsound, hmemory, hgen⟩

theorem Sound.flushGeneration (warm : Bool) :
    (s.flushGeneration tc warm).Sound tc ∧ (s.flushGeneration tc warm).store.memory = s.store.memory ∧
      (s.flushGeneration tc warm).disk.generation = some (s.flushGeneration tc warm).store.generation := by
  obtain ⟨hsound, hmemory, hgen⟩ := h.bumpGeneration.flush
  unfold Session.flushGeneration
  split_ifs
  · obtain ⟨hagain, hmemory', hgen'⟩ := hsound.flush
    exact ⟨hagain, hmemory'.trans hmemory, hgen'⟩
  · exact ⟨hsound, hmemory, hgen⟩

/-- Saving the index of the bag under the generation on disk. -/
theorem Sound.saveIndex (hgen : s.disk.generation = some s.store.generation) {live : Bag}
    (hlive : live = liveChunks tc s.store.memory.bag) :
    (s.issue [.snapshot live s.store.generation]).Sound tc := by
  have hset : s.store.Settled tc (s.disk.write (.snapshot live s.store.generation)) := by
    refine ⟨h.settled.holds, ?_, h.settled.dirty, h.settled.unforced, h.settled.saved, _, hgen, le_rfl⟩
    intro g hg
    cases hg
    exact ⟨rfl, s.store.generation, hgen, le_rfl, fun _ _ => hlive⟩
  refine ⟨hset, ?_⟩
  intro p hp hexp
  rcases mem_points_issue hp with hold | ⟨written, hw, rfl⟩
  · exact h.points p hold hexp
  · have hlast : written <+: [] ++ [Write.snapshot live s.store.generation] := hw
    rcases prefix_concat_iff.mp hlast with rfl | hnil
    · exact hset.consistent
    · rw [prefix_nil.mp hnil]
      exact h.settled.consistent

end

variable {docs : List LocalDocument}

section

variable (h : s.Sound tc)
include h

/-- Indexing documents whose chunks are stored. -/
theorem Sound.indexDocuments (hgen : s.disk.generation = some s.store.generation)
    (hhot : s.store.memory.hot = buildHotLex tc s.store.memory.bag)
    (hstored : putChunks s.store.memory.bag (documentsToChunks docs) = s.store.memory.bag) :
    (s.indexDocuments tc docs).Sound tc := by
  have hbag := bag_ensureHotLexIncremental tc s.store.memory docs
  have hsaved := hot_ensureHotLexIncremental tc s.store.memory docs
  unfold Session.indexDocuments
  revert hbag hsaved
  generalize s.store.memory.ensureHotLexIncremental tc docs = r
  rcases r with ⟨⟨⟨bag, hot⟩, handed⟩, saved⟩
  rintro rfl hsaved
  dsimp only
  split_ifs with hwrite
  · apply (h.setHot hot).saveIndex hgen
    rw [show hot = _ from hsaved hwrite.1]
    have hlive : s.store.memory.hot.live = liveChunks tc s.store.memory.bag := by rw [hhot]; rfl
    refine (addChunks_putChunks hlive ready_documentsToChunks).trans ?_
    rw [hstored]
    rfl
  · exact h.setHot hot

theorem Sound.ingest {order : Interleaving}
    (hprop : ∀ ch ∈ chunks, ch.Proper tc) (hchunks : documentsToChunks docs = chunks)
    (horder : putChunks ∅ (order.arrange chunks) = putChunks ∅ chunks) (warm : Bool) :
    (((s.burstUpsert tc order chunks).1.flushGeneration tc warm).indexDocuments tc docs).Sound tc := by
  obtain ⟨hburst, -, hbag, hhot⟩ := h.burstUpsert order hprop
  obtain ⟨hsound, hmemory, hgen⟩ := hburst.flushGeneration warm
  apply hsound.indexDocuments hgen
  · rw [hmemory]
    exact hhot
  · rw [hmemory, hchunks, hbag]
    apply Finmap.ext_lookup
    intro k
    -- the chunks are put a second time over what they left the first time
    rw [lookup_putChunks_or, lookup_putChunks_or _ (order.arrange chunks), horder]
    cases (putChunks ∅ chunks).lookup k <;> rfl

theorem Sound.burstIngestLocal {order : Interleaving}
    (hprop : ∀ ch ∈ documentsToChunks docs, ch.Proper tc)
    (horder : putChunks ∅ (order.arrange (documentsToChunks docs)) = putChunks ∅ (documentsToChunks docs))
    (warm : Bool) : (s.burstIngestLocal tc docs order warm).Sound tc := by
  obtain ⟨hburst, hok, -, -⟩ := h.burstUpsert order hprop
  unfold Session.burstIngestLocal
  dsimp only
  split_ifs with hnone hfailed
  · exact h
  · exact hburst
  · exact h.ingest hprop rfl horder warm
  · exact (hburst.flushGeneration warm).1

theorem Sound.continualDeltaLocal
    (hprop : ∀ ch ∈ documentsToChunks docs, ch.Proper tc) (warm : Bool) :
    (s.continualDeltaLocal tc docs warm).Sound tc := by
  have hsub : ∀ ch ∈ changedChunks s.store.memory.bag (documentsToChunks docs), ch ∈ documentsToChunks docs :=
    fun _ hch => (mem_changedChunks.mp hch).1
  have hchanged : ∀ ch ∈ changedChunks s.store.memory.bag (documentsToChunks docs), ch.Proper tc :=
    fun ch hch => hprop ch (hsub ch hch)
  unfold Session.continualDeltaLocal
  dsimp only
  split_ifs with hnone hfailed
  · exact h
  · exact (h.burstUpsert .inOrder hchanged).1
  · exact h.ingest hchanged (documentsToChunks_deltaDocuments hsub) rfl warm

theorem Sound.deleteDocuments (docIDs : Finset GoString) :
    (s.deleteDocuments tc docIDs).1.Sound tc := by
  have hprop : ProperBag tc (Hosted.deleteDocuments s.store.memory.bag docIDs) := by
    intro k c hc
    rw [lookup_deleteDocuments] at hc
    exact h.settled.holds.proper k c (Option.filter_eq_some_iff.mp hc).1
  unfold Session.deleteDocuments
  dsimp only
  split_ifs with hsame
  · exact h
  · have hflush : ∀ deleted : Session, deleted.points = s.points →
        deleted.store.Pending tc deleted.disk s.store.memory.bag → (deleted.flush tc).1.Sound tc :=
      fun _ hpoints hpend => (sound_flush (hpoints ▸ h.points) hpend).1
    refine hflush _ rfl ?_
    refine ⟨hprop, h.settled.holds, h.settled.trusts, ?_, ?_, ?_, h.settled.pending.behind⟩
    · intro hforced
      cases hforced
    · intro k hk
      cases hk
    · intro hclean
      cases hclean

theorem Sound.pruneMissingDocuments (live : Finset GoString) :
    (s.pruneMissingDocuments tc live).Sound tc := by
  have hdelete := h.deleteDocuments (missingDocuments s.store.memory.bag live)
  unfold Session.pruneMissingDocuments
  dsimp only
  split_ifs
  · exact hdelete
  · exact (hdelete.setHot _).bumpGeneration

end

end Session

/-- Every chunk of the call is stored, can be saved and has a token, and of the
chunks with one id the workers store the last one last. -/
def Call.Proper (tc : Toolchain) : Call → Prop
  | .upsertChunks chunks => ∀ ch ∈ chunks, ch.trimmed.Proper tc
  | .burstIngestLocal docs order _ => (∀ ch ∈ documentsToChunks docs, ch.Proper tc) ∧
      putChunks ∅ (order.arrange (documentsToChunks docs)) = putChunks ∅ (documentsToChunks docs)
  | .continualDeltaLocal docs _ => ∀ ch ∈ documentsToChunks docs, ch.Proper tc
  | .pruneMissingDocuments _ | .deleteDocuments _ => True

variable {s : Session}

/-- Every call settles the store again. -/
theorem Session.Sound.run (h : s.Sound tc) {c : Call} (hc : c.Proper tc) : (c.run tc s).Sound tc := by
  cases c with
  | upsertChunks chunks => exact h.upsertChunks hc
  | burstIngestLocal docs order warm => exact h.burstIngestLocal hc.1 hc.2 warm
  | continualDeltaLocal docs warm => exact h.continualDeltaLocal hc warm
  | pruneMissingDocuments live => exact h.pruneMissingDocuments live
  | deleteDocuments docIDs => exact h.deleteDocuments docIDs

/-- What an action leaves that began on a consistent disk. -/
structure Attempt.Sound (tc : Toolchain) (d : Disk) (a : Attempt) : Prop where
  running : ∀ store, a.running = some store → store.Settled tc a.disk
  failed : a.running = none → a.disk = d
  points : ∀ p ∈ a.points, p.exposed = false → p.disk.Consistent tc

theorem sound_refused (d : Disk) : (Attempt.refused d).Sound tc d where
  running := by
    intro store hstore
    cases hstore
  failed := fun _ => rfl
  points := by
    intro p hp
    cases hp

theorem Session.Sound.attempt (h : s.Sound tc) (d : Disk) : s.attempt.Sound tc d where
  running := by
    intro store hstore
    cases hstore
    exact h.settled
  failed := by
    intro hnone
    cases hnone
  points := h.points

theorem Session.Sound.opened (h : s.Sound tc) (d : Disk) : (s.opened tc true).Sound tc d := by
  exact Session.Sound.attempt (h.setHot _) d

/-- The client that is opened has the index of its bag. -/
theorem Session.Sound.hot_opened (h : s.Sound tc) (hgen : s.disk.generation = some s.store.generation)
    {store : Store} (hstore : (s.opened tc true).running = some store) :
    store.memory.hot.live = store.memory.bag := by
  cases hstore
  exact (installedHot_live h.settled.trusts hgen).trans h.settled.holds.proper.liveChunks_eq

theorem sound_createLocal {d : Disk} (h : d.Consistent tc) : (createLocal tc d).Sound tc d := by
  obtain ⟨old, hholds, htrusts⟩ := h
  unfold createLocal
  split_ifs with hmeta
  · exact sound_refused d
  · have hpend : (Session.fresh d ∅ 0 true).store.Pending tc d old := by
      refine ⟨properBag_empty, hholds, htrusts, ?_, ?_, ?_, ?_⟩
      · intro hforced
        cases hforced
      · intro k hk
        cases hk
      · intro hclean
        cases hclean
      · intro m hm
        rw [hm] at hmeta
        exact absurd rfl hmeta
    obtain ⟨hsound, hok, -, -⟩ := Session.sound_flush (s := Session.fresh d ∅ 0 true)
      (fun p hp => by cases hp) hpend
    dsimp only
    rw [hok]
    exact hsound.opened d

/-- Opening a consistent disk gives a client whose index is that of the corpus. -/
theorem sound_openLocal {d : Disk} (h : d.Consistent tc) :
    (openLocal tc d).Sound tc d ∧
      ∀ store, (openLocal tc d).running = some store → store.memory.hot.live = store.memory.bag := by
  obtain ⟨old, hholds, htrusts⟩ := h
  unfold openLocal
  cases hload : d.load with
  | none =>
    refine ⟨sound_refused d, ?_⟩
    intro store hstore
    cases hstore
  | some bag =>
    obtain rfl := hholds.load hload
    cases hmeta : d.generation with
    | some n =>
      have hsound : (Session.fresh d bag n false).Sound tc := by
        refine ⟨⟨hholds, htrusts, rfl, rfl, rfl, n, hmeta, le_rfl⟩, ?_⟩
        intro p hp
        cases hp
      exact ⟨hsound.opened d, fun _ hstore => hsound.hot_opened hmeta hstore⟩
    | none =>
      have hpend : (Session.fresh d bag 0 false).store.Pending tc d bag := by
        refine ⟨hholds.proper, hholds, htrusts, fun _ _ _ => rfl, ?_, fun _ => rfl, ?_⟩
        · intro k hk
          cases hk
        · intro m hm
          rw [hmeta] at hm
          cases hm
      obtain ⟨hsound, hok, -, hgen⟩ := Session.sound_flush (s := Session.fresh d bag 0 false)
        (fun p hp => by cases hp) hpend
      simp only [Option.isSome_none, Bool.false_eq_true, if_false, Option.getD_none, hok]
      exact ⟨hsound.opened d, fun _ hstore => hsound.hot_opened hgen hstore⟩

def Action.Proper (tc : Toolchain) : Action → Prop
  | .create | .reopen => True
  | .call c => c.Proper tc

/-- A crash does not hit an exposed point. -/
def Event.Safe (tc : Toolchain) (m : Machine) : Event → Prop
  | .completes a => a.Proper tc
  | .crashes a point => a.Proper tc ∧ ∀ p, (m.attempt tc a).points[point]? = some p → p.exposed = false

def SafeHistory (tc : Toolchain) : Machine → List Event → Prop
  | _, [] => True
  | m, e :: rest => e.Safe tc m ∧ SafeHistory tc (m.step tc e) rest

structure Machine.Sound (tc : Toolchain) (m : Machine) : Prop where
  disk : m.disk.Consistent tc
  running : ∀ store, m.running = some store → store.Settled tc m.disk

variable {m : Machine}

theorem Machine.Sound.attempt (h : m.Sound tc) {a : Action} (ha : a.Proper tc) :
    (m.attempt tc a).Sound tc m.disk := by
  cases a with
  | create => exact sound_createLocal h.disk
  | reopen => exact (sound_openLocal h.disk).1
  | call c =>
    unfold Machine.attempt
    cases hrun : m.running with
    | none => exact sound_refused m.disk
    | some store =>
      have hsession : Session.Sound tc ⟨store, m.disk, []⟩ := by
        refine ⟨h.running store hrun, ?_⟩
        intro p hp
        cases hp
      exact (hsession.run ha).attempt m.disk

theorem Attempt.Sound.consistent {d : Disk} {a : Attempt} (h : a.Sound tc d) (hd : d.Consistent tc) :
    a.disk.Consistent tc := by
  cases hrun : a.running with
  | none =>
    rw [h.failed hrun]
    exact hd
  | some store => exact (h.running store hrun).consistent

theorem Machine.Sound.step (h : m.Sound tc) {e : Event} (he : e.Safe tc m) : (m.step tc e).Sound tc := by
  cases e with
  | completes a =>
    have hatt := h.attempt (a := a) he
    refine ⟨hatt.consistent h.disk, ?_⟩
    intro store hstore
    show store.Settled tc (m.attempt tc a).disk
    cases hrun : (m.attempt tc a).running with
    | some opened =>
      simp only [Machine.step, hrun, Option.some_or, Option.some.injEq] at hstore
      exact hstore ▸ hatt.running opened hrun
    | none =>
      simp only [Machine.step, hrun, Option.none_or] at hstore
      rw [hatt.failed hrun]
      exact h.running store hstore
  | crashes a point =>
    have hatt := h.attempt (a := a) he.1
    refine ⟨?_, ?_⟩
    · show Disk.Consistent tc ((((m.attempt tc a).points[point]?).map CrashPoint.disk).getD _)
      cases hp : (m.attempt tc a).points[point]? with
      | none => exact hatt.consistent h.disk
      | some p => exact hatt.points p (mem_of_getElem? hp) (he.2 p hp)
    · intro store hstore
      cases hstore

theorem Machine.Sound.run (h : m.Sound tc) {events : List Event} (hsafe : SafeHistory tc m events) :
    (m.run tc events).Sound tc := by
  induction events generalizing m with
  | nil => exact h
  | cons e rest ih => exact ih (h.step hsafe.1) hsafe.2

theorem sound_start : Machine.start.Sound tc := by
  refine ⟨consistent_empty, ?_⟩
  intro store hstore
  cases hstore

/-- After every safe history, the index that a re-open installs has exactly the
chunks of the corpus that it loads. -/
theorem reopened_index_is_corpus (tc : Toolchain) (events : List Event) (hsafe : SafeHistory tc .start events)
    (store : Store) (hopen : (openLocal tc (Machine.start.run tc events).disk).running = some store) :
    store.memory.hot.live = store.memory.bag :=
  (sound_openLocal (sound_start.run hsafe).disk).2 store hopen

def alphaChunk : ChunkWrite := ⟨lit "a", lit "a#0", lit "alpha", []⟩

def betaChunk : ChunkWrite := ⟨lit "b", lit "b#0", lit "beta", []⟩

theorem proper_alphaChunk : alphaChunk.trimmed.Proper .ascii := ⟨by rfl, by decide +kernel, by decide +kernel⟩

theorem proper_betaChunk : betaChunk.trimmed.Proper .ascii := ⟨by rfl, by decide +kernel, by decide +kernel⟩

/-- The second upsert is cut off before it writes a chunk, and is made again. -/
def resumedUpsert : List Event :=
  [.completes .create, .completes (.call (.upsertChunks [alphaChunk])),
    .crashes (.call (.upsertChunks [betaChunk])) 1, .completes .reopen,
    .completes (.call (.upsertChunks [betaChunk]))]

theorem safeHistory_resumedUpsert : SafeHistory .ascii .start resumedUpsert := by
  have halpha : Call.Proper .ascii (.upsertChunks [alphaChunk]) :=
    forall_mem_singleton.mpr proper_alphaChunk
  have hbeta : Call.Proper .ascii (.upsertChunks [betaChunk]) :=
    forall_mem_singleton.mpr proper_betaChunk
  have hpoint : (((Machine.start.run .ascii [.completes .create,
      .completes (.call (.upsertChunks [alphaChunk]))]).attempt .ascii
        (.call (.upsertChunks [betaChunk]))).points[1]?).all (fun p => !p.exposed) = true := by
    decide +kernel
  refine ⟨trivial, halpha, ⟨hbeta, ?_⟩, trivial, hbeta, trivial⟩
  intro p hp
  have hreached : (((Machine.start.run .ascii [.completes .create,
      .completes (.call (.upsertChunks [alphaChunk]))]).attempt .ascii
        (.call (.upsertChunks [betaChunk]))).points[1]?) = some p := hp
  rw [hreached] at hpoint
  simpa using hpoint

/-- Both chunks are searchable after the crash. -/
theorem reopened_index_is_corpus_resumed :
    ∃ store, (openLocal .ascii (Machine.start.run .ascii resumedUpsert).disk).running = some store ∧
      store.memory.hot.live = store.memory.bag := by
  have hopen : (openLocal .ascii (Machine.start.run .ascii resumedUpsert).disk).running.isSome = true := by
    decide +kernel
  obtain ⟨store, hstore⟩ := Option.isSome_iff_exists.mp hopen
  exact ⟨store, hstore, reopened_index_is_corpus .ascii _ safeHistory_resumedUpsert store hstore⟩

/-- The second upsert is cut off when it has appended to the delta. -/
def interruptedUpsert : List Event :=
  [.completes .create, .completes (.call (.upsertChunks [alphaChunk])),
    .crashes (.call (.upsertChunks [betaChunk])) 2]

/-- An upsert does not bump the generation, so the old snapshot is installed over
the new corpus. -/
theorem interrupted_upsert_is_unsearchable :
    ((openLocal .ascii (Machine.start.run .ascii interruptedUpsert).disk).running.map (fun store =>
      (store.memory.bag.lookup (lit "b#0"), store.memory.hot.live.lookup (lit "b#0"),
        store.memory.hot.live.lookup (lit "a#0")))) =
      some (some ⟨lit "b", lit "beta", []⟩, none, some ⟨lit "a", lit "alpha", []⟩) := by
  decide +kernel

end CodeMemory.Hosted
