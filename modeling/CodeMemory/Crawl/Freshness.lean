import CodeMemory.Crawl.Census

/-! The freshness probe and the poller built on it. The probe compares the stamps
of a loaded index with those of the tree, without reading any file, and the poller
refreshes once the probe has found a difference for long enough. The probe admits
entries that the crawl does not, so that some trees are never fresh. -/

namespace CodeMemory.Crawl

open Lib Lib.GoMap Lib.Path List

variable {tc : Toolchain} {T : Tree} {idx : Index} {rootAbs : GoString} {c : Corpus} {env : RefreshEnv}
  {sched : Scheduler (GoString × Entry)} {dsched : Scheduler WorkItem} {store : Store tc} {m : Ignore.Matcher}
  {s : GoString × Entry}

structure FreshnessReport where
  root : GoString
  fresh : Bool
  gitHeadIndex : GoString
  gitHeadWork : GoString
  indexedFiles : Nat
  walkedFiles : Nat
  stampMatch : Nat
  stampMismatch : Nat
  missingInIndex : Nat
  deletedOnDisk : Nat
  schema : GoString

/-- The entries the probe looks at. Without a policy nothing is ignored. -/
def Tree.probed (tc : Toolchain) (T : Tree) : List (GoString × Entry) :=
  let ign : GoString → Bool → Bool := match T.ignores tc with
    | none => fun _ _ => false
    | some m => m.ignored
  (T.walk ign (fun _ => false)).filter (fun s => tc.extOK s.1)

inductive Probe where
  | unknown
  | stampMatch
  | stampMismatch
  | missing
  deriving DecidableEq

/-- What the probe finds for one entry; `stat` follows links. -/
def probe (idx : Index) (s : GoString × Entry) : Probe :=
  match s.2.stat with
  | none => .unknown
  | some info =>
    if (idx.fileStamps.lookup s.1).any (fun old => stampEqual old info.stamp) then .stampMatch
    else if s.1 ∈ idx.files then .stampMismatch
    else .missing

def freshness (tc : Toolchain) (rootAbs gitHead : GoString) (T : Tree) (idx : Index) (meta₀ : DurableMeta) :
    FreshnessReport :=
  let walked := T.probed tc
  let live := (walked.map Prod.fst).toFinset
  let mismatch := walked.countP (fun s => probe idx s = .stampMismatch)
  let missing := walked.countP (fun s => probe idx s = .missing)
  let deleted := (idx.files.filter (· ∉ live)).card
  { root := rootAbs
    fresh := decide (mismatch = 0 ∧ missing = 0 ∧ deleted = 0)
    gitHeadIndex := meta₀.gitHead
    gitHeadWork := gitHead
    indexedFiles := idx.files.card
    walkedFiles := walked.length
    stampMatch := walked.countP (fun s => probe idx s = .stampMatch)
    stampMismatch := mismatch
    missingInIndex := missing
    deletedOnDisk := deleted
    schema := meta₀.schema }

/-- An index is fresh if the stamps of all entries that can be inspected match, and
every file of the index is still there. -/
theorem freshness_iff {gitHead : GoString} {meta₀ : DurableMeta} :
    (freshness tc rootAbs gitHead T idx meta₀).fresh = true ↔
      (∀ s ∈ T.probed tc, probe idx s = .unknown ∨ probe idx s = .stampMatch) ∧
        ∀ k ∈ idx.files, ∃ s ∈ T.probed tc, s.1 = k := by
  simp only [freshness, decide_eq_true_eq, countP_eq_zero, Finset.card_eq_zero,
    Finset.filter_eq_empty_iff, not_not, mem_toFinset, mem_map, ← and_assoc, ← forall₂_and]
  refine and_congr_left (fun _ => forall₂_congr (fun s _ => ?_))
  cases probe idx s <;> simp

def retryDelayFrom (maximum : Nat) : Nat → Nat → Nat
  | 0, delay => if delay > maximum then maximum else delay
  | n + 1, delay => if delay ≥ maximum / 2 then maximum else retryDelayFrom maximum n (delay * 2)

def retryDelay (attempt : Nat) (initial maximum : Int) : Nat :=
  let initial : Int := if initial ≤ 0 then 100 * 10 ^ 6 else initial
  let maximum : Int := if maximum < initial then 5 * 10 ^ 9 else maximum
  retryDelayFrom maximum.toNat (attempt - 1) initial.toNat

structure WatchOptions where
  workers : Int
  debounce : Int
  retryInitial : Int
  retryMax : Int

/-- The defaults that `WatchPoll` fills in. -/
def WatchOptions.filled (opt : WatchOptions) : WatchOptions :=
  { opt with
    workers := if opt.workers < 1 then 4 else opt.workers
    debounce := if opt.debounce ≤ 0 then 300 * 10 ^ 6 else opt.debounce }

/-- The poller between two ticks. A zero time is none. -/
structure WatchState (tc : Toolchain) where
  store : Store tc
  cycles : Nat
  dirtySince : Option Int
  retryAt : Option Int
  retryCount : Nat

inductive WatchEvent where
  | fresh
  | waiting
  | refreshed (stats : Stats) (wrote : Bool)
  | failed (retryCount : Nat)

section Watch

variable (opt : WatchOptions) (env : RefreshEnv) (rootAbs : GoString) (sched : Scheduler (GoString × Entry))
  (dsched : Scheduler WorkItem) (T : Tree)

def watchRefresh (s : WatchState tc) (now : Int) : WatchEvent × WatchState tc :=
  match openOrRefresh env sched dsched T s.store opt.filled.workers false with
  | (none, store) =>
    (.failed (s.retryCount + 1), { s with
      store := store
      retryCount := s.retryCount + 1
      retryAt := some (now + retryDelay (s.retryCount + 1) opt.retryInitial opt.retryMax) })
  | (some r, store) => (.refreshed r.stats r.wrote, ⟨store, s.cycles + 1, none, none, 0⟩)

def watchTick (s : WatchState tc) (now : Int) : WatchEvent × WatchState tc :=
  match loadGob tc s.store.gob with
  | none => watchRefresh opt env sched dsched T s now
  | some (idx, meta₀) =>
    if (freshness tc rootAbs env.gitHead T idx meta₀).fresh then (.fresh, { s with cycles := s.cycles + 1 })
    else
      let s := { s with dirtySince := some (s.dirtySince.getD now) }
      if now - s.dirtySince.getD now < opt.filled.debounce ∨ s.retryAt.any (fun t => decide (now < t)) = true then
        (.waiting, s)
      else watchRefresh opt env sched dsched T s now

def watchRun (s : WatchState tc) : List Int → List WatchEvent
  | [] => []
  | now :: ticks =>
    let r := watchTick opt env rootAbs sched dsched T s now
    r.1 :: watchRun r.2 ticks

variable {opt env rootAbs sched dsched T}

/-- Over a tree that does not change, a fresh index is never refreshed. -/
theorem watchRun_of_fresh {s : WatchState tc} {idx : Index} {meta₀ : DurableMeta}
    (hload : loadGob tc s.store.gob = some (idx, meta₀))
    (hfresh : (freshness tc rootAbs env.gitHead T idx meta₀).fresh = true) (ticks : List Int) :
    ∀ ev ∈ watchRun opt env rootAbs sched dsched T s ticks, ev = .fresh := by
  induction ticks generalizing s with
  | nil => simp [watchRun]
  | cons now ticks ih =>
    have htick : watchTick opt env rootAbs sched dsched T s now =
        (.fresh, { s with cycles := s.cycles + 1 }) := by
      simp only [watchTick, hload, hfresh, if_true]
    intro ev hev
    rw [watchRun, htick] at hev
    rcases mem_cons.mp hev with rfl | hev
    · rfl
    · have hload' : loadGob tc ({ s with cycles := s.cycles + 1 } : WatchState tc).store.gob =
          some (idx, meta₀) := hload
      exact ih hload' ev hev

end Watch

/-- Hashes and stamps that are there are kept. -/
theorem ensureHashes_eq (h : Holds tc idx.toTables c) : ensureHashes tc T idx = idx := by
  have hfull : ∀ k, idx.incomplete k = false := by
    intro k
    rw [Index.incomplete, h.fileHashes, h.fileStamps]
    by_cases hk : k ∈ idx.files
    · obtain ⟨d, hd⟩ := Option.isSome_iff_exists.mp ((h.files k).mp hk)
      simp [hd]
    · simp [hk]
  have hbuild : ∀ {V : Type} (m : GoMap GoString V), GoMap.build (m.keys ∪ idx.files) m.lookup = m := by
    intro V m
    refine Finmap.ext_lookup (fun k => ?_)
    rw [lookup_build]
    split_ifs with hk
    · rfl
    · exact (lookup_of_notMem_keys (fun hm => hk (Finset.mem_union_left _ hm))).symm
  simp only [ensureHashes, hfull, Bool.false_eq_true, if_false, hbuild]

/-- A saved and loaded index has the tables of the same corpus. -/
theorem Holds.load_snap (h : Holds tc idx.toTables c) (root head : GoString) :
    Holds tc ((idx.snap tc root head).load tc).toTables c := by
  have hprep : (idx.prepared tc).filePostings = idx.filePostings ∧
      (idx.prepared tc).fileDefs = idx.fileDefs ∧ (idx.prepared tc).fileRefs = idx.fileRefs ∧
      (idx.prepared tc).fileImps = idx.fileImps ∧ (idx.prepared tc).fileEdges = idx.fileEdges ∧
      (idx.prepared tc).fileHashes = idx.fileHashes ∧ (idx.prepared tc).fileStamps = idx.fileStamps := by
    rw [Index.prepared]
    split_ifs <;> exact ⟨rfl, rfl, rfl, rfl, rfl, rfl, rfl⟩
  have hload : ∀ s : DurableSnap, (s.load tc).filePostings = s.filePostings ∧
      (s.load tc).fileDefs = s.fileDefs ∧ (s.load tc).fileRefs = s.fileRefs ∧
      (s.load tc).fileImps = s.fileImps ∧ (s.load tc).fileEdges = s.fileEdges ∧
      (s.load tc).fileHashes = s.fileHashes ∧ (s.load tc).fileStamps = s.fileStamps := by
    intro s
    simp only [DurableSnap.load]
    split_ifs <;> exact ⟨rfl, rfl, rfl, rfl, rfl, rfl, rfl⟩
  obtain ⟨p₁, p₂, p₃, p₄, p₅, p₆, p₇⟩ := hprep
  obtain ⟨l₁, l₂, l₃, l₄, l₅, l₆, l₇⟩ := hload (idx.snap tc root head)
  refine ⟨fun k => ?_, fun k => ?_, fun k => ?_, fun k => ?_, fun k => ?_, fun k => ?_, fun k => ?_,
    fun k => ?_⟩
  · have hkeys : (idx.snap tc root head).filePostings.keys = idx.filePostings.keys := by rw [← p₁]; rfl
    rw [load_files, hkeys, mem_keys_filePostings h]
  · rw [l₁, ← h.filePostings, ← p₁]; rfl
  · rw [l₂, ← h.fileDefs, ← p₂]; rfl
  · rw [l₃, ← h.fileRefs, ← p₃]; rfl
  · rw [l₄, ← h.fileImps, ← p₄]; rfl
  · rw [l₅, ← h.fileEdges, ← p₅]; rfl
  · rw [l₆, ← h.fileHashes, ← p₆]; rfl
  · rw [l₇, ← h.fileStamps, ← p₇]; rfl

theorem forced_refresh_stored {store' : Store tc} {workers : Int} {r : Refreshed}
    (h : openOrRefresh env sched dsched T store workers true = (some r, store')) :
    ∃ idx meta₀ m, loadGob tc store'.gob = some (idx, meta₀) ∧ T.ignores tc = some m ∧
      Holds tc idx.toTables (sourceCorpus ((T.sources tc m.ignored).take maxIndexableFiles)) := by
  rw [openOrRefresh] at h
  cases hroot : env.rootAbs with
  | none => simp [hroot] at h
  | some rootAbs =>
    simp only [hroot, if_true, boundIndex, Option.filter_none] at h
    split at h
    · cases h
    · rename_i idx st hcrawl
      obtain ⟨m, hm, hc⟩ := crawled_crawlDir hcrawl
      rw [ensureHashes_eq hc.toHolds, saveAndReturn] at h
      cases hsave : env.saving with
      | saved id =>
        simp only [hsave, Prod.mk.injEq] at h
        rw [← h.2]
        exact ⟨_, _, m, rfl, hm, hc.toHolds.load_snap rootAbs env.gitHead⟩
      | failed | unsynced id => simp [hsave] at h

/-- Every un-ignored entry with a source extension that can be inspected is a
readable regular file that is neither empty nor too large, and there are not too many. -/
structure Probeable (tc : Toolchain) (T : Tree) (m : Ignore.Matcher) : Prop where
  entries : ∀ p e info, T.listing.lookup p = some (.file e) →
    Listing.Reach m.ignored (fun _ => false) [] p → tc.extOK (join p) = true → e.stat = some info →
    e.lstat.regular = true ∧ e.read ≠ none ∧ 0 < e.lstat.stamp.size ∧
      e.lstat.stamp.size ≤ maxIndexableFileBytes
  count : (T.sources tc m.ignored).length ≤ maxIndexableFiles

theorem Tree.mem_probed (hm : T.ignores tc = some m) :
    s ∈ T.probed tc ↔ tc.extOK s.1 = true ∧ ∃ p, s.1 = join p ∧ T.listing.lookup p = some (.file s.2) ∧
      Listing.Reach m.ignored (fun _ => false) [] p := by
  obtain ⟨k, e⟩ := s
  simp only [Tree.probed, hm, mem_filter, Tree.mem_walk]
  tauto

theorem probe_eq_unknown_iff : probe idx s = .unknown ↔ s.2.stat = none := by
  rw [probe]
  split
  · rename_i h
    simp [h]
  · rename_i info h
    split_ifs <;> simp [h]

theorem probe_eq_stampMatch_iff : probe idx s = .stampMatch ↔ ∃ info old, s.2.stat = some info ∧
      idx.fileStamps.lookup s.1 = some old ∧ stampEqual old info.stamp = true := by
  rw [probe]
  split
  · rename_i h
    simp [h]
  · rename_i info h
    cases hl : idx.fileStamps.lookup s.1 with
    | none | some old => split_ifs <;> simp_all

theorem Tree.mem_probed_of_source (hm : T.ignores tc = some m)
    (hs : s ∈ T.sources tc m.ignored) : s ∈ T.probed tc := by
  obtain ⟨-, hext, hp⟩ := Tree.mem_sources_iff.mp hs
  exact (Tree.mem_probed hm).mpr ⟨hext, hp⟩

section Crawled

variable (hm : T.ignores tc = some m)
  (hidx : Holds tc idx.toTables (sourceCorpus ((T.sources tc m.ignored).take maxIndexableFiles)))

include hm hidx

/-- An entry whose stamp matches is one of the files crawled. -/
theorem stampMatch_spec {s : GoString × Entry} (hs : s ∈ T.probed tc) (h : probe idx s = .stampMatch) :
    s ∈ (T.sources tc m.ignored).take maxIndexableFiles ∧ s.2.read ≠ none ∧ 0 < s.2.lstat.stamp.size := by
  obtain ⟨info, old, hstat, hold, he⟩ := probe_eq_stampMatch_iff.mp h
  rw [hidx.fileStamps] at hold
  obtain ⟨d, hd, rfl⟩ := Option.map_eq_some_iff.mp hold
  obtain ⟨s', hs', hk, hdoc⟩ := exists_source_of_sourceCorpus hd
  obtain ⟨-, p, hp, hl, -⟩ := (Tree.mem_probed hm).mp hs
  obtain ⟨p', hp', hl'⟩ := T.mem_sources (take_subset _ _ hs')
  have hsame : s' = s := Prod.ext hk (T.path_unique hl' hl (by rw [← hp', ← hp, hk])).2
  subst hsame
  have hind := T.indexable_of_mem_sources (take_subset _ _ hs')
  rw [Entry.doc_of_indexable hind] at hdoc
  obtain ⟨raw, hread, rfl⟩ := Option.map_eq_some_iff.mp hdoc
  exact ⟨hs', by simp [hread], (stampEqual_iff.mp he).2⟩

theorem fresh_iff_probeable (rootAbs gitHead : GoString) (meta₀ : DurableMeta) :
    (freshness tc rootAbs gitHead T idx meta₀).fresh = true ↔ Probeable tc T m := by
  rw [freshness_iff]
  constructor
  · rintro ⟨hprobe, -⟩
    have hmatch : ∀ s ∈ T.probed tc, s.2.stat ≠ none → probe idx s = .stampMatch := by
      intro s hs hstat
      rcases hprobe s hs with h | h
      · exact absurd (probe_eq_unknown_iff.mp h) hstat
      · exact h
    refine ⟨fun p e info hl hreach hext hstat => ?_, ?_⟩
    · have hs : (join p, e) ∈ T.probed tc := (Tree.mem_probed hm).mpr ⟨hext, p, rfl, hl, hreach⟩
      obtain ⟨hsrc, hread, hsize⟩ := stampMatch_spec hm hidx hs (hmatch _ hs (by simp [hstat]))
      have hind := T.indexable_of_mem_sources (take_subset _ _ hsrc)
      have hreg := hind
      simp only [indexableFile, Bool.and_eq_true] at hreg
      exact ⟨hreg.1, hread, hsize, size_le_of_indexable hind⟩
    · -- a source file beyond the limit would be missing
      have hsub : T.sources tc m.ignored ⊆ (T.sources tc m.ignored).take maxIndexableFiles := by
        intro s hs
        have hstat := Entry.stat_of_indexable (T.indexable_of_mem_sources hs)
        have hs' := Tree.mem_probed_of_source hm hs
        exact (stampMatch_spec hm hidx hs' (hmatch s hs' (by simp [hstat]))).1
      have hn : (T.sources tc m.ignored).Nodup := (T.sources_keys_nodup m.ignored).of_map
      exact (hn.subperm hsub).length_le.trans (length_take_le _ _)
  · intro hp
    rw [take_of_length_le hp.count] at hidx
    refine ⟨fun s hs => ?_, fun k hk => ?_⟩
    · cases hstat : s.2.stat with
      | none => exact .inl (probe_eq_unknown_iff.mpr hstat)
      | some info =>
        obtain ⟨hext, p, hk, hl, hreach⟩ := (Tree.mem_probed hm).mp hs
        obtain ⟨hreg, hread, hpos, hle⟩ := hp.entries p s.2 info hl hreach (hk ▸ hext) hstat
        have hind : indexableFile s.2.lstat = true := by simp [indexableFile, hreg, hle]
        have hsrc := Tree.mem_sources_iff.mpr ⟨hind, hext, p, hk, hl, hreach⟩
        obtain ⟨raw, hraw⟩ := Option.ne_none_iff_exists'.mp hread
        have hstamp : idx.fileStamps.lookup s.1 = some s.2.lstat.stamp := by
          rw [hidx.fileStamps, sourceCorpus, listCorpus_of_mem (T.sources_keys_nodup m.ignored) hsrc,
            Entry.doc_of_indexable hind, hraw]
          rfl
        rw [Entry.stat_of_indexable hind] at hstat
        cases hstat
        exact .inr (probe_eq_stampMatch_iff.mpr ⟨_, _, Entry.stat_of_indexable hind, hstamp,
          stampEqual_iff.mpr ⟨rfl, hpos⟩⟩)
    · obtain ⟨d, hd⟩ := Option.isSome_iff_exists.mp ((hidx.files k).mp hk)
      obtain ⟨s, hs, hk', -⟩ := exists_source_of_sourceCorpus hd
      exact ⟨s, Tree.mem_probed_of_source hm hs, hk'⟩

end Crawled

/-- The stored index is fresh: the report counts no difference, and the poller never
refreshes it while the tree stays as it is. -/
def StaysFresh (env : RefreshEnv) (T : Tree) (store : Store tc) : Prop :=
  ∃ idx meta₀, loadGob tc store.gob = some (idx, meta₀) ∧ ∀ rootAbs,
    (freshness tc rootAbs env.gitHead T idx meta₀).fresh = true ∧
    (freshness tc rootAbs env.gitHead T idx meta₀).stampMismatch = 0 ∧
    (freshness tc rootAbs env.gitHead T idx meta₀).missingInIndex = 0 ∧
    (freshness tc rootAbs env.gitHead T idx meta₀).deletedOnDisk = 0 ∧
    ∀ opt sched dsched (s : WatchState tc), s.store.gob = store.gob → ∀ ticks,
      ∀ ev ∈ watchRun opt env rootAbs sched dsched T s ticks, ev = .fresh

/-- A forced refresh makes the index fresh exactly if every source the probe
can inspect is one the crawl can index. -/
theorem forced_refresh_stays_fresh_iff {env : RefreshEnv} {sched : Scheduler (GoString × Entry)}
    {dsched : Scheduler WorkItem} {T : Tree} {store store' : Store tc} {workers : Int} {r : Refreshed}
    (h : openOrRefresh env sched dsched T store workers true = (some r, store')) :
    StaysFresh env T store' ↔ ∀ m, T.ignores tc = some m → Probeable tc T m := by
  obtain ⟨idx, meta₀, m, hload, hm, hidx⟩ := forced_refresh_stored h
  constructor
  · rintro ⟨idx', meta₁, hload', hfresh⟩ m' hm'
    obtain rfl : m = m' := Option.some.inj (hm.symm.trans hm')
    obtain ⟨rfl, rfl⟩ : idx = idx' ∧ meta₀ = meta₁ := by simpa using hload.symm.trans hload'
    exact (fresh_iff_probeable hm hidx [] env.gitHead meta₀).mp (hfresh []).1
  · intro hp
    refine ⟨idx, meta₀, hload, fun rootAbs => ?_⟩
    have hfresh := (fresh_iff_probeable hm hidx rootAbs env.gitHead meta₀).mpr (hp m hm)
    obtain ⟨hmis, hmiss, hdel⟩ := of_decide_eq_true hfresh
    exact ⟨hfresh, hmis, hmiss, hdel, fun opt sched dsched s hs ticks =>
      watchRun_of_fresh (hs ▸ hload) hfresh ticks⟩

theorem forced_refresh_stays_fresh_class :
    ∃ r store', openOrRefresh checkout (Scheduler.first _) (Scheduler.first _)
        (pyTree ⟨9, 1⟩ (GoString.lit "class Foo")) (Store.absent .ascii) 1 true = (some r, store') ∧
      (StaysFresh checkout (pyTree ⟨9, 1⟩ (GoString.lit "class Foo")) store' ↔
        ∀ m, (pyTree ⟨9, 1⟩ (GoString.lit "class Foo")).ignores .ascii = some m →
          Probeable .ascii (pyTree ⟨9, 1⟩ (GoString.lit "class Foo")) m) := by
  have hsome : (openOrRefresh checkout (Scheduler.first _) (Scheduler.first _)
      (pyTree ⟨9, 1⟩ (GoString.lit "class Foo")) (Store.absent .ascii) 1 true).1.isSome := by decide +kernel
  obtain ⟨r, hr⟩ := Option.isSome_iff_exists.mp hsome
  exact ⟨r, _, Prod.ext hr rfl, forced_refresh_stays_fresh_iff (Prod.ext hr rfl)⟩

/-- An empty source file is indexed, and its stamp never matches. -/
theorem empty_source_is_never_fresh :
    ¬ ∀ r store', openOrRefresh checkout (Scheduler.first _) (Scheduler.first _) (pyTree ⟨0, 1⟩ [])
      (Store.absent .ascii) 1 true = (some r, store') → StaysFresh checkout (pyTree ⟨0, 1⟩ []) store' := by
  intro h
  have heval : (openOrRefresh checkout (Scheduler.first _) (Scheduler.first _) (pyTree ⟨0, 1⟩ [])
        (Store.absent .ascii) 1 true).1.isSome ∧
      (loadGob .ascii (openOrRefresh checkout (Scheduler.first _) (Scheduler.first _) (pyTree ⟨0, 1⟩ [])
        (Store.absent .ascii) 1 true).2.gob).map (fun r =>
          (freshness .ascii [] checkout.gitHead (pyTree ⟨0, 1⟩ []) r.1 r.2).fresh) = some false := by
    decide +kernel
  obtain ⟨r, hr⟩ := Option.isSome_iff_exists.mp heval.1
  obtain ⟨idx, meta₀, hload, hfresh⟩ := h r _ (Prod.ext hr rfl)
  have hstale := heval.2
  rw [hload, Option.map_some, (hfresh []).1] at hstale
  cases hstale

end CodeMemory.Crawl
