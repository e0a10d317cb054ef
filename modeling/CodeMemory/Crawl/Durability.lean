import CodeMemory.Crawl.DeltaSpec
import CodeMemory.Crawl.Refresh

/-! Whether the stored index keeps up with a refresh. A refresh that saves stores
what it returns; one that serves the stored index returns what is stored. The one
case left is an incremental crawl that does not save, and it drops the files that
are gone from the index it returns only. -/

namespace CodeMemory.Crawl

open Lib Lib.GoMap List

variable {tc : Toolchain} {V α : Type} {m : GoMap GoString V} {k : GoString} {l : LocalIndex} {items : List WorkItem}
  {sched : Scheduler (GoString × Entry)} {store' : Store tc} {idx prev : Index} {T : Tree} {workers : Int}
  {st : Stats} {env : RefreshEnv} {rootAbs : GoString} {r : Refreshed}

def FilesKeys (t : Tables) : Prop := t.files = t.filePostings.keys

theorem mem_keys_insert {j : GoString} {v : V} : j ∈ (m.insert k v).keys ↔ j = k ∨ j ∈ m.keys := by
  simp only [mem_keys_iff, lookup_insert_eq]
  split_ifs with h <;> simp [h]

theorem mem_keys_copyInto {d : GoMap GoString V} : k ∈ (d.copyInto m).keys ↔ k ∈ d.keys ∨ k ∈ m.keys := by
  simp only [mem_keys_iff, lookup_copyInto]
  cases m.lookup k <;> simp

theorem filesKeys_workerStep {load : α → GoString × Option Loaded} (x : α)
    (h : FilesKeys l.toTables) : FilesKeys (workerStep tc load l x).toTables := by
  unfold workerStep
  split
  · exact h
  · refine Finset.ext (fun k => ?_)
    rw [LocalIndex.addLoaded, LocalIndex.add]
    simp only [Finset.mem_insert, mem_keys_insert]
    rw [h]

theorem filesKeys_runWorker (load : α → GoString × Option Loaded) (shard : List α) :
    FilesKeys (runWorker tc load shard).toTables := by
  have hfold : ∀ (xs : List α) (l : LocalIndex), FilesKeys l.toTables →
      FilesKeys (xs.foldl (workerStep tc load) l).toTables := by
    intro xs
    induction xs with
    | nil => intro l h; exact h
    | cons x xs ih => intro l h; exact ih _ (filesKeys_workerStep x h)
  exact hfold shard newLocalIndex Finmap.keys_empty.symm

theorem FilesKeys.mergeInto (h : FilesKeys idx.toTables)
    (hl : FilesKeys l.toTables) : FilesKeys (l.mergeInto idx).toTables := by
  refine Finset.ext (fun k => ?_)
  simp only [LocalIndex.mergeInto, Finset.mem_union, mem_keys_copyInto]
  rw [h, hl]

theorem filesKeys_mergeAll (load : α → GoString × Option Loaded) (shards : List (List α)) :
    FilesKeys (mergeAll (shards.map (runWorker tc load))).toTables := by
  have hfold : ∀ (xs : List (List α)) (idx : Index), FilesKeys idx.toTables →
      FilesKeys ((xs.map (runWorker tc load)).foldl (fun idx l => l.mergeInto idx) idx).toTables := by
    intro xs
    induction xs with
    | nil => intro idx h; exact h
    | cons x xs ih => intro idx h; exact ih _ (h.mergeInto (filesKeys_runWorker load x))
  exact hfold shards newEmptyIndex Finmap.keys_empty.symm

theorem FilesKeys.copyFileFrom {dst : Index} {rel hash : GoString} {stamp : FileStamp}
    (h : FilesKeys dst.toTables) (hrel : rel ∈ prev.filePostings.keys) :
    FilesKeys (copyFileFrom prev dst rel hash stamp).toTables := by
  obtain ⟨fp, hfp⟩ := mem_keys_iff.mp hrel
  rw [Crawl.copyFileFrom]
  by_cases he : rel = []
  · rw [if_pos he]
    exact h
  · rw [if_neg he]
    refine Finset.ext (fun k => ?_)
    simp only [hfp, Option.elim_some, Finset.mem_insert, mem_keys_insert]
    rw [h]

theorem FilesKeys.rebuild (h : FilesKeys idx.toTables) : FilesKeys (rebuildGlobalFromFiles tc idx).toTables := by
  refine Finset.ext (fun k => ?_)
  simp only [rebuildGlobalFromFiles, Finset.mem_union]
  rw [h, or_self]

theorem FilesKeys.prune (h : FilesKeys idx.toTables) (live : Finset GoString) :
    FilesKeys (pruneDeleted idx live).toTables := by
  refine Finset.ext (fun k => ?_)
  simp only [pruneDeleted, Finset.mem_filter, mem_keys_filterKeys, decide_eq_true_eq]
  rw [h]
  tauto

theorem filesKeys_reuseAll (prev : Index) (items : List WorkItem) :
    FilesKeys (reuseAll tc prev items).toTables := by
  refine FilesKeys.rebuild (FilesKeys.prune ?_ _)
  rfl

theorem filesKeys_indexChanged (sched : Scheduler WorkItem) (workers : Nat)
    (hitems : ∀ it ∈ items, it.reuse = true → it.rel ∈ prev.filePostings.keys) :
    FilesKeys (indexChanged tc sched workers (some prev) items).toTables := by
  have hfold : ∀ (xs : List WorkItem) (idx : Index), FilesKeys idx.toTables →
      (∀ it ∈ xs, it.rel ∈ prev.filePostings.keys) →
      FilesKeys (xs.foldl (fun idx (it : WorkItem) => copyFileFrom prev idx it.rel it.hash it.stamp)
        idx).toTables := by
    intro xs
    induction xs with
    | nil => intro idx h _; exact h
    | cons x xs ih =>
      intro idx h hx
      exact ih _ (h.copyFileFrom (hx x (by simp))) (fun it hit => hx it (by simp [hit]))
  refine FilesKeys.rebuild (hfold _ _ (filesKeys_mergeAll _ _) (fun it hit => ?_))
  obtain ⟨hit, hr⟩ := mem_filter.mp hit
  exact hitems it hit hr

/-- The previous index has postings for a source file, and its stamp or the hash of
its contents. -/
def Reusable (tc : Toolchain) (prev : Index) (s : GoString × Entry) : Prop :=
  s.1 ∈ prev.filePostings.keys ∧
    ((∃ old, prev.fileStamps.lookup s.1 = some old ∧ stampEqual old s.2.lstat.stamp = true) ∨
      ∃ raw, s.2.read = some raw ∧ prev.fileHashes.lookup s.1 = some (tc.fileHash raw))

/-- What the comparison makes of a source file. -/
theorem deltaItem_cases (prev : Index) {s : GoString × Entry} (hs : indexableFile s.2.lstat = true) :
    (Reusable tc prev s ∧ ∃ it, deltaItem tc (some prev.fileHashes) (some prev) s = some it ∧
        it.rel = s.1 ∧ it.reuse = true ∧ (it.hash ≠ [] → prev.fileHashes.lookup s.1 = some it.hash)) ∨
      (¬ Reusable tc prev s ∧ s.2.read = none ∧
        deltaItem tc (some prev.fileHashes) (some prev) s = none) ∨
      (¬ Reusable tc prev s ∧ s.2.read ≠ none ∧ ∃ it,
        deltaItem tc (some prev.fileHashes) (some prev) s = some it ∧ it.rel = s.1 ∧ it.reuse = false) := by
  obtain ⟨k, e⟩ := s
  simp only [deltaItem, Reusable, Entry.stat_of_indexable hs, mem_keys_iff]
  cases hp : prev.filePostings.lookup k with
  | none => cases hr : e.read <;> simp
  | some fp =>
    cases hst : prev.fileStamps.lookup k with
    | none =>
      cases hr : e.read with
      | none => simp
      | some raw => by_cases hh : prev.fileHashes.lookup k = some (tc.fileHash raw) <;> simp [hh]
    | some old =>
      by_cases he : stampEqual old e.lstat.stamp = true
      · cases hh : prev.fileHashes.lookup k <;> simp [he, hh]
      · cases hr : e.read with
        | none => simp [he]
        | some raw => by_cases hh : prev.fileHashes.lookup k = some (tc.fileHash raw) <;> simp [he, hh]

section WorkItems

variable {sources : List (GoString × Entry)} (hs : ∀ s ∈ sources, indexableFile s.2.lstat = true)

include hs

theorem mem_reused_iff (k : GoString) :
    (∃ it ∈ workItems tc prev sources, it.reuse = true ∧ it.rel = k) ↔
      ∃ s ∈ sources, Reusable tc prev s ∧ s.1 = k := by
  constructor
  · rintro ⟨it, hit, hr, rfl⟩
    obtain ⟨s, hm, hi⟩ := mem_filterMap.mp hit
    rcases deltaItem_cases prev (hs s hm) with ⟨hu, it', h', hrel, -⟩ | ⟨-, -, h'⟩ | ⟨-, -, it', h', -, hf⟩
    · rw [hi] at h'
      cases h'
      exact ⟨s, hm, hu, hrel.symm⟩
    · rw [hi] at h'
      cases h'
    · rw [hi] at h'
      cases h'
      rw [hf] at hr
      cases hr
  · rintro ⟨s, hm, hu, rfl⟩
    rcases deltaItem_cases prev (hs s hm) with ⟨-, it, hi, hrel, hr, -⟩ | ⟨hn, -⟩ | ⟨hn, -⟩
    · exact ⟨it, mem_filterMap.mpr ⟨s, hm, hi⟩, hr, hrel⟩
    · exact absurd hu hn
    · exact absurd hu hn

theorem all_reused_iff :
    (∀ it ∈ workItems tc prev sources, it.reuse = true) ↔
      ∀ s ∈ sources, Reusable tc prev s ∨ s.2.read = none := by
  constructor
  · intro h s hm
    rcases deltaItem_cases prev (hs s hm) with ⟨hu, -⟩ | ⟨-, hr, -⟩ | ⟨-, -, it, hi, -, hf⟩
    · exact .inl hu
    · exact .inr hr
    · rw [h it (mem_filterMap.mpr ⟨s, hm, hi⟩)] at hf
      cases hf
  · intro h it hit
    obtain ⟨s, hm, hi⟩ := mem_filterMap.mp hit
    rcases deltaItem_cases prev (hs s hm) with ⟨-, it', h', -, hr, -⟩ | ⟨-, -, h'⟩ | ⟨hn, hr, -⟩
    · rw [hi] at h'
      cases h'
      exact hr
    · rw [hi] at h'
      cases h'
    · exact absurd (h s hm) (not_or.mpr ⟨hn, hr⟩)

theorem rel_mem_of_reuse {it : WorkItem} (hit : it ∈ workItems tc prev sources) (hr : it.reuse = true) :
    it.rel ∈ prev.filePostings.keys := by
  obtain ⟨s, -, hu, hk⟩ := (mem_reused_iff hs it.rel).mp ⟨it, hit, hr, rfl⟩
  exact hk ▸ hu.1

theorem hash_of_reuse {it : WorkItem} (hit : it ∈ workItems tc prev sources) (hr : it.reuse = true)
    (hne : it.hash ≠ []) : prev.fileHashes.lookup it.rel = some it.hash := by
  obtain ⟨s, hm, hi⟩ := mem_filterMap.mp hit
  rcases deltaItem_cases prev (hs s hm) with ⟨-, it', h', hrel, -, hh⟩ | ⟨-, -, h'⟩ | ⟨-, -, it', h', -, hf⟩
  · rw [hi] at h'
    cases h'
    rw [hrel]
    exact hh hne
  · rw [hi] at h'
    cases h'
  · rw [hi] at h'
    cases h'
    rw [hf] at hr
    cases hr

theorem filesKeys_deltaIndex (sched : Scheduler WorkItem) (workers : Nat) :
    FilesKeys (deltaIndex tc sched workers (some prev) (workItems tc prev sources)).toTables := by
  simp only [deltaIndex]
  split
  · exact filesKeys_reuseAll prev _
  · exact filesKeys_indexChanged sched workers (fun it hit hr => rel_mem_of_reuse hs hit hr)

end WorkItems

structure SameStored (a b : Tables) : Prop where
  files : a.files = b.files
  filePostings : a.filePostings = b.filePostings
  fileDefs : a.fileDefs = b.fileDefs
  fileRefs : a.fileRefs = b.fileRefs
  fileImps : a.fileImps = b.fileImps
  fileEdges : a.fileEdges = b.fileEdges
  fileHashes : a.fileHashes = b.fileHashes

theorem SameStored.refl (a : Tables) : SameStored a a := ⟨rfl, rfl, rfl, rfl, rfl, rfl, rfl⟩

theorem load_files (s : DurableSnap) : (s.load tc).files = s.filePostings.keys := by
  simp only [DurableSnap.load]
  split_ifs
  · rfl
  · exact Finset.empty_union _

theorem sameStored_load_snap (h : FilesKeys idx.toTables) (root head : GoString) :
    SameStored ((idx.snap tc root head).load tc).toTables (idx.prepared tc).toTables := by
  have hf : (idx.prepared tc).files = (idx.prepared tc).filePostings.keys := by
    rw [Index.prepared]
    split_ifs
    · exact h.rebuild
    · exact h
  constructor
  · rw [load_files, hf]
    rfl
  all_goals
    simp only [DurableSnap.load]
    split_ifs <;> rfl

theorem filesKeys_crawlDir (h : crawlDir tc sched T workers = some (idx, st)) : FilesKeys idx.toTables := by
  simp only [crawlDir] at h
  split at h
  · cases h
  · simp only [Option.some.injEq, Prod.mk.injEq] at h
    rw [← h.1]
    exact filesKeys_mergeAll _ _

/-- Whether what is stored is what a refresh has returned. -/
def Durable (r : Refreshed) (store : Store tc) : Prop :=
  ∃ idx meta₁, loadGob tc store.gob = some (idx, meta₁) ∧ SameStored idx.toTables r.index.toTables

theorem durable_saveAndReturn {store : Store tc} (hidx : FilesKeys idx.toTables)
    (h : saveAndReturn env rootAbs store idx st = (some r, store')) : Durable r store' := by
  simp only [saveAndReturn] at h
  split at h
  · rename_i id hs
    rw [hs] at h
    obtain ⟨rfl, rfl⟩ := h
    exact ⟨_, _, rfl, sameStored_load_snap hidx rootAbs env.gitHead⟩
  · cases h
  · cases h

theorem filterKeys_eq_self {p : GoString → Bool} (h : ∀ k, p k = true) : m.filterKeys p = m :=
  Finmap.ext_lookup (fun k => by rw [lookup_filterKeys, if_pos (h k)])

theorem files_reuseAll (prev : Index) (items : List WorkItem) (k : GoString) :
    k ∈ (reuseAll tc prev items).files ↔ k ∈ prev.filePostings.keys ∧ ∃ it ∈ items, it.rel = k := by
  have hfiles : (reuseAll tc prev items).files =
      (prev.filePostings.keys.filter (· ∈ (items.map WorkItem.rel).toFinset)) ∪
        (prev.filePostings.filterKeys (fun path => decide (path ∉ prev.filePostings.keys ∨
          path ∈ (items.map WorkItem.rel).toFinset))).keys := rfl
  rw [hfiles, Finset.mem_union, Finset.mem_filter, mem_keys_filterKeys]
  simp only [mem_toFinset, mem_map, decide_eq_true_eq]
  tauto

/-- Reusing every file changes the stored tables unless every stored file is live. -/
theorem sameStored_reuseAll_iff (hprev : FilesKeys prev.toTables)
    (hhash : ∀ it ∈ items, it.hash ≠ [] → prev.fileHashes.lookup it.rel = some it.hash) :
    SameStored prev.toTables (reuseAll tc prev items).toTables ↔
      ∀ k ∈ prev.filePostings.keys, ∃ it ∈ items, it.rel = k := by
  constructor
  · intro h k hk
    have hk' := hk
    rw [← hprev, h.files, files_reuseAll] at hk'
    exact hk'.2
  · intro h
    have hkeep : ∀ k, decide (k ∉ prev.filePostings.keys ∨ k ∈ (items.map WorkItem.rel).toFinset) = true := by
      intro k
      simp only [decide_eq_true_eq, mem_toFinset, mem_map]
      exact or_iff_not_imp_left.mpr (fun hk => h k (not_not.mp hk))
    have hputs : putHashes (fun _ it => it.hash ≠ []) prev.fileHashes items = prev.fileHashes :=
      putHashes_eq_self (fun it hit hp => hhash it hit (by simpa using hp))
    have hkept : ∀ {V : Type} (m : GoMap GoString V), m.filterKeys (fun path =>
        decide (path ∉ prev.filePostings.keys ∨ path ∈ (items.map WorkItem.rel).toFinset)) = m :=
      fun m => filterKeys_eq_self hkeep
    refine ⟨Finset.ext (fun k => ?_), (hkept _).symm, (hkept _).symm, (hkept _).symm, (hkept _).symm,
      (hkept _).symm, ?_⟩
    · rw [files_reuseAll, hprev]
      exact ⟨fun hk => ⟨hk, h k hk⟩, And.left⟩
    · exact hputs.symm.trans (hkept _).symm

/-- The refresh compares the tree with the stored index `prev`, saves nothing, and
some stored file is not among the reused ones. -/
structure Outdates (env : RefreshEnv) (T : Tree) (tc : Toolchain) (m : Ignore.Matcher) (prev : Index)
    (meta₀ : DurableMeta) : Prop where
  notWarm : ¬ (prev.inverted ≠ ∅ ∧ stAllStampsMatch tc T prev = true)
  sameHead : meta₀.gitHead = env.gitHead
  schema : knownSchema meta₀.schema = true
  someReused : ∃ s ∈ T.sources tc m.ignored, Reusable tc prev s
  allReused : ∀ s ∈ T.sources tc m.ignored, Reusable tc prev s ∨ s.2.read = none
  gone : ∃ k ∈ prev.filePostings.keys, ∀ s ∈ T.sources tc m.ignored, Reusable tc prev s → s.1 ≠ k

def LeavesBehind (env : RefreshEnv) (T : Tree) (store : Store tc) (forceFull : Bool) : Prop :=
  forceFull = false ∧ ∃ rootAbs prev meta₀ m, env.rootAbs = some rootAbs ∧
    boundIndex env rootAbs (loadGob tc store.gob) = some (prev, meta₀) ∧ T.ignores tc = some m ∧
    Outdates env T tc m prev meta₀

theorem boundIndex_some {loaded : Option (Index × DurableMeta)}
    {r : Index × DurableMeta} (h : boundIndex env rootAbs loaded = some r) : loaded = some r :=
  (Option.filter_eq_some_iff.mp h).1

theorem filesKeys_loadGob {gob : Option GobFile} {r : Index × DurableMeta} (h : loadGob tc gob = some r) :
    FilesKeys r.1.toTables := by
  obtain ⟨s, -, rfl⟩ := Option.map_eq_some_iff.mp h
  rw [FilesKeys, load_files, DurableSnap.load]
  split_ifs <;> rfl

theorem crawlDeltaFrom_some {sched : Scheduler WorkItem} {hs : GoMap GoString GoString}
    (h : crawlDeltaFrom tc sched T workers none (some prev) = some (idx, st, hs)) :
    ∃ m n, T.ignores tc = some m ∧ 0 < n ∧
      idx = deltaIndex tc sched n (some prev) (workItems tc prev (T.sources tc m.ignored)) ∧
      st.changed = (workItems tc prev (T.sources tc m.ignored)).countP (fun it => !it.reuse) ∧
      st.unchanged = (workItems tc prev (T.sources tc m.ignored)).countP WorkItem.reuse := by
  cases hm : T.ignores tc with
  | none => simp [crawlDeltaFrom, hm] at h
  | some m =>
    simp only [crawlDeltaFrom, hm, Option.isNone_none, if_true, Option.map_some, Option.some.injEq,
      Prod.mk.injEq] at h
    obtain ⟨rfl, rfl, -⟩ := h
    exact ⟨m, _, rfl, by split_ifs <;> omega, rfl, rfl, rfl⟩

theorem countP_reuse_iff {sources : List (GoString × Entry)} (hs : ∀ s ∈ sources, indexableFile s.2.lstat = true) :
    ((workItems tc prev sources).countP (fun it => !it.reuse) = 0 ∧
        (workItems tc prev sources).countP WorkItem.reuse ≠ 0) ↔
      (∃ s ∈ sources, Reusable tc prev s) ∧ ∀ s ∈ sources, Reusable tc prev s ∨ s.2.read = none := by
  rw [← all_reused_iff hs, and_comm, ← Nat.pos_iff_ne_zero, countP_pos_iff, countP_eq_zero]
  refine and_congr ⟨?_, ?_⟩ (by simp)
  · rintro ⟨it, hit, hr⟩
    obtain ⟨s, hm, hu, -⟩ := (mem_reused_iff hs it.rel).mp ⟨it, hit, hr, rfl⟩
    exact ⟨s, hm, hu⟩
  · rintro ⟨s, hm, hu⟩
    obtain ⟨it, hit, hr, -⟩ := (mem_reused_iff hs s.1).mpr ⟨s, hm, hu, rfl⟩
    exact ⟨it, hit, hr⟩

/-- The unsaved result of an incremental crawl in which every file was reused. -/
theorem sameStored_deltaIndex_iff {sched : Scheduler WorkItem} {n : Nat}
    {sources : List (GoString × Entry)} (hs : ∀ s ∈ sources, indexableFile s.2.lstat = true)
    (hprev : FilesKeys prev.toTables) (hsome : ∃ s ∈ sources, Reusable tc prev s)
    (hall : ∀ s ∈ sources, Reusable tc prev s ∨ s.2.read = none) :
    SameStored prev.toTables (deltaIndex tc sched n (some prev) (workItems tc prev sources)).toTables ↔
      ¬ ∃ k ∈ prev.filePostings.keys, ∀ s ∈ sources, Reusable tc prev s → s.1 ≠ k := by
  obtain ⟨hzero, hne⟩ := (countP_reuse_iff hs).mpr ⟨hsome, hall⟩
  have hreuse := (all_reused_iff hs).mpr hall
  have hfast : allReused (workItems tc prev sources) = true := by
    have hcount : (workItems tc prev sources).countP WorkItem.reuse = (workItems tc prev sources).length :=
      countP_eq_length.mpr hreuse
    exact decide_eq_true ⟨hzero, hcount, by omega⟩
  rw [deltaIndex, if_pos hfast,
    sameStored_reuseAll_iff hprev (fun it hit => hash_of_reuse hs hit (hreuse it hit))]
  push Not
  refine forall₂_congr (fun k _ => ?_)
  rw [← mem_reused_iff hs k]
  constructor
  · rintro ⟨it, hit, hk⟩
    exact ⟨it, hit, hreuse it hit, hk⟩
  · rintro ⟨it, hit, -, hk⟩
    exact ⟨it, hit, hk⟩

theorem durable_full_crawl {store : Store tc} (h : (match crawlDir tc sched T workers with
      | none => (none, store)
      | some (idx, st) => saveAndReturn env rootAbs store (ensureHashes tc T idx) st) = (some r, store')) :
    Durable r store' := by
  split at h
  · cases h
  · rename_i idx st hc
    have hkeys := filesKeys_crawlDir hc
    have hkeys' : FilesKeys (ensureHashes tc T idx).toTables := hkeys
    exact durable_saveAndReturn hkeys' h

section Bound

variable {store : Store tc} {meta₀ : DurableMeta} {m : Ignore.Matcher} (hroot : env.rootAbs = some rootAbs)
  (hb : boundIndex env rootAbs (loadGob tc store.gob) = some (prev, meta₀)) (hm : T.ignores tc = some m)

include hroot hb hm

theorem leavesBehind_iff : LeavesBehind env T store false ↔ Outdates env T tc m prev meta₀ := by
  constructor
  · rintro ⟨-, rootAbs', prev', meta₁, m', hr, he, hm', ho⟩
    obtain rfl : rootAbs = rootAbs' := Option.some.inj (hroot.symm.trans hr)
    obtain ⟨rfl, rfl⟩ : prev = prev' ∧ meta₀ = meta₁ := by simpa using hb.symm.trans he
    obtain rfl : m = m' := Option.some.inj (hm.symm.trans hm')
    exact ho
  · exact fun ho => ⟨rfl, rootAbs, prev, meta₀, m, hroot, hb, hm, ho⟩

end Bound

/-- The last step of a refresh: save the result of the incremental crawl, or not. -/
theorem durable_delta_iff {dsched : Scheduler WorkItem} {store : Store tc} {meta₀ : DurableMeta}
    {hs : GoMap GoString GoString} {m : Ignore.Matcher} (hm : T.ignores tc = some m)
    (hload : loadGob tc store.gob = some (prev, meta₀))
    (hwarm : ¬ (prev.inverted ≠ ∅ ∧ stAllStampsMatch tc T prev = true))
    (hd : crawlDeltaFrom tc dsched T workers none (some prev) = some (idx, st, hs))
    (h : (if st.changed > 0 ∨ st.unchanged = 0 ∨ meta₀.gitHead ≠ env.gitHead ∨
        knownSchema meta₀.schema = false then saveAndReturn env rootAbs store idx st
      else (some ⟨idx, st, false, meta₀⟩, store)) = (some r, store')) :
    Durable r store' ↔ ¬ Outdates env T tc m prev meta₀ := by
  obtain ⟨m', n, hm', -, hidx, hch, hun⟩ := crawlDeltaFrom_some hd
  obtain rfl : m = m' := Option.some.inj (hm.symm.trans hm')
  have hsrc : ∀ s ∈ T.sources tc m.ignored, indexableFile s.2.lstat = true :=
    fun s => T.indexable_of_mem_sources
  rw [hch, hun] at h
  split_ifs at h with hsave
  · refine iff_of_true (durable_saveAndReturn (hidx ▸ filesKeys_deltaIndex hsrc dsched n) h) (fun ho => ?_)
    have hcount := (countP_reuse_iff hsrc).mpr ⟨ho.someReused, ho.allReused⟩
    rcases hsave with hsave | hsave | hsave | hsave
    · omega
    · exact hcount.2 hsave
    · exact hsave ho.sameHead
    · rw [ho.schema] at hsave
      cases hsave
  · obtain ⟨rfl, rfl⟩ : _ = r ∧ store = store' := by simpa using h
    push Not at hsave
    obtain ⟨hsome, hall⟩ := (countP_reuse_iff hsrc).mp ⟨by omega, hsave.2.1⟩
    have hsame : SameStored prev.toTables idx.toTables ↔ ¬ ∃ k ∈ prev.filePostings.keys,
        ∀ s ∈ T.sources tc m.ignored, Reusable tc prev s → s.1 ≠ k :=
      hidx ▸ sameStored_deltaIndex_iff hsrc (filesKeys_loadGob hload) hsome hall
    constructor
    · rintro ⟨prev', meta₁, hl, hst⟩ ho
      obtain ⟨rfl, rfl⟩ : prev = prev' ∧ meta₀ = meta₁ := by simpa using hload.symm.trans hl
      exact hsame.mp hst ho.gone
    · intro hno
      refine ⟨prev, meta₀, hload, hsame.mpr (fun hgone => hno ?_)⟩
      exact ⟨hwarm, hsave.2.2.1, by simpa using hsave.2.2.2, hsome, hall, hgone⟩

/-- A refresh that succeeds leaves the store with what it returns, unless it has
dropped files from an index that it does not save. -/
theorem openOrRefresh_durable_iff {env : RefreshEnv} {sched : Scheduler (GoString × Entry)}
    {dsched : Scheduler WorkItem} {T : Tree} {store store' : Store tc} {workers : Int} {forceFull : Bool}
    {r : Refreshed} (h : openOrRefresh env sched dsched T store workers forceFull = (some r, store')) :
    Durable r store' ↔ ¬ LeavesBehind env T store forceFull := by
  rw [openOrRefresh] at h
  cases hroot : env.rootAbs with
  | none => simp [hroot] at h
  | some rootAbs =>
    simp only [hroot] at h
    cases forceFull with
    | true =>
      exact iff_of_true (durable_full_crawl h) (fun hl => by cases hl.1)
    | false =>
      simp only [Bool.false_eq_true, if_false, store.loadCached_fst] at h
      cases hb : boundIndex env rootAbs (loadGob tc store.gob) with
      | none =>
        simp only [hb] at h
        refine iff_of_true (durable_full_crawl h) ?_
        rintro ⟨-, rootAbs', prev, meta₀, m, hr, he, -⟩
        obtain rfl : rootAbs = rootAbs' := Option.some.inj (hroot.symm.trans hr)
        rw [hb] at he
        cases he
      | some pm =>
        obtain ⟨prev, meta₀⟩ := pm
        simp only [hb] at h
        have hload : loadGob tc store.loadCached.2.gob = some (prev, meta₀) := by
          rw [store.loadCached_gob]
          exact boundIndex_some hb
        split_ifs at h with hwarm
        · obtain ⟨rfl, rfl⟩ : _ = r ∧ _ = store' := by simpa using h
          refine iff_of_true ⟨prev, meta₀, hload, .refl _⟩ ?_
          rintro ⟨-, rootAbs', prev', meta₁, m, hr, he, hm, ho⟩
          exact ((leavesBehind_iff hroot hb hm).mp
            ⟨rfl, rootAbs', prev', meta₁, m, hr, he, hm, ho⟩).notWarm hwarm
        · split at h
          · cases h
          · rename_i idx st hs hd
            obtain ⟨m, -, hm, -⟩ := crawlDeltaFrom_some hd
            rw [leavesBehind_iff hroot hb hm]
            exact durable_delta_iff hm hload hwarm hd h

def pairTree (deleted : Bool) : Tree where
  rootName := GoString.lit "repo"
  listing := .file (GoString.lit "a.py") (.regular ⟨9, 1⟩ (some (GoString.lit "class Foo")))
    (bif deleted then .nil
      else .file (GoString.lit "b.py") (.regular ⟨9, 1⟩ (some (GoString.lit "class Bar"))) .nil)
  wf := by cases deleted <;> decide
  ignoreFiles := ⟨.absent, .absent, .absent⟩
  outside _ := none

def checkout : RefreshEnv where
  rootAbs := some (GoString.lit "/repo")
  canonicalRoot := some
  gitHead := GoString.lit "c0ffee"
  saving := .saved ⟨100, 1⟩

def Store.absent (tc : Toolchain) : Store tc := ⟨none, none, nofun⟩

def pairStore : Store .ascii :=
  (openOrRefresh checkout (Scheduler.first _) (Scheduler.first _) (pairTree false) (Store.absent _) 1 false).2

/-- A full crawl stores what it returns. -/
theorem openOrRefresh_durable_pair :
    ∃ r store', openOrRefresh checkout (Scheduler.first _) (Scheduler.first _) (pairTree false)
      (Store.absent .ascii) 1 false = (some r, store') ∧
      (Durable r store' ↔ ¬ LeavesBehind checkout (pairTree false) (Store.absent .ascii) false) := by
  have hsome : (openOrRefresh checkout (Scheduler.first _) (Scheduler.first _) (pairTree false)
      (Store.absent .ascii) 1 false).1.isSome := by decide +kernel
  obtain ⟨r, hr⟩ := Option.isSome_iff_exists.mp hsome
  exact ⟨r, _, Prod.ext hr rfl, openOrRefresh_durable_iff (Prod.ext hr rfl)⟩

/-- After `b.py` is deleted a refresh returns `a.py` only, and leaves both stored. -/
theorem deletion_is_not_stored :
    ¬ ∀ r store', openOrRefresh checkout (Scheduler.first _) (Scheduler.first _) (pairTree true)
      pairStore 1 false = (some r, store') → Durable r store' := by
  intro h
  have heval : (openOrRefresh checkout (Scheduler.first _) (Scheduler.first _) (pairTree true)
        pairStore 1 false).1.map (·.index.files) = some {GoString.lit "a.py"} ∧
      (loadGob .ascii (openOrRefresh checkout (Scheduler.first _) (Scheduler.first _) (pairTree true)
        pairStore 1 false).2.gob).map (·.1.files) = some {GoString.lit "a.py", GoString.lit "b.py"} := by
    decide +kernel
  obtain ⟨r, hr, hfiles⟩ := Option.map_eq_some_iff.mp heval.1
  obtain ⟨idx, meta₁, hl, hsame⟩ := h r _ (Prod.ext hr rfl)
  have hstored := heval.2
  rw [hl, Option.map_some, hsame.files, hfiles] at hstored
  exact absurd hstored (by decide)

end CodeMemory.Crawl
