import CodeMemory.Crawl.Durability
import CodeMemory.Crawl.History

/-! When a census of the tree finds every stamp unchanged, the stored index is
served as it is. The census skips directories by name that the crawl enters, and
takes entries the crawl does not, so that the crawl may still disagree. -/

namespace CodeMemory.Crawl

open Lib Lib.GoMap Lib.Path List

variable {tc : Toolchain} {prev : Index} {c₀ : Corpus} {s : GoString × Entry} {ign : GoString → Bool → Bool}
  {T : Tree}

def Sized (c : Corpus) : Prop := ∀ k d, c k = some d → d.stamp.size ≤ maxIndexableFileBytes

theorem size_le_of_indexable {info : StatInfo} (h : indexableFile info = true) :
    info.stamp.size ≤ maxIndexableFileBytes := by
  simp only [indexableFile, Bool.and_eq_true, decide_eq_true_eq] at h
  exact h.2

theorem sized_workItems (h₀ : Holds tc prev.toTables c₀) (T : Tree) (ign : GoString → Bool → Bool) :
    Sized (listCorpus WorkItem.rel (itemDoc c₀) (workItems tc prev (T.sources tc ign))) := by
  intro k d hk
  obtain ⟨it, hit, hd⟩ := Option.bind_eq_some_iff.mp hk
  obtain ⟨s, hs, hi⟩ := mem_filterMap.mp (mem_of_find?_eq_some hit)
  obtain ⟨-, hst, body, hd', -⟩ := deltaItem_doc h₀ (T.indexable_of_mem_sources hs) hi
  obtain rfl : _ = d := Option.some.inj (hd'.symm.trans hd)
  rw [hst]
  exact size_le_of_indexable (T.indexable_of_mem_sources hs)

/-- An index from a chain of crawls represents a corpus of indexable files. -/
theorem CrawlHistory.represents_sized {history : List Tree} {idx : Index}
    (h : CrawlHistory tc history idx) : ∃ c, Represents tc idx.toTables c ∧ Sized c := by
  induction h with
  | @full sched T workers idx st h =>
    obtain ⟨m, -, hr⟩ := crawled_crawlDir h
    refine ⟨_, hr.toRepresents, fun k d hk => ?_⟩
    obtain ⟨s, hs, -, hd⟩ := exists_source_of_sourceCorpus hk
    have hidx := T.indexable_of_mem_sources (take_subset _ _ hs)
    rw [Entry.doc_of_indexable hidx] at hd
    obtain ⟨raw, -, rfl⟩ := Option.map_eq_some_iff.mp hd
    exact size_le_of_indexable hidx
  | @delta history prev sched T workers hashes idx st hs _ hhashes h ih =>
    obtain ⟨c₀, h₀, -⟩ := ih
    have hnone : crawlDeltaFrom tc sched T workers none (some prev) = some (idx, st, hs) := by
      rcases hhashes with rfl | rfl <;> exact h
    obtain ⟨m, n, -, hn, rfl, -⟩ := crawlDeltaFrom_some hnone
    exact ⟨_, represents_deltaIndex hn h₀.toHolds (compared_workItems h₀.toHolds T m.ignored),
      sized_workItems h₀.toHolds T m.ignored⟩

theorem Listing.reach_skip_iff {skip : GoString → Bool} {pre q : Rel} :
    Reach ign skip pre q ↔ Reach ign (fun _ => false) pre q ∧ ∀ d ∈ q.dropLast, skip d = false := by
  induction q generalizing pre with
  | nil => simp [Reach]
  | cons c cs ih =>
    cases cs with
    | nil => simp [Reach]
    | cons c' cs =>
      rw [Reach, Reach, ih, dropLast_cons_cons, forall_mem_cons]
      tauto

theorem Tree.mem_census : s ∈ T.census tc ign ↔ T.rootName ∉ skipDir ∧ tc.extOK s.1 = true ∧ ∃ p, s.1 = join p ∧
      T.listing.lookup p = some (.file s.2) ∧ Listing.Reach ign (fun _ => false) [] p ∧
      ∀ d ∈ p.dropLast, d ∉ skipDir := by
  obtain ⟨k, e⟩ := s
  rw [Tree.census]
  split_ifs with hroot
  · simp [hroot]
  · rw [mem_filter, Tree.mem_walk]
    constructor
    · rintro ⟨⟨p, hk, hl, hr⟩, he⟩
      obtain ⟨hr, hd⟩ := Listing.reach_skip_iff.mp hr
      exact ⟨hroot, he, p, hk, hl, hr, fun d hm => of_decide_eq_false (hd d hm)⟩
    · rintro ⟨-, he, p, hk, hl, hr, hd⟩
      exact ⟨⟨p, hk, hl, Listing.reach_skip_iff.mpr ⟨hr, fun d hm => decide_eq_false (hd d hm)⟩⟩, he⟩

theorem Tree.mem_sources_iff :
    s ∈ T.sources tc ign ↔ indexableFile s.2.lstat = true ∧ tc.extOK s.1 = true ∧ ∃ p, s.1 = join p ∧
      T.listing.lookup p = some (.file s.2) ∧ Listing.Reach ign (fun _ => false) [] p := by
  obtain ⟨k, e⟩ := s
  simp only [Tree.sources, mem_filter, Tree.mem_walk, Bool.and_eq_true]
  tauto

/-- A path is that of one entry. -/
theorem Tree.path_unique {p q : Rel} {e e' : Entry} (hp : T.listing.lookup p = some (.file e))
    (hq : T.listing.lookup q = some (.file e')) (h : join p = join q) : p = q ∧ e = e' := by
  obtain rfl := join_injective (Listing.ne_nil_of_lookup hp) (Listing.ne_nil_of_lookup hq)
    (Listing.valid_of_lookup T.wf hp) (Listing.valid_of_lookup T.wf hq) h
  rw [hp] at hq
  exact ⟨rfl, by simpa using hq⟩

theorem Tree.census_keys_nodup (T : Tree) (ign : GoString → Bool → Bool) :
    ((T.census tc ign).map Prod.fst).Nodup := by
  rw [Tree.census]
  split_ifs
  · exact nodup_nil
  · exact List.Nodup.sublist (filter_sublist.map _) (T.walk_keys_nodup ign _)

theorem lookup_liveStamps {entries : List (GoString × Entry)} (hn : (entries.map Prod.fst).Nodup)
    {k : GoString} {st : FileStamp} :
    (liveStamps entries).lookup k = some st ↔ ∃ s ∈ entries, s.1 = k ∧ s.2.lstat.stamp = st := by
  have h : (liveStamps entries).lookup k =
      ((entries.find? (fun s => s.1 = k)).map (fun s => s.2.lstat.stamp)).or none :=
    lookup_foldl_insert hn ∅ k
  rw [h, Option.or_none]
  constructor
  · intro hs
    obtain ⟨s, hf, rfl⟩ := Option.map_eq_some_iff.mp hs
    exact ⟨s, mem_of_find?_eq_some hf, by simpa using List.find?_some hf, rfl⟩
  · rintro ⟨s, hs, rfl, rfl⟩
    rw [find?_key_eq_some hn hs]
    rfl

/-- The stamps of the index are those of the census, and there are some. -/
structure Warm (tc : Toolchain) (T : Tree) (prev : Index) (m : Ignore.Matcher) : Prop where
  ignores : T.ignores tc = some m
  nonempty : prev.fileStamps ≠ ∅
  stamp : ∀ k old, prev.fileStamps.lookup k = some old →
    ∃ s ∈ T.census tc m.ignored, s.1 = k ∧ stampEqual old s.2.lstat.stamp = true
  key : ∀ s ∈ T.census tc m.ignored, s.1 ∈ prev.fileStamps.keys

theorem warm_of_stAllStampsMatch (h : stAllStampsMatch tc T prev = true) : ∃ m, Warm tc T prev m := by
  rw [stAllStampsMatch] at h
  split_ifs at h with hne
  split at h
  · cases h
  · rename_i m hm
    dsimp only at h
    split_ifs at h with hcard
    have hn : ((T.census tc m.ignored).map Prod.fst).Nodup := T.census_keys_nodup m.ignored
    have hstamp : ∀ k old, prev.fileStamps.lookup k = some old →
        ∃ s ∈ T.census tc m.ignored, s.1 = k ∧ stampEqual old s.2.lstat.stamp = true := by
      intro k old hk
      have := of_decide_eq_true h k (mem_keys_iff.mpr ⟨old, hk⟩)
      rw [hk, Option.any_some, Option.any_eq_true] at this
      obtain ⟨st, hl, he⟩ := this
      obtain ⟨s, hs, hk', rfl⟩ := (lookup_liveStamps hn).mp hl
      exact ⟨s, hs, hk', he⟩
    refine ⟨m, hm, hne, hstamp, fun s hs => ?_⟩
    have hsub : prev.fileStamps.keys ⊆ (liveStamps (T.census tc m.ignored)).keys := by
      intro k hk
      obtain ⟨old, hold⟩ := mem_keys_iff.mp hk
      obtain ⟨s, hs, rfl, -⟩ := hstamp k old hold
      exact mem_keys_iff.mpr ⟨_, (lookup_liveStamps hn).mpr ⟨s, hs, rfl, rfl⟩⟩
    rw [Finset.eq_of_subset_of_card_le hsub (le_of_eq (not_not.mp hcard))]
    exact mem_keys_iff.mpr ⟨_, (lookup_liveStamps hn).mpr ⟨s, hs, rfl, rfl⟩⟩

/-- The files of an incremental crawl. -/
theorem mem_files_deltaIndex {sched : Scheduler WorkItem} {n : Nat} (hn : 0 < n)
    (h₀ : Holds tc prev.toTables c₀) (T : Tree) (ign : GoString → Bool → Bool) (k : GoString) :
    k ∈ (deltaIndex tc sched n (some prev) (workItems tc prev (T.sources tc ign))).files ↔
      ∃ s ∈ T.sources tc ign, s.1 = k ∧ (Reusable tc prev s ∨ s.2.read ≠ none) := by
  have hsrc : ∀ s ∈ T.sources tc ign, indexableFile s.2.lstat = true := fun s => T.indexable_of_mem_sources
  have hc := compared_workItems h₀ T ign
  rw [(represents_deltaIndex hn h₀ hc).files, Option.isSome_iff_exists]
  constructor
  · rintro ⟨d, hd⟩
    obtain ⟨it, hit, rfl⟩ := hc.complete k d hd
    obtain ⟨s, hs, hi⟩ := mem_filterMap.mp hit
    refine ⟨s, hs, (deltaItem_doc h₀ (hsrc s hs) hi).1.symm, ?_⟩
    rcases deltaItem_cases prev (hsrc s hs) with ⟨hu, -⟩ | ⟨-, -, h'⟩ | ⟨-, hr, -⟩
    · exact .inl hu
    · rw [hi] at h'
      cases h'
    · exact .inr hr
  · rintro ⟨s, hs, rfl, hu⟩
    rcases deltaItem_cases prev (hsrc s hs) with ⟨-, it, hi, hk, -⟩ | ⟨hn, hr, -⟩ | ⟨-, -, it, hi, hk, -⟩
    · obtain ⟨body, hb, -⟩ := hc.doc it (mem_filterMap.mpr ⟨s, hs, hi⟩)
      exact ⟨_, hk ▸ hb⟩
    · exact absurd hu (not_or.mpr ⟨hn, not_not.mpr hr⟩)
    · obtain ⟨body, hb, -⟩ := hc.doc it (mem_filterMap.mpr ⟨s, hs, hi⟩)
      exact ⟨_, hk ▸ hb⟩

namespace Warm

variable {m : Ignore.Matcher}

theorem exists_census (hw : Warm tc T prev m) : ∃ s, s ∈ T.census tc m.ignored := by
  by_contra hno
  push Not at hno
  refine hw.nonempty (Finmap.ext_lookup (fun k => Option.eq_none_iff_forall_ne_some.mpr (fun old hk => ?_)))
  obtain ⟨s, hs, -⟩ := hw.stamp k old hk
  exact hno s hs

/-- The files of the index are the entries of the census. -/
theorem mem_files_iff (hw : Warm tc T prev m) (h₀ : Holds tc prev.toTables c₀) (k : GoString) :
    k ∈ prev.files ↔ ∃ s ∈ T.census tc m.ignored, s.1 = k := by
  have hkeys : k ∈ prev.files ↔ k ∈ prev.fileStamps.keys := by
    rw [h₀.files, mem_keys_iff, h₀.fileStamps]
    cases c₀ k <;> simp
  rw [hkeys]
  constructor
  · intro hk
    obtain ⟨old, hold⟩ := mem_keys_iff.mp hk
    obtain ⟨s, hs, rfl, -⟩ := hw.stamp k old hold
    exact ⟨s, hs, rfl⟩
  · rintro ⟨s, hs, rfl⟩
    exact hw.key s hs

theorem census_unique {s' : GoString × Entry} {ign : GoString → Bool → Bool} (hs : s ∈ T.census tc ign)
    (hs' : s' ∈ T.census tc ign) (h : s.1 = s'.1) : s = s' := by
  obtain ⟨-, -, p, hk, hl, -⟩ := Tree.mem_census.mp hs
  obtain ⟨-, -, p', hk', hl', -⟩ := Tree.mem_census.mp hs'
  exact Prod.ext h (T.path_unique hl hl' (by rw [← hk, ← hk', h])).2

/-- An entry of the census is unchanged by its stamp. -/
theorem reusable (hw : Warm tc T prev m) (h₀ : Holds tc prev.toTables c₀)
    (hs : s ∈ T.census tc m.ignored) : Reusable tc prev s := by
  obtain ⟨old, hold⟩ := mem_keys_iff.mp (hw.key s hs)
  obtain ⟨s', hs', hk, he⟩ := hw.stamp s.1 old hold
  obtain rfl := census_unique hs' hs hk
  refine ⟨?_, .inl ⟨old, hold, he⟩⟩
  rw [h₀.fileStamps] at hold
  obtain ⟨d, hd, -⟩ := Option.map_eq_some_iff.mp hold
  rw [mem_keys_filePostings h₀, hd]
  rfl

/-- A regular entry of the census is a source file. -/
theorem mem_sources (hw : Warm tc T prev m) (h₀ : Holds tc prev.toTables c₀) (hsize : Sized c₀)
    (hs : s ∈ T.census tc m.ignored) (hreg : s.2.lstat.regular = true) :
    s ∈ T.sources tc m.ignored := by
  obtain ⟨-, hext, p, hk, hl, hr, -⟩ := Tree.mem_census.mp hs
  refine Tree.mem_sources_iff.mpr ⟨?_, hext, p, hk, hl, hr⟩
  obtain ⟨old, hold⟩ := mem_keys_iff.mp (hw.key s hs)
  obtain ⟨s', hs', hk', he⟩ := hw.stamp s.1 old hold
  obtain rfl := census_unique hs' hs hk'
  rw [h₀.fileStamps] at hold
  obtain ⟨d, hd, rfl⟩ := Option.map_eq_some_iff.mp hold
  have hle := hsize _ d hd
  rw [(stampEqual_iff.mp he).1] at hle
  simp [indexableFile, hreg, hle]

end Warm

/-- No file of the index has become a link or another irregular entry, and no
source file that can be read lies below a directory whose name the census skips. -/
structure CensusComplete (tc : Toolchain) (T : Tree) (prev : Index) (m : Ignore.Matcher) : Prop where
  regular : ∀ p e, join p ∈ prev.files → T.listing.lookup p = some (.file e) → e.lstat.regular = true
  entered : ∀ p e, T.listing.lookup p = some (.file e) → (join p, e) ∈ T.sources tc m.ignored →
    e.read ≠ none → ∀ d ∈ p.dropLast, d ∉ skipDir

def Tables.indexed (t : Tables) : Finset GoString × GoMap GoString (GoMap GoString Nat) ×
    GoMap GoString (List GoString) × GoMap GoString (List GoString) × GoMap GoString (List GoString) ×
    GoMap GoString GoString :=
  (t.files, t.filePostings, t.fileDefs, t.fileRefs, t.fileImps, t.fileHashes)

theorem SameStored.indexed {a b : Tables} (h : SameStored a b) : a.indexed = b.indexed := by
  rw [Tables.indexed, Tables.indexed, h.files, h.filePostings, h.fileDefs, h.fileRefs, h.fileImps,
    h.fileHashes]

theorem Warm.sameStored {m : Ignore.Matcher}
    (hw : Warm tc T prev m) (h₀ : Holds tc prev.toTables c₀) (hsize : Sized c₀)
    (hc : CensusComplete tc T prev m) (sched : Scheduler WorkItem) (n : Nat) :
    SameStored prev.toTables
      (deltaIndex tc sched n (some prev) (workItems tc prev (T.sources tc m.ignored))).toTables := by
  have hkeys : FilesKeys prev.toTables :=
    Finset.ext (fun k => by rw [h₀.files, mem_keys_filePostings h₀])
  -- every file of the index is a source file, and its stamp is unchanged
  have hlive : ∀ k ∈ prev.files, ∃ s ∈ T.sources tc m.ignored, Reusable tc prev s ∧ s.1 = k := by
    intro k hk
    obtain ⟨s, hs, rfl⟩ := (hw.mem_files_iff h₀ k).mp hk
    obtain ⟨-, -, p, hp, hl, -⟩ := Tree.mem_census.mp hs
    exact ⟨s, hw.mem_sources h₀ hsize hs (hc.regular p s.2 (hp ▸ hk) hl), hw.reusable h₀ hs, rfl⟩
  refine (sameStored_deltaIndex_iff (fun s => T.indexable_of_mem_sources) hkeys ?_ (fun s hs => ?_)).mpr ?_
  · obtain ⟨s, hs⟩ := hw.exists_census
    obtain ⟨s', hs', hu, -⟩ := hlive s.1 ((hw.mem_files_iff h₀ s.1).mpr ⟨s, hs, rfl⟩)
    exact ⟨s', hs', hu⟩
  · by_cases hr : s.2.read = none
    · exact .inr hr
    · obtain ⟨p, hp, hl⟩ := T.mem_sources hs
      obtain ⟨-, hext, p', hp', hl', hreach⟩ := Tree.mem_sources_iff.mp hs
      obtain ⟨rfl, -⟩ := T.path_unique hl hl' (hp ▸ hp')
      obtain ⟨s₁, hs₁⟩ := hw.exists_census
      have hin : s ∈ T.census tc m.ignored := Tree.mem_census.mpr ⟨(Tree.mem_census.mp hs₁).1, hext, p, hp, hl, hreach,
        hc.entered p s.2 hl (by rw [← hp]; exact hs) hr⟩
      exact .inl (hw.reusable h₀ hin)
  · rintro ⟨k, hk, hgone⟩
    obtain ⟨s, hs, hu, rfl⟩ := hlive k (hkeys ▸ hk)
    exact hgone s hs hu rfl

/-- Behind a warm census an incremental crawl would change nothing, exactly if the
census was complete. -/
theorem warm_census_agrees_iff {history : List Tree} {prev : Index} (hprev : CrawlHistory tc history prev)
    {T : Tree} (hwarm : stAllStampsMatch tc T prev = true) (sched : Scheduler WorkItem) (workers : Int) :
    (crawlDeltaFrom tc sched T workers none (some prev)).map (fun r => r.1.toTables.indexed) =
        some prev.toTables.indexed ↔
      ∀ m, T.ignores tc = some m → CensusComplete tc T prev m := by
  obtain ⟨c₀, hr, hsize⟩ := hprev.represents_sized
  have h₀ := hr.toHolds
  obtain ⟨m, hw⟩ := warm_of_stAllStampsMatch hwarm
  obtain ⟨n, hn, hdelta⟩ : ∃ n, 0 < n ∧ (crawlDeltaFrom tc sched T workers none (some prev)).map
      (fun r => r.1.toTables.indexed) = some (deltaIndex tc sched n (some prev)
        (workItems tc prev (T.sources tc m.ignored))).toTables.indexed := by
    simp only [crawlDeltaFrom, hw.ignores]
    exact ⟨_, by split_ifs <;> omega, rfl⟩
  have hall : (∀ m, T.ignores tc = some m → CensusComplete tc T prev m) ↔ CensusComplete tc T prev m := by
    simp [hw.ignores]
  rw [hdelta, hall, Option.some.injEq]
  constructor
  · intro h
    have hfiles : ∀ k, k ∈ prev.files ↔ ∃ s ∈ T.sources tc m.ignored, s.1 = k ∧
        (Reusable tc prev s ∨ s.2.read ≠ none) := by
      intro k
      rw [← mem_files_deltaIndex hn h₀ T m.ignored k]
      exact (congrArg (fun t => k ∈ t.1) h).symm.to_iff
    refine ⟨fun p e hk hl => ?_, fun p e hl hs hread d hd => ?_⟩
    · obtain ⟨s, hs, hk', -⟩ := (hfiles _).mp hk
      obtain ⟨p', hp', hl'⟩ := T.mem_sources hs
      obtain ⟨-, rfl⟩ := T.path_unique hl hl' (hk' ▸ hp')
      have := T.indexable_of_mem_sources hs
      simp only [indexableFile, Bool.and_eq_true] at this
      exact this.1
    · have hk := (hfiles (join p)).mpr ⟨_, hs, rfl, .inr hread⟩
      obtain ⟨s, hs', hk'⟩ := (hw.mem_files_iff h₀ _).mp hk
      obtain ⟨-, -, p', hp', hl', -, hskip⟩ := Tree.mem_census.mp hs'
      obtain ⟨rfl, -⟩ := T.path_unique hl hl' (hk' ▸ hp')
      exact hskip d hd
  · exact fun hc => (hw.sameStored h₀ hsize hc sched n).indexed.symm

theorem warm_census_agrees_unchanged :
    ∃ prev, CrawlHistory .ascii [pyTree ⟨9, 1⟩ (GoString.lit "class Foo")] prev ∧
      stAllStampsMatch .ascii (pyTree ⟨9, 1⟩ (GoString.lit "class Foo")) prev = true ∧
      ((crawlDeltaFrom .ascii (Scheduler.first _) (pyTree ⟨9, 1⟩ (GoString.lit "class Foo")) 1 none
          (some prev)).map (fun r => r.1.toTables.indexed) = some prev.toTables.indexed ↔
        ∀ m, (pyTree ⟨9, 1⟩ (GoString.lit "class Foo")).ignores .ascii = some m →
          CensusComplete .ascii (pyTree ⟨9, 1⟩ (GoString.lit "class Foo")) prev m) := by
  have heval : (crawlDir .ascii (Scheduler.first _) (pyTree ⟨9, 1⟩ (GoString.lit "class Foo")) 1).map
      (fun r => stAllStampsMatch .ascii (pyTree ⟨9, 1⟩ (GoString.lit "class Foo")) r.1) = some true := by
    decide +kernel
  obtain ⟨⟨prev, st⟩, hprev, hwarm⟩ := Option.map_eq_some_iff.mp heval
  exact ⟨prev, .full hprev, hwarm, warm_census_agrees_iff (.full hprev) hwarm _ _⟩

/-- A repository whose policy re-includes `dist/`, with `a.py` and perhaps `dist/b.py`. -/
def distTree (built : Bool) : Tree where
  rootName := GoString.lit "repo"
  listing := .file (GoString.lit "a.py") (.regular ⟨9, 1⟩ (some (GoString.lit "class Foo")))
    (bif built then .dir (GoString.lit "dist")
        (.file (GoString.lit "b.py") (.regular ⟨9, 2⟩ (some (GoString.lit "class Bar"))) .nil) .nil
      else .nil)
  wf := by cases built <;> decide
  ignoreFiles := ⟨.content (GoString.lit "!dist/"), .absent, .absent⟩
  outside _ := none

/-- The census does not see `dist/b.py`; the crawl indexes it. -/
theorem source_in_skipped_directory :
    ∃ prev, CrawlHistory .ascii [distTree false] prev ∧
      stAllStampsMatch .ascii (distTree true) prev = true ∧
      (crawlDeltaFrom .ascii (Scheduler.first _) (distTree true) 1 none (some prev)).map
        (fun r => r.1.toTables.indexed) ≠ some prev.toTables.indexed := by
  have heval : (crawlDir .ascii (Scheduler.first _) (distTree false) 1).map (fun r =>
      (stAllStampsMatch .ascii (distTree true) r.1, r.1.files,
        (crawlDeltaFrom .ascii (Scheduler.first _) (distTree true) 1 none (some r.1)).map (·.1.files))) =
      some (true, {GoString.lit "a.py"}, some {GoString.lit "a.py", GoString.lit "dist/b.py"}) := by
    decide +kernel
  obtain ⟨⟨prev, st⟩, hprev, hvals⟩ := Option.map_eq_some_iff.mp heval
  obtain ⟨hwarm, hfiles, hdelta⟩ : stAllStampsMatch .ascii (distTree true) prev = true ∧
      prev.files = {GoString.lit "a.py"} ∧
      (crawlDeltaFrom .ascii (Scheduler.first _) (distTree true) 1 none (some prev)).map (·.1.files) =
        some {GoString.lit "a.py", GoString.lit "dist/b.py"} := by simpa using hvals
  refine ⟨prev, .full hprev, hwarm, fun h => ?_⟩
  have hsame := congrArg (Option.map Prod.fst) h
  have hset : some {GoString.lit "a.py", GoString.lit "dist/b.py"} = some prev.files := hdelta.symm.trans hsame
  rw [hfiles] at hset
  exact absurd hset (by decide)

end CodeMemory.Crawl
