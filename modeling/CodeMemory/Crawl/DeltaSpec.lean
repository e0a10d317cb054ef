import CodeMemory.Crawl.Delta

/-! The incremental crawl represents the corpus of the tree, like the full crawl.
`Compared` says what the comparison with the previous index has established for
each work item; both ways of assembling the new index start from it. -/

namespace CodeMemory.Crawl

open Lib Lib.GoMap List

variable {tc : Toolchain} {V : Type} {m : GoMap GoString V} {k rel : GoString} {t : Tables} {d : Doc} {dst : Index}
  {sched : Scheduler WorkItem} {items : List WorkItem} {c c' c₀ : Corpus} {prev : Index} {s : GoString × Entry}
  {ign : GoString → Bool → Bool} {T : Tree}

theorem lookup_putStamps (hn : (items.map WorkItem.rel).Nodup) (m : GoMap GoString FileStamp) (k : GoString) :
    (putStamps m items).lookup k =
      ((items.find? (fun it => it.rel = k)).map WorkItem.stamp).or (m.lookup k) :=
  lookup_foldl_insert hn m k

theorem insert_eq_self {v : V} (h : m.lookup k = some v) : m.insert k v = m := by
  refine Finmap.ext_lookup (fun j => ?_)
  rw [lookup_insert_eq]
  split_ifs with hj
  · rw [hj, h]
  · rfl

/-- Writing hashes that are already there changes nothing. -/
theorem putHashes_eq_self {p : GoMap GoString GoString → WorkItem → Bool} {m : GoMap GoString GoString}
    (h : ∀ it ∈ items, p m it = true → m.lookup it.rel = some it.hash) : putHashes p m items = m := by
  induction items with
  | nil => rfl
  | cons it items ih =>
    have hstep : (if p m it then m.insert it.rel it.hash else m) = m := by
      split_ifs with hp
      · exact insert_eq_self (h it (by simp) hp)
      · rfl
    have hcons : putHashes p m (it :: items) =
        putHashes p (if p m it then m.insert it.rel it.hash else m) items := rfl
    rw [hcons, hstep, ih (fun x hx => h x (by simp [hx]))]

/-- The same contents under new stamps. -/
theorem Holds.restamp {c' : Corpus} (h : Holds tc t c)
    (hb : ∀ k, (c' k).map Doc.body = (c k).map Doc.body) {st : GoMap GoString FileStamp}
    (hst : ∀ k, st.lookup k = (c' k).map Doc.stamp) : Holds tc { t with fileStamps := st } c' := by
  have hcol : ∀ {V : Type} {m : GoMap GoString V} {f : GoString → Doc → Option V},
      (∀ k d d', d.body = d'.body → f k d = f k d') → Column m c f → Column m c' f := by
    intro V m f hf hm k
    have hk := hb k
    rw [hm]
    cases hc : c k <;> cases hc' : c' k <;> simp_all
    exact hf k _ _ hk.symm
  obtain ⟨hf, hp, hd, hr, hm, he, hh, -⟩ := holds_iff.mp h
  refine holds_iff.mpr ⟨fun k => ?_, hcol ?_ hp, hcol ?_ hd, hcol ?_ hr, hcol ?_ hm, hcol ?_ he, hcol ?_ hh,
    fun k => (hst k).trans (by cases c' k <;> rfl)⟩
  · have := congrArg Option.isSome (hb k)
    simp only [Option.isSome_map] at this
    rw [hf, this]
  all_goals exact fun k d d' hdd => by rw [hdd]

theorem mem_keys_filePostings (h : Holds tc t c) (k : GoString) : k ∈ t.filePostings.keys ↔ (c k).isSome := by
  rw [mem_keys_iff, h.filePostings]
  cases c k <;> simp

/-- A rebuild completes tables that hold a corpus. -/
theorem Holds.rebuild (idx : Index) (h : Holds tc idx.toTables c) :
    Represents tc (rebuildGlobalFromFiles tc idx).toTables c where
  files k := by
    simp only [rebuildGlobalFromFiles, Finset.mem_union, h.files, mem_keys_filePostings h, or_self]
  filePostings := h.filePostings
  fileDefs := h.fileDefs
  fileRefs := h.fileRefs
  fileImps := h.fileImps
  fileEdges := h.fileEdges
  fileHashes := h.fileHashes
  fileStamps := h.fileStamps
  inverted := rfl

/-- The items cover the corpus `c` of the tree, and an item that is reused has the
contents it has in the corpus `c₀` of the previous index. -/
structure Compared (tc : Toolchain) (c₀ c : Corpus) (items : List WorkItem) : Prop where
  nodup : (items.map WorkItem.rel).Nodup
  rel_ne : ∀ it ∈ items, it.rel ≠ []
  doc : ∀ it ∈ items, ∃ body, c it.rel = some ⟨body, it.stamp⟩ ∧ it.hash = tc.fileHash body ∧
    (it.reuse = true → (c₀ it.rel).map Doc.body = some body) ∧ (it.reuse = false → it.raw = body)
  complete : ∀ k d, c k = some d → ∃ it ∈ items, it.rel = k

namespace Compared

theorem eq_none (h : Compared tc c₀ c items) {k : GoString} (hk : k ∉ items.map WorkItem.rel) :
    c k = none := by
  cases hc : c k with
  | none => rfl
  | some d =>
    obtain ⟨it, hit, rfl⟩ := h.complete k d hc
    exact absurd (mem_map.mpr ⟨it, hit, rfl⟩) hk

theorem stamps (h : Compared tc c₀ c items) (k : GoString) :
    (items.find? (fun it => it.rel = k)).map WorkItem.stamp = (c k).map Doc.stamp := by
  by_cases hk : k ∈ items.map WorkItem.rel
  · obtain ⟨it, hit, rfl⟩ := mem_map.mp hk
    obtain ⟨body, hc, -⟩ := h.doc it hit
    rw [find?_key_eq_some h.nodup hit, hc]
    rfl
  · rw [find?_key_eq_none hk, h.eq_none hk]
    rfl

end Compared

theorem Holds.prune (idx : Index) (h : Holds tc idx.toTables c) (live : Finset GoString) :
    Holds tc (pruneDeleted idx live).toTables (fun k => if k ∈ live then c k else none) := by
  have hkeep : ∀ k, (k ∉ idx.files ∨ k ∈ live) ↔ (k ∈ live ∨ c k = none) := by
    intro k
    rw [h.files]
    cases c k <;> simp
  have hcol : ∀ {V : Type} {m : GoMap GoString V} {f : GoString → Doc → Option V}, Column m c f →
      Column (m.filterKeys (fun path => decide (path ∉ idx.files ∨ path ∈ live)))
        (fun k => if k ∈ live then c k else none) f := by
    intro V m f hm k
    rw [lookup_filterKeys, hm]
    simp only [decide_eq_true_eq, hkeep]
    by_cases hl : k ∈ live
    · simp [hl]
    · cases hc : c k <;> simp [hl]
  obtain ⟨hf, hp, hd, hr, hm, he, hh, hs⟩ := holds_iff.mp h
  refine holds_iff.mpr ⟨fun k => ?_, hcol hp, hcol hd, hcol hr, hcol hm, hcol he, hcol hh, hcol hs⟩
  simp only [pruneDeleted, Finset.mem_filter, hf]
  split_ifs with hl <;> simp [hl]

theorem Holds.clone (h : Holds tc prev.toTables c) : Holds tc (cloneIndexShallow prev).toTables c where
  files k := mem_keys_filePostings h k
  filePostings := h.filePostings
  fileDefs := h.fileDefs
  fileRefs := h.fileRefs
  fileImps := h.fileImps
  fileEdges := h.fileEdges
  fileHashes := h.fileHashes
  fileStamps := h.fileStamps

theorem represents_reuseAll (h : Holds tc prev.toTables c₀) (hc : Compared tc c₀ c items)
    (hall : ∀ it ∈ items, it.reuse = true) : Represents tc (reuseAll tc prev items).toTables c := by
  -- the previous corpus with the new stamps, before and after pruning
  have hbody : ∀ it ∈ items, ∃ body, c it.rel = some ⟨body, it.stamp⟩ ∧
      it.hash = tc.fileHash body ∧ (c₀ it.rel).map Doc.body = some body := by
    intro it hit
    obtain ⟨body, h1, h2, h3, -⟩ := hc.doc it hit
    exact ⟨body, h1, h2, h3 (hall it hit)⟩
  have hhash : putHashes (fun _ it => it.hash ≠ []) prev.fileHashes items = prev.fileHashes := by
    refine putHashes_eq_self (fun it hit _ => ?_)
    obtain ⟨body, -, h2, h3⟩ := hbody it hit
    obtain ⟨d, hd, hdb⟩ := Option.map_eq_some_iff.mp h3
    rw [h.fileHashes, hd, h2, Option.map_some, hdb]
  have hclone : Holds tc { (cloneIndexShallow prev).toTables with
      fileStamps := putStamps prev.fileStamps items }
      (fun k => (c₀ k).map (fun d => ⟨d.body, ((c k).map Doc.stamp).getD d.stamp⟩)) := by
    refine h.clone.restamp (fun k => by simp [Function.comp_def]) (fun k => ?_)
    rw [lookup_putStamps hc.nodup, hc.stamps, h.fileStamps]
    by_cases hk : k ∈ items.map WorkItem.rel
    · obtain ⟨it, hit, rfl⟩ := mem_map.mp hk
      obtain ⟨body, h1, -, h3⟩ := hbody it hit
      obtain ⟨d, hd, -⟩ := Option.map_eq_some_iff.mp h3
      simp [h1, hd]
    · simp [hc.eq_none hk]
  have hprune := Holds.prune { cloneIndexShallow prev with
    fileStamps := putStamps prev.fileStamps items } hclone (items.map WorkItem.rel).toFinset
  have hcorpus : (fun k => if k ∈ (items.map WorkItem.rel).toFinset then
      (c₀ k).map (fun d => (⟨d.body, ((c k).map Doc.stamp).getD d.stamp⟩ : Doc)) else none) = c := by
    funext k
    split_ifs with hk
    · obtain ⟨it, hit, rfl⟩ := mem_map.mp (mem_toFinset.mp hk)
      obtain ⟨body, h1, -, h3⟩ := hbody it hit
      obtain ⟨d, hd, hdb⟩ := Option.map_eq_some_iff.mp h3
      simp [h1, hd, hdb]
    · exact (hc.eq_none (fun hm => hk (mem_toFinset.mpr hm))).symm
  rw [hcorpus] at hprune
  have hidx : reuseAll tc prev items = rebuildGlobalFromFiles tc (pruneDeleted
      { cloneIndexShallow prev with fileStamps := putStamps prev.fileStamps items }
      (items.map WorkItem.rel).toFinset) := by
    have hself : (cloneIndexShallow prev).fileHashes =
        putHashes (fun _ it => it.hash ≠ []) (cloneIndexShallow prev).fileHashes items := hhash.symm
    rw [reuseAll, ← hself]
    rfl
  rw [hidx]
  exact Holds.rebuild _ hprune

/-- The version a copied file has in the new index, before the final stamps. -/
def copiedDoc (c₀ : Corpus) (it : WorkItem) : Option Doc :=
  (c₀ it.rel).map (fun d => ⟨d.body, if 0 < it.stamp.size then it.stamp else d.stamp⟩)

theorem lookup_elim_insert (hm : m.lookup rel = none) (o : Option V) (k : GoString) :
    (o.elim m (m.insert rel)).lookup k = if k = rel then o else m.lookup k := by
  cases o with
  | none =>
    simp only [Option.elim_none]
    split_ifs with hk
    · rw [hk, hm]
    · rfl
  | some v => simp only [Option.elim_some, lookup_insert_eq]

theorem Column.copy {p : GoMap GoString V} {f : GoString → Doc → Option V}
    {d' : Doc} (h₀ : Column p c₀ f) (h : Column m c f) (hc : c rel = .none) (hd : c₀ rel = some d)
    (hf : f rel d = f rel d') : Column ((p.lookup rel).elim m (m.insert rel)) (c.put rel d') f := by
  refine h.put fun k => ?_
  rw [lookup_elim_insert (h.none hc), h₀, hd, Option.bind_some, hf]

theorem Holds.copyFileFrom (h₀ : Holds tc prev.toTables c₀)
    (h : Holds tc dst.toTables c) {hash : GoString} {stamp : FileStamp} (hrel : rel ≠ [])
    (hc : c rel = none) (hd : c₀ rel = some d) (hhash : hash = tc.fileHash d.body) :
    Holds tc (copyFileFrom prev dst rel hash stamp).toTables
      (c.put rel ⟨d.body, if 0 < stamp.size then stamp else d.stamp⟩) := by
  have hash_eq : (if hash ≠ [] then hash else (prev.fileHashes.lookup rel).getD []) = tc.fileHash d.body := by
    rw [h₀.fileHashes, hd, hhash]
    simp
  have stamp_eq : (if 0 < stamp.size then stamp else (prev.fileStamps.lookup rel).getD ⟨0, 0⟩) =
      if 0 < stamp.size then stamp else d.stamp := by
    rw [h₀.fileStamps, hd]
    rfl
  obtain ⟨-, hp₀, hd₀, hr₀, hm₀, he₀, -, -⟩ := holds_iff.mp h₀
  obtain ⟨hf, hp, hdef, hr, hm, he, hh, hs⟩ := holds_iff.mp h
  rw [Crawl.copyFileFrom, if_neg hrel, hash_eq, stamp_eq]
  refine holds_iff.mpr ⟨fun k => ?_, hp₀.copy hp hc hd rfl, hd₀.copy hdef hc hd rfl, hr₀.copy hr hc hd rfl,
    hm₀.copy hm hc hd rfl, he₀.copy he hc hd rfl, hh.put fun k => lookup_insert_eq _ _ k _,
    hs.put fun k => lookup_insert_eq _ _ k _⟩
  simp only [Finset.mem_insert, hf, Corpus.put]
  split_ifs with hk <;> simp [hk]

theorem holds_foldl_copyFileFrom (h₀ : Holds tc prev.toTables c₀) (h : Holds tc dst.toTables c)
    (hn : (items.map WorkItem.rel).Nodup) (hrel : ∀ it ∈ items, it.rel ≠ []) (hfresh : ∀ it ∈ items, c it.rel = none)
    (hd : ∀ it ∈ items, ∃ d, c₀ it.rel = some d ∧ it.hash = tc.fileHash d.body) :
    Holds tc (items.foldl (fun idx it => copyFileFrom prev idx it.rel it.hash it.stamp) dst).toTables
      ((listCorpus WorkItem.rel (copiedDoc c₀) items).overlay c) := by
  induction items generalizing dst c with
  | nil => exact h
  | cons it items ih =>
    rw [map_cons, nodup_cons] at hn
    obtain ⟨d, hd₀, hhash⟩ := hd it (by simp)
    have hcorpus : (listCorpus WorkItem.rel (copiedDoc c₀) (it :: items)).overlay c =
        (listCorpus WorkItem.rel (copiedDoc c₀) items).overlay
          (c.put it.rel ⟨d.body, if 0 < it.stamp.size then it.stamp else d.stamp⟩) := by
      funext k
      simp only [Corpus.overlay, Corpus.put, listCorpus_cons, copiedDoc]
      by_cases hk : it.rel = k
      · subst hk
        rw [listCorpus_eq_none hn.1]
        simp [hd₀]
      · rw [if_neg hk, if_neg (fun e => hk e.symm)]
    rw [foldl_cons, hcorpus]
    refine ih (h₀.copyFileFrom h (hrel it (by simp)) (hfresh it (by simp)) hd₀ hhash) hn.2
      (fun x hx => hrel x (by simp [hx])) (fun x hx => ?_) (fun x hx => hd x (by simp [hx]))
    have hne : x.rel ≠ it.rel := fun e => hn.1 (mem_map.mpr ⟨x, hx, e⟩)
    simp [Corpus.put, hne, hfresh x (by simp [hx])]

def changedCorpus (items : List WorkItem) : Corpus :=
  listCorpus (loadKey loadItem) (loadedDoc loadItem) (items.filter (fun it => !it.reuse))

def copiedCorpus (c₀ : Corpus) (items : List WorkItem) : Corpus :=
  listCorpus WorkItem.rel (copiedDoc c₀) (items.filter WorkItem.reuse)

namespace Compared

theorem nodup_filter (h : Compared tc c₀ c items) (p : WorkItem → Bool) :
    ((items.filter p).map WorkItem.rel).Nodup := h.nodup.sublist (filter_sublist.map _)

/-- An item is in at most one of the two lists. -/
theorem notMem_filter (h : Compared tc c₀ c items) {it : WorkItem} (hit : it ∈ items) {p : WorkItem → Bool}
    (hp : p it = false) : it.rel ∉ (items.filter p).map WorkItem.rel := by
  intro hm
  obtain ⟨x, hx, he⟩ := mem_map.mp hm
  obtain ⟨hx, hpx⟩ := mem_filter.mp hx
  have hsame := (find?_key_eq_some h.nodup hx).symm.trans (he ▸ find?_key_eq_some h.nodup hit)
  rw [Option.some.inj hsame, hp] at hpx
  cases hpx

theorem crawled_changed (h : Compared tc c₀ c items) (sched : Scheduler WorkItem) {workers : Nat} (hw : 0 < workers) :
    Crawled tc (mergeAll ((sched.deal workers (items.filter (fun it => !it.reuse))).map (runWorker tc loadItem)))
      (changedCorpus items) := by
  refine crawled_mergeAll sched hw (fun it hit y hy => ?_) (h.nodup_filter _)
  obtain ⟨hit, hr⟩ := mem_filter.mp hit
  obtain ⟨body, -, h2, -, h4⟩ := h.doc it hit
  cases hy
  rw [h2, h4 (by simpa using hr)]

theorem holds_copied (h : Compared tc c₀ c items) (h₀ : Holds tc prev.toTables c₀)
    (hdst : Holds tc dst.toTables (changedCorpus items)) :
    Holds tc ((items.filter WorkItem.reuse).foldl
        (fun idx it => copyFileFrom prev idx it.rel it.hash it.stamp) dst).toTables
      ((copiedCorpus c₀ items).overlay (changedCorpus items)) := by
  refine holds_foldl_copyFileFrom h₀ hdst (h.nodup_filter _) (fun it hit => h.rel_ne it (mem_filter.mp hit).1)
    (fun it hit => ?_) (fun it hit => ?_)
  all_goals obtain ⟨hit, hr⟩ := mem_filter.mp hit
  · exact listCorpus_eq_none (h.notMem_filter hit (by simpa using hr))
  · obtain ⟨body, -, h2, h3, -⟩ := h.doc it hit
    obtain ⟨d, hd, hb⟩ := Option.map_eq_some_iff.mp (h3 hr)
    exact ⟨d, hd, hb ▸ h2⟩

/-- Together the two lists have the contents of the tree. -/
theorem body_eq (h : Compared tc c₀ c items) (k : GoString) :
    (c k).map Doc.body = ((copiedCorpus c₀ items).overlay (changedCorpus items) k).map Doc.body := by
  unfold copiedCorpus changedCorpus Corpus.overlay
  by_cases hk : k ∈ items.map WorkItem.rel
  · obtain ⟨it, hit, rfl⟩ := mem_map.mp hk
    obtain ⟨body, h1, -, h3, h4⟩ := h.doc it hit
    rw [h1]
    cases hr : it.reuse with
    | true =>
      obtain ⟨d, hd, hb⟩ := Option.map_eq_some_iff.mp (h3 hr)
      rw [listCorpus_of_mem (h.nodup_filter _) (mem_filter.mpr ⟨hit, hr⟩), copiedDoc, hd]
      simp [hb]
    | false =>
      have hl : listCorpus (loadKey loadItem) (loadedDoc loadItem)
          (items.filter (fun it => !it.reuse)) it.rel = some ⟨it.raw, it.stamp⟩ :=
        listCorpus_of_mem (h.nodup_filter _) (mem_filter.mpr ⟨hit, by simp [hr]⟩)
      rw [listCorpus_eq_none (h.notMem_filter hit hr), hl, h4 hr]
      rfl
  · have hnot : ∀ p : WorkItem → Bool, k ∉ (items.filter p).map WorkItem.rel :=
      fun p hm => hk ((filter_sublist.map _).subset hm)
    have hnot' : k ∉ (items.filter (fun it => !it.reuse)).map (loadKey loadItem) := hnot _
    rw [h.eq_none hk, listCorpus_eq_none (hnot _), listCorpus_eq_none hnot']
    rfl

/-- The stamps that are put last make the tables those of the tree. -/
theorem holds_stamped (h : Compared tc c₀ c items) (hdst : Holds tc dst.toTables c')
    (hbody : ∀ k, (c k).map Doc.body = (c' k).map Doc.body) :
    Holds tc { dst.toTables with fileStamps := putStamps dst.fileStamps items } c := by
  refine hdst.restamp hbody (fun k => ?_)
  rw [lookup_putStamps h.nodup, h.stamps, hdst.fileStamps]
  cases hk : c k with
  | some d => rfl
  | none =>
    have hnone := hbody k
    rw [hk] at hnone
    rw [Option.map_eq_none_iff.mp hnone.symm]
    rfl

/-- No hash is missing that would have to be put. -/
theorem putHashes_eq (h : Compared tc c₀ c items) (hdst : Holds tc dst.toTables c')
    (hbody : ∀ k, (c k).map Doc.body = (c' k).map Doc.body) :
    putHashes (fun m it => (m.lookup it.rel).isNone) dst.fileHashes items = dst.fileHashes := by
  refine putHashes_eq_self fun it hit hp => ?_
  obtain ⟨body, h1, -⟩ := h.doc it hit
  have hsome := hbody it.rel
  rw [h1] at hsome
  obtain ⟨d, hd, -⟩ := Option.map_eq_some_iff.mp hsome.symm
  rw [hdst.fileHashes, hd] at hp
  cases hp

end Compared

theorem represents_indexChanged {workers : Nat} (hw : 0 < workers) (h₀ : Holds tc prev.toTables c₀)
    (hc : Compared tc c₀ c items) : Represents tc (indexChanged tc sched workers (some prev) items).toTables c := by
  have hcopy := hc.holds_copied h₀ (hc.crawled_changed sched hw).toHolds
  generalize hidx : (items.filter WorkItem.reuse).foldl
    (fun idx (it : WorkItem) => copyFileFrom prev idx it.rel it.hash it.stamp)
    (mergeAll ((sched.deal workers (items.filter (fun it => !it.reuse))).map (runWorker tc loadItem))) = idx
    at hcopy
  have hres : indexChanged tc sched workers (some prev) items = rebuildGlobalFromFiles tc
      { idx with fileStamps := putStamps idx.fileStamps items } := by
    simp only [indexChanged, hidx, hc.putHashes_eq hcopy hc.body_eq]
  rw [hres]
  exact Holds.rebuild { idx with fileStamps := putStamps idx.fileStamps items } (hc.holds_stamped hcopy hc.body_eq)

theorem represents_deltaIndex {n : Nat} (hn : 0 < n) (h₀ : Holds tc prev.toTables c₀)
    (hc : Compared tc c₀ c items) : Represents tc (deltaIndex tc sched n (some prev) items).toTables c := by
  rw [deltaIndex]
  split_ifs with hfast
  · refine represents_reuseAll h₀ hc (fun it hit => ?_)
    have := countP_eq_zero.mp (of_decide_eq_true hfast).1 it hit
    simpa using this
  · exact represents_indexChanged hn h₀ hc

/-- A stamp that the previous index has for a path vouches for the contents it has. -/
def HonestFor (c₀ : Corpus) (sources : List (GoString × Entry)) : Prop :=
  ∀ s ∈ sources, ∀ d₀ d, c₀ s.1 = some d₀ → s.2.doc = some d → stampEqual d₀.stamp d.stamp = true →
    d₀.body = d.body

def itemDoc (c₀ : Corpus) (it : WorkItem) : Option Doc :=
  if it.reuse then (c₀ it.rel).map (fun d => ⟨d.body, it.stamp⟩) else some ⟨it.raw, it.stamp⟩

theorem deltaItem_doc (h₀ : Holds tc prev.toTables c₀) (hs : indexableFile s.2.lstat = true) {it : WorkItem}
    (h : deltaItem tc (some prev.fileHashes) (some prev) s = some it) :
    it.rel = s.1 ∧ it.stamp = s.2.lstat.stamp ∧ ∃ body, itemDoc c₀ it = some ⟨body, it.stamp⟩ ∧
      it.hash = tc.fileHash body ∧ (it.reuse = true → (c₀ it.rel).map Doc.body = some body) ∧
      (it.reuse = false → it.raw = body) := by
  obtain ⟨k, e⟩ := s
  simp only [deltaItem, Entry.stat_of_indexable hs, h₀.fileStamps, h₀.filePostings, h₀.fileHashes] at h
  cases hc : c₀ k with
  | none =>
    simp only [hc, Option.map_none, Bool.false_and, Option.bind_some] at h
    cases hr : e.read with
    | none => simp [hr] at h
    | some raw =>
      simp only [hr, Bool.false_eq_true, if_false, Option.isSome_none, Bool.and_false,
        Option.some.injEq] at h
      subst h
      simp [itemDoc]
  | some d₀ =>
    simp only [hc, Option.map_some, Option.isSome_some, Bool.and_true, Option.bind_some] at h
    split_ifs at h with hst
    · cases h
      simp [itemDoc, hc, h₀.fileHashes]
    · cases hr : e.read with
      | none => simp [hr] at h
      | some raw =>
        simp only [hr, Option.some.injEq] at h
        subst h
        by_cases hh : tc.fileHash d₀.body = tc.fileHash raw
        · simp [itemDoc, hc, hh]
        · simp [itemDoc, hh]

/-- A readable file has an item, with the hash of its contents if its stamp is honest. -/
theorem deltaItem_hash (h₀ : Holds tc prev.toTables c₀) (hs : indexableFile s.2.lstat = true) (hd : s.2.doc = some d)
    (hhonest : ∀ d₀, c₀ s.1 = some d₀ → stampEqual d₀.stamp d.stamp = true → d₀.body = d.body) :
    ∃ it, deltaItem tc (some prev.fileHashes) (some prev) s = some it ∧ it.stamp = d.stamp ∧
      it.hash = tc.fileHash d.body := by
  obtain ⟨k, e⟩ := s
  rw [Entry.doc_of_indexable hs] at hd
  obtain ⟨raw, hr, rfl⟩ := Option.map_eq_some_iff.mp hd
  simp only [deltaItem, Entry.stat_of_indexable hs, hr, h₀.fileStamps, h₀.filePostings, h₀.fileHashes]
  cases hc : c₀ k with
  | none => simp
  | some d₀ =>
    simp only [Option.map_some, Option.isSome_some, Bool.and_true, Option.bind_some]
    by_cases hst : stampEqual d₀.stamp e.lstat.stamp = true
    · simp [hst, h₀.fileHashes, hc, hhonest d₀ hc hst]
    · simp [hst]

theorem Tree.mem_sources (hs : s ∈ T.sources tc ign) :
    ∃ p, s.1 = Path.join p ∧ T.listing.lookup p = some (.file s.2) := by
  obtain ⟨p, hk, hl, -⟩ := Tree.mem_walk.mp (mem_filter.mp hs).1
  exact ⟨p, hk, hl⟩

theorem Tree.sources_key_ne (hs : s ∈ T.sources tc ign) : s.1 ≠ [] := by
  obtain ⟨p, hk, hl⟩ := T.mem_sources hs
  rw [hk]
  exact Path.join_ne_nil (Listing.ne_nil_of_lookup hl) (Listing.valid_of_lookup T.wf hl)

theorem exists_source_of_sourceCorpus {sources : List (GoString × Entry)}
    (h : sourceCorpus sources k = some d) : ∃ s ∈ sources, s.1 = k ∧ s.2.doc = some d := by
  obtain ⟨s, hs, hd⟩ := Option.bind_eq_some_iff.mp h
  exact ⟨s, mem_of_find?_eq_some hs, by simpa using List.find?_some hs, hd⟩

abbrev workItems (tc : Toolchain) (prev : Index) (sources : List (GoString × Entry)) : List WorkItem :=
  sources.filterMap (deltaItem tc (some prev.fileHashes) (some prev))

theorem workItems_rel_sublist (h₀ : Holds tc prev.toTables c₀) {sources : List (GoString × Entry)}
    (hs : ∀ s ∈ sources, indexableFile s.2.lstat = true) :
    ((workItems tc prev sources).map WorkItem.rel).Sublist (sources.map Prod.fst) := by
  induction sources with
  | nil => exact List.Sublist.refl _
  | cons s sources ih =>
    have ih := ih (fun x hx => hs x (by simp [hx]))
    cases h : deltaItem tc (some prev.fileHashes) (some prev) s with
    | none =>
      rw [workItems, filterMap_cons_none h]
      exact ih.cons _
    | some it =>
      rw [workItems, filterMap_cons_some h, map_cons, map_cons, (deltaItem_doc h₀ (hs s (by simp)) h).1]
      exact ih.cons_cons _

/-- Whatever the stamps and the reads, the items stand for a corpus. -/
theorem compared_workItems (h₀ : Holds tc prev.toTables c₀) (T : Tree) (ign : GoString → Bool → Bool) :
    Compared tc c₀ (listCorpus WorkItem.rel (itemDoc c₀) (workItems tc prev (T.sources tc ign)))
      (workItems tc prev (T.sources tc ign)) := by
  have hsrc : ∀ s ∈ T.sources tc ign, indexableFile s.2.lstat = true := fun s => T.indexable_of_mem_sources
  have hn : ((workItems tc prev (T.sources tc ign)).map WorkItem.rel).Nodup :=
    (T.sources_keys_nodup ign).sublist (workItems_rel_sublist h₀ hsrc)
  refine ⟨hn, fun it hit => ?_, fun it hit => ?_, fun k d hk => ?_⟩
  · obtain ⟨s, hs, hi⟩ := mem_filterMap.mp hit
    rw [(deltaItem_doc h₀ (hsrc s hs) hi).1]
    exact T.sources_key_ne hs
  · obtain ⟨s, hs, hi⟩ := mem_filterMap.mp hit
    obtain ⟨-, -, body, hd, hspec⟩ := deltaItem_doc h₀ (hsrc s hs) hi
    exact ⟨body, by rw [listCorpus_of_mem hn hit, hd], hspec⟩
  · obtain ⟨it, hit, -⟩ := Option.bind_eq_some_iff.mp hk
    exact ⟨it, mem_of_find?_eq_some hit, by simpa using List.find?_some hit⟩

def ReadableSources (sources : List (GoString × Entry)) : Prop := ∀ s ∈ sources, s.2.doc.isSome

theorem compared_corpus (h₀ : Holds tc prev.toTables c₀) (hinj : Function.Injective tc.fileHash)
    (hread : ReadableSources (T.sources tc ign)) (hhonest : HonestFor c₀ (T.sources tc ign)) :
    Compared tc c₀ (T.corpus tc ign) (workItems tc prev (T.sources tc ign)) := by
  have hc := compared_workItems h₀ T ign
  have hsub := workItems_rel_sublist h₀ fun s (hs : s ∈ T.sources tc ign) => T.indexable_of_mem_sources hs
  suffices listCorpus WorkItem.rel (itemDoc c₀) (workItems tc prev (T.sources tc ign)) = T.corpus tc ign from this ▸ hc
  funext k
  by_cases hk : k ∈ (T.sources tc ign).map Prod.fst
  · obtain ⟨s, hs, rfl⟩ := mem_map.mp hk
    obtain ⟨d, hd⟩ := Option.isSome_iff_exists.mp (hread s hs)
    have hidx := T.indexable_of_mem_sources hs
    obtain ⟨it, hit, hst, hhash⟩ := deltaItem_hash h₀ hidx hd (fun d₀ hd₀ => hhonest s hs d₀ d hd₀ hd)
    obtain ⟨hrel, -, body, hdoc, hbody, -⟩ := deltaItem_doc h₀ hidx hit
    obtain rfl := hinj (hhash.symm.trans hbody)
    rw [Tree.corpus, sourceCorpus, listCorpus_of_mem (T.sources_keys_nodup ign) hs, hd, ← hrel,
      listCorpus_of_mem hc.nodup (mem_filterMap.mpr ⟨s, hs, hit⟩), hdoc, hst]
  · rw [listCorpus_eq_none fun h => hk (hsub.subset h)]
    exact (listCorpus_eq_none hk).symm

/-- The incremental crawl represents the corpus of the tree. -/
theorem represents_crawlDeltaFrom (sched : Scheduler WorkItem) (workers : Int) (h₀ : Holds tc prev.toTables c₀)
    (hinj : Function.Injective tc.fileHash) {m : Ignore.Matcher} (hm : T.ignores tc = some m)
    (hread : ReadableSources (T.sources tc m.ignored))
    (hhonest : HonestFor c₀ (T.sources tc m.ignored)) {hashes : Option (GoMap GoString GoString)}
    (hhashes : hashes = none ∨ hashes = some prev.fileHashes) :
    ∃ idx st hs, crawlDeltaFrom tc sched T workers hashes (some prev) = some (idx, st, hs) ∧
      Represents tc idx.toTables (T.corpus tc m.ignored) := by
  have hh : (if hashes.isNone then (some prev).map (·.fileHashes) else hashes) = some prev.fileHashes := by
    rcases hhashes with rfl | rfl <;> rfl
  have hc := compared_corpus h₀ hinj hread hhonest
  simp only [crawlDeltaFrom, hm, hh]
  exact ⟨_, _, _, rfl, represents_deltaIndex (by split_ifs <;> omega) h₀ hc⟩

end CodeMemory.Crawl
