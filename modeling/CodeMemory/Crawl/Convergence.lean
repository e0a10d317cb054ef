import CodeMemory.Crawl.Census

/-! Targeted ingestion against a full crawl. The tables stay those of a corpus
under ingestion, and the corpus is updated path by path; the result is that of a
full crawl unless a path that was skipped, or one that the crawl does not admit,
stays behind. -/

namespace CodeMemory.Crawl

open Lib Lib.GoMap Lib.GoString Lib.Path List

variable {tc : Toolchain} {k rel : GoString} {c c' : Corpus} {x : Loaded} {s : GoString × Entry} {T₀ T : Tree}
  {idx : Index} {m : Ignore.Matcher}

structure FileRow where
  postings : GoMap GoString Nat
  symbols : FileSymbols
  edges : List Edge
  hash : GoString
  stamp : FileStamp

def fileRow (tc : Toolchain) (k : GoString) (d : Doc) : FileRow where
  postings := tc.tokenFreq d.body
  symbols := tc.extractSymbols k d.body
  edges := tc.extractTypedEdges k d.body
  hash := tc.fileHash d.body
  stamp := d.stamp

theorem listed_injective {α : Type} {xs ys : List α} (h : listed xs = listed ys) : xs = ys := by
  cases xs <;> cases ys <;> simp_all [listed]

theorem Column.of_fileRow {V : Type} {m : GoMap GoString V} (f : FileRow → Option V)
    (h : Column m c' fun k d => f (fileRow tc k d))
    (hrow : ∀ k, (c k).map (fileRow tc k) = (c' k).map (fileRow tc k)) : Column m c fun k d => f (fileRow tc k d) := by
  intro k
  have := congrArg (fun x : Option FileRow => x.bind f) (hrow k)
  rw [h]
  simpa [Option.bind_map, Function.comp_def] using this.symm

/-- Two tables are equal exactly if they have the same row for every path. -/
theorem Represents.eq_iff {t t' : Tables} (h : Represents tc t c) (h' : Represents tc t' c') :
    t = t' ↔ ∀ k, (c k).map (fileRow tc k) = (c' k).map (fileRow tc k) := by
  constructor
  · rintro rfl k
    have hfiles := (h.files k).symm.trans (h'.files k)
    have hpost := (h.filePostings k).symm.trans (h'.filePostings k)
    have hdefs := (h.fileDefs k).symm.trans (h'.fileDefs k)
    have hrefs := (h.fileRefs k).symm.trans (h'.fileRefs k)
    have himps := (h.fileImps k).symm.trans (h'.fileImps k)
    have hedges := (h.fileEdges k).symm.trans (h'.fileEdges k)
    have hhash := (h.fileHashes k).symm.trans (h'.fileHashes k)
    have hstamp := (h.fileStamps k).symm.trans (h'.fileStamps k)
    cases hc : c k with
    | none =>
      rw [hc] at hfiles
      cases hc' : c' k with
      | none => rfl
      | some d' => simp [hc'] at hfiles
    | some d =>
      rw [hc] at hfiles
      cases hc' : c' k with
      | none => simp [hc'] at hfiles
      | some d' =>
        simp only [hc, hc', Option.map_some, Option.bind_some, Option.some.injEq] at *
        have hsym : tc.extractSymbols k d.body = tc.extractSymbols k d'.body := by
          have h₁ := listed_injective hdefs
          have h₂ := listed_injective hrefs
          have h₃ := listed_injective himps
          cases hs : tc.extractSymbols k d.body
          cases hs' : tc.extractSymbols k d'.body
          simp_all
        simp only [fileRow, hpost, hsym, listed_injective hedges, hhash, hstamp]
  · intro hrow
    obtain ⟨hf, hp, hd, hr, hm, he, hh, hs⟩ := holds_iff.mp h'.toHolds
    refine h.unique ⟨holds_iff.mpr ⟨fun k => ?_, hp.of_fileRow (some ·.postings) hrow,
      hd.of_fileRow (listed ·.symbols.defs) hrow, hr.of_fileRow (listed ·.symbols.refs) hrow,
      hm.of_fileRow (listed ·.symbols.imports) hrow, he.of_fileRow (listed ·.edges) hrow,
      hh.of_fileRow (some ·.hash) hrow, hs.of_fileRow (some ·.stamp) hrow⟩, h'.inverted⟩
    have := congrArg Option.isSome (hrow k)
    simp only [Option.isSome_map] at this
    rw [hf, this]

/-- The version a path has after its action, from the version it had. -/
def IngestAction.after : IngestAction → Option Doc → Option Doc
  | .skip, o => o
  | .purge _, _ => none
  | .replace _ x, _ => some ⟨x.raw, x.stamp⟩

theorem IngestAction.after_after (a : IngestAction) (o : Option Doc) : a.after (a.after o) = a.after o := by
  cases a <;> rfl

def Corpus.at (c : Corpus) (rel : GoString) (a : IngestAction) : Corpus :=
  fun k => if k = rel then a.after (c k) else c k

section Column

variable {V : Type} {m l : GoMap GoString V} {f : GoString → Doc → Option V}

theorem Column.erase (h : Column m c f) (rel : GoString) : Column (m.erase rel) (c.at rel (.purge rel)) f := by
  intro k
  rw [lookup_erase_eq, h, Corpus.at]
  split_ifs <;> rfl

/-- Copying the entry of a file, which may be there already. -/
theorem Column.replace {d : Doc} (h : Column m c f) (hl : Column l (Corpus.put (fun _ => .none) rel d) f) :
    Column (copyInto (m.erase rel) l) (c.put rel d) f := by
  refine h.put fun k => ?_
  rw [lookup_copyInto, hl, lookup_erase_eq, Corpus.put]
  split_ifs with hk <;> simp [hk]

theorem Column.insert {d : Doc} {v : V} (h : Column m c f) (hl : Column l (Corpus.put (fun _ => .none) rel d) f)
    (hv : f rel d = some v) : Column ((copyInto m l).insert rel v) (c.put rel d) f := by
  refine h.put fun k => ?_
  rw [lookup_insert_eq, lookup_copyInto, hl, Corpus.put, hv]
  split_ifs <;> rfl

end Column

theorem Holds.purge (h : Holds tc idx.toTables c) (rel : GoString) :
    Holds tc (idx.purge rel).toTables (c.at rel (.purge rel)) := by
  obtain ⟨hf, hp, hd, hr, hm, he, hh, hs⟩ := holds_iff.mp h
  refine holds_iff.mpr ⟨fun k => ?_, hp.erase rel, hd.erase rel, hr.erase rel, hm.erase rel, he.erase rel, hh.erase rel,
    hs.erase rel⟩
  simp only [Index.purge, Corpus.at, IngestAction.after, Finset.mem_erase, hf]
  split_ifs with hk <;> simp [hk]

theorem Holds.replace (h : Holds tc idx.toTables c) (rel : GoString) (hx : x.hash = tc.fileHash x.raw) :
    Holds tc (idx.replace tc rel x).toTables (c.at rel (.replace rel x)) := by
  have hone : Represents tc (newLocalIndex.addLoaded tc rel x).toTables
      (Corpus.put (fun _ => none) rel ⟨x.raw, x.stamp⟩) :=
    Represents.addLoaded (l := newLocalIndex) represents_empty rfl hx
  obtain ⟨hf, hp, hd, hr, hm, he, hh, hs⟩ := holds_iff.mp h
  obtain ⟨hf', hp', hd', hr', hm', he', hh', hs'⟩ := holds_iff.mp hone.toHolds
  refine holds_iff.mpr ⟨fun k => ?_, hp.replace hp', hd.replace hd', hr.replace hr', hm.replace hm', he.replace he',
    hh.insert hh' (by rw [hx]), hs.insert hs' rfl⟩
  simp only [Index.replace, LocalIndex.mergeInto, Finset.mem_union, hf, hf', Corpus.put, Corpus.at,
    IngestAction.after]
  split_ifs <;> simp

section Target

variable {ign : GoString → Bool → Bool}

/-- A path is left alone, removed because it does not resolve, or read again. -/
theorem targetAction_cases (tc : Toolchain) (ign : GoString → Bool → Bool) (T : Tree) (rel : GoString) :
    targetAction tc ign T rel = .skip ∨
      (targetAction tc ign T rel = .purge rel ∧
        ∀ e info, T.resolve (relElems rel) = some (.file e) → e.stat ≠ some info) ∨
      ∃ e raw, targetAction tc ign T rel = .replace rel ⟨raw, tc.fileHash raw, e.lstat.stamp⟩ ∧
        T.resolve (relElems rel) = some (.file e) ∧ indexableFile e.lstat = true ∧ e.read = some raw := by
  by_cases hup : rel = lit ".." ∨ hasPrefix rel (lit "../")
  · exact .inl (by rw [targetAction, if_pos hup])
  by_cases hroot : T.isSystemRoot ∧ relElems rel ≠ []
  · exact .inl (by rw [targetAction, if_neg hup, if_pos hroot])
  rw [targetAction, if_neg hup, if_neg hroot]
  cases hres : T.resolve (relElems rel) with
  | none => exact .inr (.inl ⟨rfl, by simp⟩)
  | some f =>
    cases f with
    | dir => exact .inl rfl
    | file e =>
      dsimp only
      cases hstat : e.stat with
      | none =>
        refine .inr (.inl ⟨rfl, fun e' info he => ?_⟩)
        obtain rfl : e = e' := by simpa using he
        simp [hstat]
      | some info =>
        dsimp only
        split_ifs with h₁ h₂
        · exact .inl rfl
        · exact .inl rfl
        · exact .inl rfl
        · exact .inl rfl
        · have hind : indexableFile e.lstat = true := by simpa using h₂
          rw [Entry.stat_of_indexable hind] at hstat
          cases hstat
          cases hread : e.read with
          | none => exact .inl rfl
          | some raw => exact .inr (.inr ⟨e, raw, rfl, rfl, hind, hread⟩)

theorem Holds.apply_target {idx : Index} {c : Corpus} (h : Holds tc idx.toTables c) :
    Holds tc (idx.apply tc (targetAction tc ign T rel)).toTables (c.at rel (targetAction tc ign T rel)) := by
  rcases targetAction_cases tc ign T rel with ha | ⟨ha, -⟩ | ⟨e, raw, ha, -⟩
  · have hc : c.at rel .skip = c := by
      funext k
      simp [Corpus.at, IngestAction.after]
    rw [ha, hc]
    exact h
  · rw [ha]
    exact h.purge rel
  · rw [ha]
    exact h.replace rel rfl

end Target

def targets (rels : List GoString) : List GoString := rels.filterMap ingestTarget

def ingested (tc : Toolchain) (ign : GoString → Bool → Bool) (T : Tree) (c : Corpus) (rels : List GoString) :
    Corpus :=
  fun k => if k ∈ targets rels then (targetAction tc ign T k).after (c k) else c k

/-- The loop over the given paths updates each target once. -/
theorem holds_ingest (ign : GoString → Bool → Bool) (T : Tree) (h : Holds tc idx.toTables c) (rels : List GoString) :
    Holds tc ((rels.map (ingestAction tc ign T)).foldl (Index.apply tc) idx).toTables
      (ingested tc ign T c rels) := by
  induction rels generalizing idx c with
  | nil => exact h
  | cons given rels ih =>
    rw [map_cons, foldl_cons]
    cases ht : ingestTarget given with
    | none =>
      have ha : ingestAction tc ign T given = .skip := by rw [ingestAction, ht]
      have hc : ingested tc ign T c (given :: rels) = ingested tc ign T c rels := by
        funext k
        rw [ingested, ingested, targets, filterMap_cons_none ht, targets]
      rw [ha, hc]
      exact ih h
    | some rel =>
      have ha : ingestAction tc ign T given = targetAction tc ign T rel := by rw [ingestAction, ht]
      have hc : ingested tc ign T c (given :: rels) =
          ingested tc ign T (c.at rel (targetAction tc ign T rel)) rels := by
        funext k
        have htargets : targets (given :: rels) = rel :: targets rels := filterMap_cons_some ht
        simp only [ingested, htargets, mem_cons, Corpus.at]
        by_cases hk : k = rel
        · subst hk
          by_cases hm : k ∈ targets rels
          · simp [hm, IngestAction.after_after]
          · simp [hm]
        · simp [hk]
      rw [ha, hc]
      exact ih h.apply_target

theorem relElems_join {p : Rel} (hne : p ≠ []) (hp : ∀ c ∈ p, ValidName c) : relElems (join p) = p := by
  rw [relElems, splitOn_join hne hp, filter_eq_self]
  intro c hc
  obtain ⟨h₁, -, h₃, -⟩ := hp c hc
  simp [h₁, h₃]

def Tree.admitted (tc : Toolchain) (m : Ignore.Matcher) (T : Tree) : List (GoString × Entry) :=
  (T.sources tc m.ignored).take maxIndexableFiles

def Tree.stored (tc : Toolchain) (m : Ignore.Matcher) (T : Tree) (k : GoString) : Option FileRow :=
  (sourceCorpus (T.admitted tc m) k).map (fileRow tc k)

theorem Tree.resolve_of_source {ign : GoString → Bool → Bool}
    (hs : s ∈ T.sources tc ign) : T.resolve (relElems s.1) = some (.file s.2) := by
  obtain ⟨p, hk, hl⟩ := T.mem_sources hs
  rw [hk, relElems_join (Listing.ne_nil_of_lookup hl) (Listing.valid_of_lookup T.wf hl), Tree.resolve, hl]

theorem sourceCorpus_admitted (hs : s ∈ T.admitted tc m) : sourceCorpus (T.admitted tc m) s.1 = s.2.doc := by
  have hn : ((T.admitted tc m).map Prod.fst).Nodup :=
    (T.sources_keys_nodup m.ignored).sublist ((take_sublist _ _).map _)
  exact listCorpus_of_mem hn hs

theorem exists_admitted {d : Doc} (h : sourceCorpus (T.admitted tc m) k = some d) :
    ∃ s ∈ T.admitted tc m, s.1 = k ∧ s.2.doc = some d ∧ s.2.read = some d.body := by
  obtain ⟨s, hs, hk, hd⟩ := exists_source_of_sourceCorpus h
  have hd' := hd
  rw [Entry.doc_of_indexable (T.indexable_of_mem_sources (take_subset _ _ hs))] at hd'
  obtain ⟨raw, hr, rfl⟩ := Option.map_eq_some_iff.mp hd'
  exact ⟨s, hs, hk, hd, hr⟩

/-- A path that is read again gets the version the crawl has, if the crawl has one. -/
theorem stored_of_replace (h : targetAction tc m.ignored T rel = .replace rel x) :
    T.stored tc m rel = some (fileRow tc rel ⟨x.raw, x.stamp⟩) ↔ ∃ s ∈ T.admitted tc m, s.1 = rel := by
  rcases targetAction_cases tc m.ignored T rel with ha | ⟨ha, -⟩ | ⟨e, raw, ha, hres, hind, hread⟩
  · rw [h] at ha
    cases ha
  · rw [h] at ha
    cases ha
  · rw [h] at ha
    obtain rfl : x = _ := by simpa using ha
    constructor
    · intro hst
      obtain ⟨d, hd, -⟩ := Option.map_eq_some_iff.mp hst
      obtain ⟨s, hs, hk, -⟩ := exists_admitted hd
      exact ⟨s, hs, hk⟩
    · rintro ⟨s, hs, rfl⟩
      have hres' := Tree.resolve_of_source (take_subset _ _ hs)
      obtain rfl : e = s.2 := by simpa using hres.symm.trans hres'
      rw [Tree.stored, sourceCorpus_admitted hs, Entry.doc_of_indexable hind, hread]
      rfl

/-- A path that is removed is none that the crawl reads. -/
theorem stored_of_purge (h : targetAction tc m.ignored T rel = .purge rel) : T.stored tc m rel = none := by
  rw [Tree.stored, Option.map_eq_none_iff]
  cases hd : sourceCorpus (T.admitted tc m) rel with
  | none => rfl
  | some d =>
    obtain ⟨s, hs, rfl, -⟩ := exists_admitted hd
    have hsrc := take_subset _ _ hs
    rcases targetAction_cases tc m.ignored T s.1 with ha | ⟨-, hno⟩ | ⟨e, raw, ha, -⟩
    · rw [h] at ha
      cases ha
    · exact absurd (Entry.stat_of_indexable (T.indexable_of_mem_sources hsrc))
        (hno s.2 _ (Tree.resolve_of_source hsrc))
    · rw [h] at ha
      cases ha

/-- A path at which the trees do not differ is stored alike exactly if the limit on
the number of files cuts it off in both crawls or in neither. -/
theorem stored_eq_iff_of_same (hsame : ∀ p e, join p = k →
      (T.listing.lookup p = some (.file e) ↔ T₀.listing.lookup p = some (.file e))) :
    T₀.stored tc m k = T.stored tc m k ↔
      ∀ s, s.1 = k → s.2.read ≠ none → (s ∈ T₀.admitted tc m ↔ s ∈ T.admitted tc m) := by
  -- an entry one crawl admits is the only one the other can admit at the same path
  have hentry : ∀ s s', s ∈ T₀.admitted tc m → s' ∈ T.admitted tc m → s.1 = k → s'.1 = k → s = s' := by
    intro s s' hs hs' hk hk'
    obtain ⟨p, hp, hl⟩ := T₀.mem_sources (take_subset _ _ hs)
    obtain ⟨p', hp', hl'⟩ := T.mem_sources (take_subset _ _ hs')
    have hl₀ := (hsame p' s'.2 (hp' ▸ hk')).mp hl'
    exact Prod.ext (hk.trans hk'.symm) (T₀.path_unique hl hl₀ (by rw [← hp, ← hp', hk, hk'])).2
  constructor
  · intro h s hk hread
    subst hk
    have hdoc : ∀ {T : Tree}, s ∈ T.admitted tc m → T.stored tc m s.1 ≠ none := by
      intro T hs
      obtain ⟨raw, hraw⟩ := Option.ne_none_iff_exists'.mp hread
      rw [Tree.stored, sourceCorpus_admitted hs,
        Entry.doc_of_indexable (T.indexable_of_mem_sources (take_subset _ _ hs)), hraw]
      simp
    have hother : ∀ {T : Tree}, T.stored tc m s.1 ≠ none → ∃ s' ∈ T.admitted tc m, s'.1 = s.1 := by
      intro T hne
      obtain ⟨row, hrow⟩ := Option.ne_none_iff_exists'.mp hne
      obtain ⟨d, hd, -⟩ := Option.map_eq_some_iff.mp hrow
      obtain ⟨s', hs', hk', -⟩ := exists_admitted hd
      exact ⟨s', hs', hk'⟩
    constructor
    · intro hs
      obtain ⟨s', hs', hk'⟩ := hother (h ▸ hdoc hs)
      exact hentry s s' hs hs' rfl hk' ▸ hs'
    · intro hs
      obtain ⟨s', hs', hk'⟩ := hother (h.symm ▸ hdoc hs)
      exact (hentry s' s hs' hs hk' rfl).symm ▸ hs'
  · intro h
    cases hd : sourceCorpus (T₀.admitted tc m) k with
    | some d =>
      obtain ⟨s, hs, rfl, hdoc, hread⟩ := exists_admitted hd
      have hs' := (h s rfl (by simp [hread])).mp hs
      rw [Tree.stored, Tree.stored, sourceCorpus_admitted hs, sourceCorpus_admitted hs']
    | none =>
      cases hd' : sourceCorpus (T.admitted tc m) k with
      | none => rw [Tree.stored, Tree.stored, hd, hd']
      | some d =>
        obtain ⟨s, hs, rfl, hdoc, hread⟩ := exists_admitted hd'
        have hs' := (h s rfl (by simp [hread])).mpr hs
        rw [sourceCorpus_admitted hs', hdoc] at hd
        cases hd

/-- The path leads out of the tree or is a directory, or it is a file that is ignored, a link or no regular file, too
large, of another kind or unreadable. -/
def PassedOver (tc : Toolchain) (T : Tree) (m : Ignore.Matcher) (rel : GoString) : Prop :=
  (rel = lit ".." ∨ hasPrefix rel (lit "../") = true) ∨ (T.isSystemRoot = true ∧ relElems rel ≠ []) ∨
    T.resolve (relElems rel) = some .dir ∨
    ∃ e info, T.resolve (relElems rel) = some (.file e) ∧ e.stat = some info ∧
      (info.isDir = true ∨ m.ignored rel false = true ∨ indexableFile e.lstat = false ∨ indexableFile info = false ∨
        tc.extOK rel = false ∨ e.read = none)

theorem targetAction_eq_skip_iff : targetAction tc m.ignored T rel = .skip ↔ PassedOver tc T m rel := by
  unfold targetAction PassedOver
  by_cases hup : rel = lit ".." ∨ hasPrefix rel (lit "../") = true
  · simp [hup]
  by_cases hroot : T.isSystemRoot = true ∧ relElems rel ≠ []
  · simp [hroot]
  rw [if_neg hup, if_neg hroot]
  cases hres : T.resolve (relElems rel) with
  | none => simp [hup, hroot]
  | some f =>
    cases f with
    | dir => simp
    | file e =>
      cases hstat : e.stat with
      | none => simp [hup, hroot, hstat]
      | some info =>
        simp only [hup, hroot, reduceCtorEq, Option.some.injEq, Found.file.injEq, false_or, hstat]
        split_ifs <;> cases hread : e.read <;> simp_all
        tauto

/-- What the given paths have to meet for ingestion to end where a full crawl does. -/
structure IngestAgrees (tc : Toolchain) (T₀ T : Tree) (m : Ignore.Matcher) (rels : List GoString) : Prop where
  /-- A path that is read again is one that the crawl reads. -/
  replaced : ∀ rel ∈ targets rels, ∀ x, targetAction tc m.ignored T rel = .replace rel x →
    ∃ s ∈ T.admitted tc m, s.1 = rel
  /-- A path that is passed over is stored alike by both crawls. -/
  skipped : ∀ rel ∈ targets rels, PassedOver tc T m rel → T₀.stored tc m rel = T.stored tc m rel
  /-- So is a path that is not looked at under its own name. -/
  renamed : ∀ rel ∈ rels, rel ∉ targets rels → T₀.stored tc m rel = T.stored tc m rel
  /-- The limit on the number of files cuts off the same of the other paths. -/
  limit : ∀ s : GoString × Entry, s.1 ∉ rels → s.1 ∉ targets rels → s.2.read ≠ none →
    (s ∈ T₀.admitted tc m ↔ s ∈ T.admitted tc m)

theorem stored_ingested_iff {rels : List GoString} (hdiff : ∀ p e, join p ∉ rels →
      (T.listing.lookup p = some (.file e) ↔ T₀.listing.lookup p = some (.file e))) :
    (∀ k, (ingested tc m.ignored T (sourceCorpus (T₀.admitted tc m)) rels k).map (fileRow tc k) =
        T.stored tc m k) ↔ IngestAgrees tc T₀ T m rels := by
  have htarget : ∀ k ∈ targets rels,
      (ingested tc m.ignored T (sourceCorpus (T₀.admitted tc m)) rels k).map (fileRow tc k) =
        ((targetAction tc m.ignored T k).after (sourceCorpus (T₀.admitted tc m) k)).map (fileRow tc k) :=
    fun k hk => by rw [ingested, if_pos hk]
  have hother : ∀ k ∉ targets rels,
      (ingested tc m.ignored T (sourceCorpus (T₀.admitted tc m)) rels k).map (fileRow tc k) =
        T₀.stored tc m k :=
    fun k hk => by rw [ingested, if_neg hk, Tree.stored]
  constructor
  · intro h
    refine ⟨fun rel hrel x hx => ?_, fun rel hrel hs => ?_, fun rel _ hrel => ?_, fun s hs hs' hread => ?_⟩
    · have := h rel
      rw [htarget rel hrel, hx] at this
      exact (stored_of_replace hx).mp this.symm
    · have := h rel
      rw [htarget rel hrel, targetAction_eq_skip_iff.mpr hs] at this
      exact this
    · rw [← hother rel hrel, h]
    · have := (hother s.1 hs').symm.trans (h s.1)
      exact (stored_eq_iff_of_same (fun p e hp => hdiff p e (hp ▸ hs))).mp this s rfl hread
  · intro h k
    by_cases hk : k ∈ targets rels
    · rw [htarget k hk]
      rcases targetAction_cases tc m.ignored T k with ha | ⟨ha, -⟩ | ⟨e, raw, ha, -⟩
      · rw [ha]
        exact h.skipped k hk (targetAction_eq_skip_iff.mp ha)
      · rw [ha, stored_of_purge ha]
        rfl
      · rw [ha, (stored_of_replace ha).mpr (h.replaced k hk _ ha)]
        rfl
    · rw [hother k hk]
      by_cases hk' : k ∈ rels
      · exact h.renamed k hk' hk
      · refine (stored_eq_iff_of_same (fun p e hp => hdiff p e (hp ▸ hk'))).mpr (fun s hs hread => ?_)
        subst hs
        exact h.limit s hk' hk hread

/-- Ingestion of the paths at which a tree has changed ends with the tables of a
full crawl exactly if the paths meet the conditions of `IngestAgrees`. -/
theorem ingestPaths_converges_iff {T₀ T : Tree} {sched : Scheduler (GoString × Entry)} {workers : Int}
    {idx : Index} {st : Stats} (hcrawl : crawlDir tc sched T₀ workers = some (idx, st))
    (hignore : T.ignoreFiles = T₀.ignoreFiles) {rels : List GoString}
    (hdiff : ∀ p e, join p ∉ rels →
      (T.listing.lookup p = some (.file e) ↔ T₀.listing.lookup p = some (.file e)))
    (sched' : Scheduler (GoString × Entry)) (workers' : Int) :
    (ingestPaths tc T idx rels).map (fun r => r.1.toTables) =
        (crawlDir tc sched' T workers').map (fun r => r.1.toTables) ↔
      ∀ m, T.ignores tc = some m → IngestAgrees tc T₀ T m rels := by
  obtain ⟨m, hm₀, h₀⟩ := crawled_crawlDir hcrawl
  have hm : T.ignores tc = some m := by rw [Tree.ignores, hignore]; exact hm₀
  obtain ⟨idx', st', hfull⟩ := crawlDir_isSome sched' workers' hm
  obtain ⟨m', hm', h'⟩ := crawled_crawlDir hfull
  obtain rfl : m = m' := Option.some.inj (hm.symm.trans hm')
  have hing := Holds.rebuild _ (holds_ingest m.ignored T h₀.toHolds rels)
  have hrows := hing.eq_iff h'.toRepresents
  have hall : (∀ m', T.ignores tc = some m' → IngestAgrees tc T₀ T m' rels) ↔ IngestAgrees tc T₀ T m rels := by
    simp [hm]
  rw [hall, ← stored_ingested_iff hdiff, hfull, ingestPaths, hm]
  exact Option.some_inj.trans hrows

theorem pyTree_differs (s s' : FileStamp) (b b' : GoString) (p : Rel) (e : Entry)
    (hp : join p ∉ [lit "a.py"]) :
    (pyTree s' b').listing.lookup p = some (.file e) ↔ (pyTree s b).listing.lookup p = some (.file e) := by
  have hno : ∀ (s : FileStamp) (b : GoString), (pyTree s b).listing.lookup p ≠ some (.file e) := by
    intro s b hl
    rw [(pyTree_lookup hl).1, join_singleton] at hp
    exact hp (by simp)
  exact iff_of_false (hno s' b') (hno s b)

theorem pyTree_ignoreFiles (s s' : FileStamp) (b b' : GoString) :
    (pyTree s' b').ignoreFiles = (pyTree s b).ignoreFiles := rfl

theorem pyTree_isSome_crawlDir (s : FileStamp) (b : GoString) :
    ∃ idx st, crawlDir .ascii (Scheduler.first _) (pyTree s b) 1 = some (idx, st) := by
  have hm : (Ignore.load Toolchain.ascii.regexpTooLarge ⟨.absent, .absent, .absent⟩).isSome := by
    decide +kernel
  obtain ⟨m, hm⟩ := Option.isSome_iff_exists.mp hm
  exact crawlDir_isSome (Scheduler.first _) 1 hm

theorem ingestPaths_converges_edited :
    ∃ idx st, crawlDir .ascii (Scheduler.first _) (pyTree ⟨9, 1⟩ (lit "class Foo")) 1 = some (idx, st) ∧
      ((ingestPaths .ascii (pyTree ⟨9, 2⟩ (lit "class Bar")) idx [lit "a.py"]).map (fun r => r.1.toTables) =
          (crawlDir .ascii (Scheduler.first _) (pyTree ⟨9, 2⟩ (lit "class Bar")) 1).map
            (fun r => r.1.toTables) ↔
        ∀ m, (pyTree ⟨9, 2⟩ (lit "class Bar")).ignores .ascii = some m →
          IngestAgrees .ascii (pyTree ⟨9, 1⟩ (lit "class Foo")) (pyTree ⟨9, 2⟩ (lit "class Bar")) m
            [lit "a.py"]) := by
  obtain ⟨idx, st, hcrawl⟩ := pyTree_isSome_crawlDir ⟨9, 1⟩ (lit "class Foo")
  exact ⟨idx, st, hcrawl, ingestPaths_converges_iff hcrawl (pyTree_ignoreFiles _ _ _ _)
    (pyTree_differs _ _ _ _) _ _⟩

/-- The repository of `pyTree` after `a.py` was replaced by a link to a file. -/
def linkTree : Tree where
  rootName := lit "repo"
  listing := .file (lit "a.py") (.symlink ⟨4, 2⟩ (some ⟨false, true, ⟨9, 1⟩⟩)) .nil
  wf := by decide
  ignoreFiles := ⟨.absent, .absent, .absent⟩
  outside _ := none

/-- Ingesting the link leaves the entry of the file it replaced; a crawl has none. -/
theorem link_keeps_stale_entry :
    ∃ idx st, crawlDir .ascii (Scheduler.first _) (pyTree ⟨9, 1⟩ (lit "class Foo")) 1 = some (idx, st) ∧
      (ingestPaths .ascii linkTree idx [lit "a.py"]).map (fun r => r.1.toTables) ≠
        (crawlDir .ascii (Scheduler.first _) linkTree 1).map (fun r => r.1.toTables) := by
  have heval : (crawlDir .ascii (Scheduler.first _) (pyTree ⟨9, 1⟩ (lit "class Foo")) 1).map (fun r =>
        (ingestPaths .ascii linkTree r.1 [lit "a.py"]).map (fun r => r.1.files)) = some (some {lit "a.py"}) ∧
      (crawlDir .ascii (Scheduler.first _) linkTree 1).map (fun r => r.1.files) = some ∅ := by
    decide +kernel
  obtain ⟨⟨idx, st⟩, hcrawl, hing⟩ := Option.map_eq_some_iff.mp heval.1
  refine ⟨idx, st, hcrawl, fun h => ?_⟩
  have hfiles := congrArg (Option.map Tables.files) h
  have hset : some {lit "a.py"} = some (∅ : Finset GoString) := hing.symm.trans (hfiles.trans heval.2)
  exact absurd hset (by decide)

end CodeMemory.Crawl
