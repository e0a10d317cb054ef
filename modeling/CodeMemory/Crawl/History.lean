import CodeMemory.Crawl.DeltaSpec

/-! Chains of crawls. An index that a full crawl and any number of incremental
crawls have produced holds file versions that the crawled trees had, so that under
honest stamps the next incremental crawl agrees with a full crawl. -/

namespace CodeMemory.Crawl

open Lib Lib.Path List

/-- The indexes that a full crawl followed by incremental crawls can produce, with
the trees crawled, last first. -/
inductive CrawlHistory (tc : Toolchain) : List Tree → Index → Prop where
  | full {sched : Scheduler (GoString × Entry)} {T : Tree} {workers : Int} {idx : Index} {st : Stats}
      (h : crawlDir tc sched T workers = some (idx, st)) : CrawlHistory tc [T] idx
  | delta {history : List Tree} {prev : Index} {sched : Scheduler WorkItem} {T : Tree} {workers : Int}
      {hashes : Option (GoMap GoString GoString)} {idx : Index} {st : Stats} {hs : GoMap GoString GoString}
      (hprev : CrawlHistory tc history prev)
      (hhashes : hashes = none ∨ hashes = some prev.fileHashes)
      (h : crawlDeltaFrom tc sched T workers hashes (some prev) = some (idx, st, hs)) :
      CrawlHistory tc (T :: history) idx

/-- Two versions of a path with equal positive size and equal modification time
have equal contents. -/
def HonestStamps (trees : List Tree) : Prop :=
  ∀ T ∈ trees, ∀ T' ∈ trees, ∀ p e e' d d', T.listing.lookup p = some (.file e) →
    T'.listing.lookup p = some (.file e') → e.doc = some d → e'.doc = some d' →
    stampEqual d.stamp d'.stamp = true → d.body = d'.body

def Tree.Readable (tc : Toolchain) (T : Tree) : Prop :=
  ∀ m, T.ignores tc = some m → ReadableSources (T.sources tc m.ignored)

/-- Every version in the corpus is one that a tree of the history had. -/
def SeenIn (trees : List Tree) (c : Corpus) : Prop :=
  ∀ k d, c k = some d → ∃ T ∈ trees, ∃ p e, k = join p ∧ T.listing.lookup p = some (.file e) ∧
    e.doc = some d

variable {tc : Toolchain} {trees : List Tree}

theorem seenIn_sourceCorpus {T : Tree} (hT : T ∈ trees)
    {ign : GoString → Bool → Bool} {sources : List (GoString × Entry)}
    (hsub : sources.Sublist (T.sources tc ign)) : SeenIn trees (sourceCorpus sources) := by
  intro k d hk
  obtain ⟨s, hs, rfl, hd⟩ := exists_source_of_sourceCorpus hk
  obtain ⟨p, hp, hl⟩ := T.mem_sources (hsub.subset hs)
  exact ⟨T, hT, p, s.2, hp, hl, hd⟩

theorem SeenIn.honestFor {c : Corpus} (hc : SeenIn trees c) {T : Tree}
    (hstamps : HonestStamps (T :: trees)) (ign : GoString → Bool → Bool) :
    HonestFor c (T.sources tc ign) := by
  intro s hs d₀ d hd₀ hd hst
  obtain ⟨T', hT', p', e', hk', hl', hd'⟩ := hc s.1 d₀ hd₀
  obtain ⟨p, hk, hl⟩ := T.mem_sources hs
  obtain rfl : p' = p := join_injective (Listing.ne_nil_of_lookup hl') (Listing.ne_nil_of_lookup hl)
    (Listing.valid_of_lookup T'.wf hl') (Listing.valid_of_lookup T.wf hl) (hk'.symm.trans hk)
  exact hstamps T' (by simp [hT']) T (by simp) p' e' s.2 d₀ d hl' hl hd' hd hst

theorem HonestStamps.tail {T : Tree} (h : HonestStamps (T :: trees)) : HonestStamps trees :=
  fun T₁ h₁ T₂ h₂ => h T₁ (by simp [h₁]) T₂ (by simp [h₂])

/-- An index from a chain of crawls represents a corpus of versions seen. -/
theorem CrawlHistory.represents (hinj : Function.Injective tc.fileHash) {history : List Tree}
    {idx : Index} (h : CrawlHistory tc history idx) (hstamps : HonestStamps history)
    (hread : ∀ T ∈ history, T.Readable tc) :
    ∃ c, Represents tc idx.toTables c ∧ SeenIn history c := by
  induction h with
  | full h =>
    obtain ⟨m, -, hr⟩ := crawled_crawlDir h
    exact ⟨_, hr.toRepresents, seenIn_sourceCorpus (by simp) (take_sublist _ _)⟩
  | @delta history prev sched T workers hashes idx st hs _ hhashes h ih =>
    obtain ⟨c₀, h₀, hseen⟩ := ih hstamps.tail (fun T hT => hread T (by simp [hT]))
    cases hm : T.ignores tc with
    | none => simp [crawlDeltaFrom, hm] at h
    | some m =>
      obtain ⟨idx', st', hs', hd, hr⟩ := represents_crawlDeltaFrom sched workers
        h₀.toHolds hinj hm (hread T (by simp) m hm) (hseen.honestFor hstamps m.ignored) hhashes
      rw [h] at hd
      cases hd
      exact ⟨_, hr, seenIn_sourceCorpus (by simp) (List.Sublist.refl _)⟩

/-- An incremental crawl from any chain of crawls and a full crawl fail together
or fill the same tables, whatever the workers do. -/
theorem crawlDeltaFrom_tables_eq_crawlDir (hinj : Function.Injective tc.fileHash) {history : List Tree}
    {prev : Index} (hprev : CrawlHistory tc history prev) (T : Tree)
    (hstamps : HonestStamps (T :: history)) (hread : ∀ T' ∈ T :: history, T'.Readable tc)
    (hmax : ∀ m, T.ignores tc = some m → (T.sources tc m.ignored).length ≤ maxIndexableFiles)
    (sched : Scheduler WorkItem) (sched' : Scheduler (GoString × Entry)) (workers workers' : Int) :
    (crawlDeltaFrom tc sched T workers none (some prev)).map (fun r => r.1.toTables) =
      (crawlDir tc sched' T workers').map (fun r => r.1.toTables) := by
  cases hm : T.ignores tc with
  | none => simp [crawlDeltaFrom, crawlDir, hm]
  | some m =>
    obtain ⟨c₀, h₀, hseen⟩ := hprev.represents hinj hstamps.tail (fun T' hT' => hread T' (by simp [hT']))
    obtain ⟨idx, st, hs, hdelta, hr⟩ := represents_crawlDeltaFrom sched workers
      h₀.toHolds hinj hm (hread T (by simp) m hm) (hseen.honestFor hstamps m.ignored) (Or.inl rfl)
    obtain ⟨idx', st', hfull⟩ := crawlDir_isSome sched' workers' hm
    obtain ⟨m', hm', hr'⟩ := crawled_crawlDir hfull
    obtain rfl : m = m' := Option.some.inj (hm.symm.trans hm')
    rw [take_of_length_le (hmax m hm)] at hr'
    rw [hdelta, hfull, Option.map_some, Option.map_some, hr.unique hr'.toRepresents]

def pyTree (stamp : FileStamp) (body : GoString) : Tree where
  rootName := GoString.lit "repo"
  listing := .file (GoString.lit "a.py") (.regular stamp (some body)) .nil
  wf := ⟨by decide, List.not_mem_nil, trivial⟩
  ignoreFiles := ⟨.absent, .absent, .absent⟩
  outside _ := none

theorem pyTree_lookup {stamp : FileStamp} {body : GoString} {p : Rel} {e : Entry}
    (h : (pyTree stamp body).listing.lookup p = some (.file e)) :
    p = [GoString.lit "a.py"] ∧ e = .regular stamp (some body) := by
  rcases (Listing.lookup_file_iff (by simp [Listing.names]) p).mp h with ⟨hp, he⟩ | h
  · exact ⟨hp, he.symm⟩
  · rcases p with _ | ⟨_, _ | ⟨_, _⟩⟩
    · cases h
    · cases h
    · cases h

/-- A file that gets a new stamp may get any contents. -/
theorem honestStamps_pyTree {s s' : FileStamp} (hs : s ≠ s') (b b' : GoString) :
    HonestStamps [pyTree s b, pyTree s' b'] := by
  have hdoc : ∀ {s : FileStamp} {b : GoString} {p : Rel} {e : Entry} {d : Doc},
      (pyTree s b).listing.lookup p = some (.file e) → e.doc = some d → d = ⟨b, s⟩ := by
    intro s b p e d hl hd
    rw [(pyTree_lookup hl).2] at hd
    exact (Option.some.inj hd).symm
  intro T hT T' hT' p e e' d d' hl hl' hd hd' hst
  have hst := (stampEqual_iff.mp hst).1
  simp only [mem_cons, not_mem_nil, or_false] at hT hT'
  rcases hT with rfl | rfl <;> rcases hT' with rfl | rfl <;> rw [hdoc hl hd, hdoc hl' hd'] at hst ⊢
  · exact absurd hst hs
  · exact absurd hst.symm hs

theorem pyTree_readable (stamp : FileStamp) (body : GoString) : (pyTree stamp body).Readable tc := by
  intro m _ s hs
  obtain ⟨p, -, hl⟩ := Tree.mem_sources hs
  rw [(pyTree_lookup hl).2]
  rfl

theorem pyTree_sources_length (stamp : FileStamp) (body : GoString) (ign : GoString → Bool → Bool) :
    ((pyTree stamp body).sources tc ign).length ≤ 1 := by
  refine (length_filter_le _ _).trans ?_
  simp only [pyTree, Tree.walk, Listing.walk, length_map]
  split_ifs <;> simp

theorem crawlDeltaFrom_tables_eq_crawlDir_edited :
    ∃ prev, CrawlHistory .ascii [pyTree ⟨9, 1⟩ (GoString.lit "class Foo")] prev ∧
      (crawlDeltaFrom .ascii (Scheduler.first _) (pyTree ⟨9, 2⟩ (GoString.lit "class Bar")) 1 none
        (some prev)).map (fun r => r.1.toTables) =
      (crawlDir .ascii (Scheduler.first _) (pyTree ⟨9, 2⟩ (GoString.lit "class Bar")) 4).map
        (fun r => r.1.toTables) := by
  have hm : ((pyTree ⟨9, 1⟩ (GoString.lit "class Foo")).ignores .ascii).isSome := by decide
  obtain ⟨m, hm⟩ := Option.isSome_iff_exists.mp hm
  obtain ⟨prev, st, hprev⟩ := crawlDir_isSome (Scheduler.first _) 1 hm
  refine ⟨prev, .full hprev, crawlDeltaFrom_tables_eq_crawlDir (fun _ _ h => h) (.full hprev) _
    (honestStamps_pyTree (by decide) _ _) ?_ ?_ _ _ _ _⟩
  · intro T hT
    simp only [mem_cons, not_mem_nil, or_false] at hT
    rcases hT with rfl | rfl <;> exact pyTree_readable _ _
  · intro m _
    exact (pyTree_sources_length _ _ _).trans (by decide)

end CodeMemory.Crawl
