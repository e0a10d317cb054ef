import CodeMemory.Crawl.History
import CodeMemory.Crawl.Persist

/-! The global symbol graph across the operations that build an index. Rebuilding
binds each name and its lower-case form; the merge of a full crawl binds names as
they stand. The two agree on an index exactly if no file has a name without its
lower-case form, and every other operation keeps the agreement. -/

namespace CodeMemory.Crawl

open Lib Lib.GoMap List

variable {tc : Toolchain} {t : GoMap GoString (List GoString)} {c : Corpus} {T : Tree} {workers : Int}
  {s : IndexState} {idx : Index}

/-- The symbol graph is the one a rebuild computes from the per-file tables. -/
structure SymbolsCurrent (tc : Toolchain) (idx : Index) : Prop where
  defs : ∀ n, namesAt idx.symbols.defs n = namesAt (rebuiltSymbols tc idx.toTables).defs n
  refs : ∀ n, namesAt idx.symbols.refs n = namesAt (rebuiltSymbols tc idx.toTables).refs n
  imports : ∀ f, namesAt idx.symbols.imports f = namesAt (rebuiltSymbols tc idx.toTables).imports f

/-- A list of names that holds the lower-case form of each of its names. -/
def CaseClosed (tc : Toolchain) (names : List GoString) : Prop :=
  ∀ n ∈ names, tc.toLower n ≠ [] → tc.toLower n ∈ names

theorem symbolsCurrent_rebuild (idx : Index) : SymbolsCurrent tc (rebuildGlobalFromFiles tc idx) :=
  ⟨fun _ => rfl, fun _ => rfl, fun _ => rfl⟩

theorem mem_withLower {n d : GoString} : n ∈ withLower tc d ↔ n = d ∨ n = tc.toLower d := by
  unfold withLower
  split_ifs with h
  · simp
  · rw [not_not] at h
    simp [h]

/-- What a rebuild binds: the listed names and their lower-case forms. -/
theorem mem_namesAt_rebuilt {n f : GoString} :
    f ∈ namesAt (bindLoop (fun file d => (withLower tc d).map (·, file)) ∅ t) n ↔
      (∃ ns, t.lookup f = some ns ∧ ∃ d ∈ ns, n = d ∨ n = tc.toLower d) ∧ n ≠ [] ∧ f ≠ [] := by
  rw [mem_namesAt_bindLoop]
  simp only [mem_flatMap, mem_map, Prod.mk.injEq]
  have hempty : f ∉ namesAt (∅ : NameMap) n := by simp [namesAt]
  simp only [hempty, false_or]
  constructor
  · rintro ⟨file, ns, hl, ⟨d, hd, n', hn', rfl, rfl⟩, hne⟩
    exact ⟨⟨ns, hl, d, hd, mem_withLower.mp hn'⟩, hne⟩
  · rintro ⟨⟨ns, hl, d, hd, hn⟩, hne⟩
    exact ⟨f, ns, hl, ⟨d, hd, n, mem_withLower.mpr hn, rfl, rfl⟩, hne⟩

/-- The names of a table and those a rebuild binds agree if every list is closed. -/
theorem lists_eq_rebuilt_iff (hne : t.lookup [] = none) :
    (∀ n f, Lists t n f ↔ f ∈ namesAt (bindLoop (fun file d => (withLower tc d).map (·, file)) ∅ t) n) ↔
      ∀ f ns, t.lookup f = some ns → CaseClosed tc ns := by
  simp only [mem_namesAt_rebuilt, Lists]
  constructor
  · intro h f ns hl d hd hd'
    have hf : f ≠ [] := by rintro rfl; rw [hne] at hl; cases hl
    obtain ⟨⟨ns', hl', hn⟩, -⟩ := (h (tc.toLower d) f).mpr ⟨⟨ns, hl, d, hd, Or.inr rfl⟩, hd', hf⟩
    rw [hl] at hl'
    rwa [Option.some.inj hl']
  · intro h n f
    refine and_congr_left (fun hnf => ⟨?_, ?_⟩)
    · rintro ⟨ns, hl, hn⟩; exact ⟨ns, hl, n, hn, Or.inl rfl⟩
    · rintro ⟨ns, hl, d, hd, rfl | rfl⟩
      · exact ⟨ns, hl, hd⟩
      · exact ⟨ns, hl, h f ns hl d hd hnf.1⟩

theorem namesAt_eq_iff {m m' : NameMap} {P : GoString → GoString → Prop}
    (h : ∀ n f, f ∈ namesAt m n ↔ P n f) :
    (∀ n, namesAt m n = namesAt m' n) ↔ ∀ n f, P n f ↔ f ∈ namesAt m' n := by
  simp only [Finset.ext_iff, h]

def CorpusClosed (tc : Toolchain) (c : Corpus) : Prop :=
  ∀ k d, c k = some d → CaseClosed tc (tc.extractSymbols k d.body).defs ∧
    CaseClosed tc (tc.extractSymbols k d.body).refs

theorem caseClosed_listed_iff {names : GoString → Doc → List GoString}
    (ht : ∀ k, t.lookup k = (c k).bind (fun d => listed (names k d))) :
    (∀ f ns, t.lookup f = some ns → CaseClosed tc ns) ↔ ∀ k d, c k = some d → CaseClosed tc (names k d) := by
  constructor
  · intro h k d hd
    cases hn : names k d with
    | nil => intro n hn; cases hn
    | cons n ns => exact h k _ (by rw [ht, hd, Option.bind_some, hn]; rfl)
  · intro h f ns hl
    rw [ht] at hl
    obtain ⟨d, hd, hl⟩ := Option.bind_eq_some_iff.mp hl
    have := h f d hd
    cases hn : names f d with
    | nil => rw [hn] at hl; cases hl
    | cons n ns' =>
      rw [hn] at hl this
      rwa [← Option.some.inj hl]

theorem symbolsCurrent_crawled_iff (h : Crawled tc idx c) (hc : c [] = none) :
    SymbolsCurrent tc idx ↔ CorpusClosed tc c := by
  have hdefs : (∀ n, namesAt idx.symbols.defs n = namesAt (rebuiltSymbols tc idx.toTables).defs n) ↔
      ∀ k d, c k = some d → CaseClosed tc (tc.extractSymbols k d.body).defs := by
    rw [namesAt_eq_iff h.defs, rebuiltSymbols, lists_eq_rebuilt_iff (by rw [h.fileDefs, hc]; rfl),
      caseClosed_listed_iff h.fileDefs]
  have hrefs : (∀ n, namesAt idx.symbols.refs n = namesAt (rebuiltSymbols tc idx.toTables).refs n) ↔
      ∀ k d, c k = some d → CaseClosed tc (tc.extractSymbols k d.body).refs := by
    rw [namesAt_eq_iff h.refs, rebuiltSymbols, lists_eq_rebuilt_iff (by rw [h.fileRefs, hc]; rfl),
      caseClosed_listed_iff h.fileRefs]
  have himps : ∀ f, namesAt idx.symbols.imports f = namesAt (rebuiltSymbols tc idx.toTables).imports f := by
    intro f
    ext p
    rw [h.imports, rebuiltSymbols, mem_namesAt_bindLoop_import]
    simp [namesAt]
  constructor
  · intro hs k d hd
    exact ⟨hdefs.mp hs.defs k d hd, hrefs.mp hs.refs k d hd⟩
  · intro hcl
    exact ⟨hdefs.mpr (fun k d hd => (hcl k d hd).1), hrefs.mpr (fun k d hd => (hcl k d hd).2), himps⟩

theorem SymbolsCurrent.prepared (h : SymbolsCurrent tc idx) : SymbolsCurrent tc (idx.prepared tc) := by
  unfold Index.prepared
  split_ifs
  · exact symbolsCurrent_rebuild idx
  · exact h

theorem SymbolsCurrent.load_snap (h : SymbolsCurrent tc idx) (root head : GoString) :
    SymbolsCurrent tc ((idx.snap tc root head).load tc) := by
  have hp := h.prepared
  unfold DurableSnap.load
  split_ifs
  · exact ⟨hp.defs, hp.refs, fun _ => rfl⟩
  · exact symbolsCurrent_rebuild _

inductive Op where
  | crawlDir (sched : Scheduler (GoString × Entry)) (T : Tree) (workers : Int)
  | crawlDeltaFrom (sched : Scheduler WorkItem) (T : Tree) (workers : Int)
      (prevHashes : Option (GoMap GoString GoString)) (usePrev : Bool)
  | ingestPaths (T : Tree) (rels : List GoString)
  | save (root gitHead : GoString)
  | load

structure IndexState where
  index : Option Index
  gob : Option DurableSnap

/-- One operation; one that fails or has nothing to work on changes nothing. -/
def IndexState.step (tc : Toolchain) (s : IndexState) : Op → IndexState
  | .crawlDir sched T workers =>
    match Crawl.crawlDir tc sched T workers with
    | none => s
    | some (idx, _) => { s with index := some idx }
  | .crawlDeltaFrom sched T workers prevHashes usePrev =>
    match Crawl.crawlDeltaFrom tc sched T workers prevHashes (if usePrev then s.index else none) with
    | none => s
    | some (idx, _) => { s with index := some idx }
  | .ingestPaths T rels =>
    match s.index.bind (fun idx => Crawl.ingestPaths tc T idx rels) with
    | none => s
    | some (idx, _) => { s with index := some idx }
  | .save root gitHead =>
    match s.index with
    | none => s
    | some idx => ⟨some (idx.prepared tc), some (idx.snap tc root gitHead)⟩
  | .load =>
    match s.gob with
    | none => s
    | some g => { s with index := some (g.load tc) }

def runOps (tc : Toolchain) (ops : List Op) : IndexState := ops.foldl (IndexState.step tc) ⟨none, none⟩

structure IndexState.Current (tc : Toolchain) (s : IndexState) : Prop where
  index : ∀ idx, s.index = some idx → SymbolsCurrent tc idx
  gob : ∀ g, s.gob = some g → SymbolsCurrent tc (g.load tc)

def Op.Closed (tc : Toolchain) : Op → Prop
  | .crawlDir _ T _ => ∀ m, T.ignores tc = some m →
      ∀ s ∈ (T.sources tc m.ignored).take maxIndexableFiles, ∀ d, s.2.doc = some d →
        CaseClosed tc (tc.extractSymbols s.1 d.body).defs ∧ CaseClosed tc (tc.extractSymbols s.1 d.body).refs
  | _ => True

theorem symbolsCurrent_crawlDir_iff {sched : Scheduler (GoString × Entry)}
    {st : Stats} (h : crawlDir tc sched T workers = some (idx, st)) :
    SymbolsCurrent tc idx ↔ (Op.crawlDir sched T workers).Closed tc := by
  obtain ⟨m, hm, hc⟩ := crawled_crawlDir h
  have hsub := (take_sublist maxIndexableFiles (T.sources tc m.ignored))
  have hkey : sourceCorpus ((T.sources tc m.ignored).take maxIndexableFiles) [] = none := by
    refine listCorpus_eq_none (fun hmem => ?_)
    obtain ⟨s, hs, hk⟩ := mem_map.mp hmem
    exact T.sources_key_ne (hsub.subset hs) hk
  rw [symbolsCurrent_crawled_iff hc hkey]
  constructor
  · intro hcl m' hm' s hs d hd
    obtain rfl : m = m' := Option.some.inj (hm.symm.trans hm')
    refine hcl s.1 d ?_
    rw [sourceCorpus, listCorpus_of_mem ((T.sources_keys_nodup m.ignored).sublist (hsub.map _)) hs, hd]
  · intro hcl k d hd
    obtain ⟨s, hs, rfl, hdoc⟩ := exists_source_of_sourceCorpus hd
    exact hcl m hm s hs d hdoc

theorem symbolsCurrent_deltaIndex (sched : Scheduler WorkItem) (workers : Nat) (prev : Option Index)
    (items : List WorkItem) : SymbolsCurrent tc (deltaIndex tc sched workers prev items) := by
  unfold deltaIndex
  split
  · exact symbolsCurrent_rebuild _
  · split_ifs
    · exact symbolsCurrent_rebuild _
    · exact symbolsCurrent_rebuild _

theorem symbolsCurrent_crawlDeltaFrom {sched : Scheduler WorkItem}
    {prevHashes : Option (GoMap GoString GoString)} {prev : Option Index} {r : Stats × GoMap GoString GoString}
    (h : crawlDeltaFrom tc sched T workers prevHashes prev = some (idx, r)) : SymbolsCurrent tc idx := by
  simp only [crawlDeltaFrom] at h
  split at h
  · cases h
  · cases h
    exact symbolsCurrent_deltaIndex _ _ _ _

theorem symbolsCurrent_ingestPaths {idx₀ : Index} {rels : List GoString} {n : Nat}
    (h : ingestPaths tc T idx₀ rels = some (idx, n)) : SymbolsCurrent tc idx := by
  simp only [ingestPaths] at h
  split at h
  · cases h
  · cases h
    exact symbolsCurrent_rebuild _

theorem IndexState.Current.withIndex (hs : s.Current tc) :
    IndexState.Current tc { s with index := some idx } ↔ SymbolsCurrent tc idx := by
  constructor
  · intro h; exact h.index idx rfl
  · intro h
    exact ⟨fun idx' he => by obtain rfl := Option.some.inj he; exact h, hs.gob⟩

/-- A step keeps the graph current exactly if it is closed. -/
theorem current_step_iff (hs : s.Current tc) (op : Op) : (s.step tc op).Current tc ↔ op.Closed tc := by
  cases op with
  | crawlDir sched T workers =>
    rw [IndexState.step]
    split
    · rename_i hn
      refine ⟨fun _ m hm => ?_, fun _ => hs⟩
      obtain ⟨idx, st, hsome⟩ := crawlDir_isSome sched workers hm
      rw [hn] at hsome
      cases hsome
    · rename_i idx st h
      rw [hs.withIndex, symbolsCurrent_crawlDir_iff h]
  | crawlDeltaFrom sched T workers prevHashes usePrev =>
    simp only [IndexState.step, Op.Closed, iff_true]
    split
    · exact hs
    · rename_i h
      exact hs.withIndex.mpr (symbolsCurrent_crawlDeltaFrom h)
  | ingestPaths T rels =>
    simp only [IndexState.step, Op.Closed, iff_true]
    split
    · exact hs
    · rename_i h
      obtain ⟨idx₀, -, h⟩ := Option.bind_eq_some_iff.mp h
      exact hs.withIndex.mpr (symbolsCurrent_ingestPaths h)
  | save root gitHead =>
    simp only [IndexState.step, Op.Closed, iff_true]
    split
    · exact hs
    · rename_i idx h
      have hc := hs.index idx h
      exact ⟨fun _ he => Option.some.inj he ▸ hc.prepared,
        fun _ he => Option.some.inj he ▸ hc.load_snap root gitHead⟩
  | load =>
    simp only [IndexState.step, Op.Closed, iff_true]
    split
    · exact hs
    · rename_i g h
      exact hs.withIndex.mpr (hs.gob g h)

theorem current_init : IndexState.Current tc ⟨none, none⟩ := ⟨nofun, nofun⟩

/-- In every run, the graph is current in every state exactly if every full crawl
indexes only files whose definitions and references are closed under lower case. -/
theorem symbols_current_along_run_iff (tc : Toolchain) (ops : List Op) :
    (∀ done rest, ops = done ++ rest → (runOps tc done).Current tc) ↔ ∀ op ∈ ops, op.Closed tc := by
  constructor
  · intro h op hop
    obtain ⟨done, rest, rfl⟩ := append_of_mem hop
    have h₀ := h done (op :: rest) rfl
    have h₁ := h (done ++ [op]) rest (by simp)
    rw [runOps, foldl_append] at h₁
    exact (current_step_iff h₀ op).mp h₁
  · intro h done
    induction done using List.reverseRecOn with
    | nil => intro rest _; exact current_init
    | append_singleton done op ih =>
      intro rest he
      have h₀ := ih (op :: rest) (by simpa using he)
      rw [runOps, foldl_append]
      exact (current_step_iff h₀ op).mpr (h op (by simp [he]))

/-- After a full crawl of one file with `class Foo`, the name `foo` is not bound to
it; a rebuild binds it. -/
theorem full_crawl_lacks_lower_case :
    ¬ ∀ done rest, [Op.crawlDir (Scheduler.first _) (pyTree ⟨9, 1⟩ (GoString.lit "class Foo")) 1] =
      done ++ rest → (runOps .ascii done).Current .ascii := by
  intro h
  have heval : (crawlDir .ascii (Scheduler.first _) (pyTree ⟨9, 1⟩ (GoString.lit "class Foo")) 1).map
      (fun r => (namesAt r.1.symbols.defs (GoString.lit "foo"),
        namesAt (rebuiltSymbols .ascii r.1.toTables).defs (GoString.lit "foo"))) =
      some (∅, {GoString.lit "a.py"}) := by
    decide +kernel
  obtain ⟨⟨idx, st⟩, hidx, hsets⟩ := Option.map_eq_some_iff.mp heval
  have hc := h _ [] (append_nil _).symm
  have hcur := hc.index idx (by simp [runOps, IndexState.step, hidx])
  have hdefs := hcur.defs (GoString.lit "foo")
  rw [(Prod.mk.inj hsets).1, (Prod.mk.inj hsets).2] at hdefs
  exact absurd hdefs (by decide)

end CodeMemory.Crawl
