import CodeMemory.Crawl.CrawlDir

/-! What an index is for: it stands for a corpus, a partial function from paths to
file contents. `Holds` says that the per-file tables are those of a corpus, and
`Represents` that the inverted map is theirs too. Adding a file to a worker's
index and merging two indexes keep the correspondence, so the workers together
represent the corpus of all their items however the items were dealt. -/

namespace CodeMemory.Crawl

open Lib Lib.GoMap List

structure Doc where
  body : GoString
  stamp : FileStamp
  deriving DecidableEq

abbrev Corpus := GoString → Option Doc

namespace Corpus

def put (c : Corpus) (k : GoString) (d : Doc) : Corpus := fun j => if j = k then some d else c j

/-- The entries of `c`, and those of `c'` elsewhere. -/
def overlay (c c' : Corpus) : Corpus := fun k => (c k).or (c' k)

end Corpus

/-- A list that is stored only if it has elements. -/
def listed {α : Type} : List α → Option (List α)
  | [] => none
  | x :: xs => some (x :: xs)

/-- The per-file tables are those of the corpus. -/
structure Holds (tc : Toolchain) (t : Tables) (c : Corpus) : Prop where
  files : ∀ k, k ∈ t.files ↔ (c k).isSome
  filePostings : ∀ k, t.filePostings.lookup k = (c k).map (fun d => tc.tokenFreq d.body)
  fileDefs : ∀ k, t.fileDefs.lookup k = (c k).bind (fun d => listed (tc.extractSymbols k d.body).defs)
  fileRefs : ∀ k, t.fileRefs.lookup k = (c k).bind (fun d => listed (tc.extractSymbols k d.body).refs)
  fileImps : ∀ k, t.fileImps.lookup k = (c k).bind (fun d => listed (tc.extractSymbols k d.body).imports)
  fileEdges : ∀ k, t.fileEdges.lookup k = (c k).bind (fun d => listed (tc.extractTypedEdges k d.body))
  fileHashes : ∀ k, t.fileHashes.lookup k = (c k).map (fun d => tc.fileHash d.body)
  fileStamps : ∀ k, t.fileStamps.lookup k = (c k).map Doc.stamp

structure Represents (tc : Toolchain) (t : Tables) (c : Corpus) : Prop extends Holds tc t c where
  inverted : t.inverted = t.filePostings.transpose

variable {tc : Toolchain} {c c' : Corpus} {m : NameMap} {t : GoMap GoString (List GoString)} {T : Tree}
  {s : GoString × Entry} {rel : GoString} {l : LocalIndex} {idx : Index}

/-- The table has for each file of the corpus what `f` makes of it, if anything. -/
def Column {V : Type} (m : GoMap GoString V) (c : Corpus) (f : GoString → Doc → Option V) : Prop :=
  ∀ k, m.lookup k = (c k).bind (f k)

/-- The tables of a corpus, column by column. -/
theorem holds_iff {t : Tables} : Holds tc t c ↔ (∀ k, k ∈ t.files ↔ (c k).isSome) ∧
    Column t.filePostings c (fun _ d => some (tc.tokenFreq d.body)) ∧
    Column t.fileDefs c (fun k d => listed (tc.extractSymbols k d.body).defs) ∧
    Column t.fileRefs c (fun k d => listed (tc.extractSymbols k d.body).refs) ∧
    Column t.fileImps c (fun k d => listed (tc.extractSymbols k d.body).imports) ∧
    Column t.fileEdges c (fun k d => listed (tc.extractTypedEdges k d.body)) ∧
    Column t.fileHashes c (fun _ d => some (tc.fileHash d.body)) ∧
    Column t.fileStamps c (fun _ d => some d.stamp) := by
  have hmap : ∀ {V : Type} (o : Option Doc) (g : Doc → V), o.bind (fun d => some (g d)) = o.map g :=
    fun o g => by cases o <;> rfl
  simp only [Column, hmap]
  constructor
  · intro h
    exact ⟨h.files, h.filePostings, h.fileDefs, h.fileRefs, h.fileImps, h.fileEdges, h.fileHashes, h.fileStamps⟩
  · rintro ⟨hf, hp, hd, hr, hi, he, hh, hs⟩
    exact ⟨hf, hp, hd, hr, hi, he, hh, hs⟩

namespace Column

variable {V : Type} {m m' : GoMap GoString V} {f : GoString → Doc → Option V}

theorem unique (h : Column m c f) (h' : Column m' c f) : m = m' := Finmap.ext_lookup fun k => by rw [h, h']

theorem none (h : Column m c f) (hrel : c rel = none) : m.lookup rel = none := by
  rw [h, hrel]
  rfl

theorem put (h : Column m c f) {d : Doc} (hm : ∀ k, m'.lookup k = if k = rel then f rel d else m.lookup k) :
    Column m' (c.put rel d) f := by
  intro k
  rw [hm, h, Corpus.put]
  split_ifs with hk <;> simp [hk]

theorem disjoint (h : Column m c f) (h' : Column m' c' f) (hdis : ∀ k, c k = .none ∨ c' k = .none) (k : GoString) :
    m.lookup k = .none ∨ m'.lookup k = .none := (hdis k).imp h.none h'.none

theorem overlay (h : Column m c f) (h' : Column m' c' f) (hdis : ∀ k, c k = .none ∨ c' k = .none) :
    Column (m.copyInto m') (c'.overlay c) f := by
  intro k
  rw [lookup_copyInto, h, h', Corpus.overlay]
  rcases hdis k with hk | hk <;> simp [hk]

end Column

/-- A corpus determines the tables that stand for it. -/
theorem Represents.unique {t t' : Tables} (h : Represents tc t c) (h' : Represents tc t' c) : t = t' := by
  obtain ⟨hf, hp, hd, hr, hm, he, hh, hs⟩ := holds_iff.mp h.toHolds
  obtain ⟨hf', hp', hd', hr', hm', he', hh', hs'⟩ := holds_iff.mp h'.toHolds
  have hi : t.inverted = t'.inverted := by rw [h.inverted, h'.inverted, hp.unique hp']
  have hfiles : t.files = t'.files := Finset.ext (fun k => by rw [hf, hf'])
  cases t; cases t'
  simp only [Tables.mk.injEq]
  exact ⟨hi, hfiles, hp.unique hp', hd.unique hd', hr.unique hr', hm.unique hm', he.unique he', hh.unique hh',
    hs.unique hs'⟩

theorem represents_empty : Represents tc Tables.empty (fun _ => none) where
  files _ := by simp [Tables.empty]
  filePostings _ := by simp [Tables.empty]
  fileDefs _ := by simp [Tables.empty]
  fileRefs _ := by simp [Tables.empty]
  fileImps _ := by simp [Tables.empty]
  fileEdges _ := by simp [Tables.empty]
  fileHashes _ := by simp [Tables.empty]
  fileStamps _ := by simp [Tables.empty]
  inverted := Tidy.ext tidy_empty (tidy_transpose _) (fun _ _ => by
    rw [at2_transpose]; simp [Tables.empty, at2])

theorem lookup_insertNonempty {α : Type} {m : GoMap GoString (List α)}
    (hm : m.lookup rel = none) (xs : List α) (k : GoString) :
    (insertNonempty m rel xs).lookup k = if k = rel then listed xs else m.lookup k := by
  cases xs with
  | nil =>
    simp only [insertNonempty, listed]
    split_ifs with hk
    · rw [hk, hm]
    · rfl
  | cons x xs => simp only [insertNonempty, listed, lookup_insert_eq]

/-- Adding one file's frequencies to the inverted map adds them to its transpose. -/
theorem update_eq_transpose {inv : GoMap GoString (GoMap GoString Nat)}
    {posts : GoMap GoString (GoMap GoString Nat)} (hinv : inv = posts.transpose)
    (hrel : posts.lookup rel = none) (freq : GoMap GoString Nat) :
    update (fun _ n old => (old.getD ∅).insert rel (((old.getD ∅).lookup rel).getD 0 + n)) inv freq =
      transpose (posts.insert rel freq) := by
  have hat : ∀ tok k, at2 inv tok k = at2 posts k tok := fun tok k => by rw [hinv, at2_transpose]
  have hnone : ∀ tok, at2 inv tok rel = none := fun tok => by rw [hat, at2, hrel]; rfl
  have hold : ∀ tok k, ((inv.lookup tok).getD ∅).lookup k = at2 inv tok k := by
    intro tok k
    unfold at2
    cases inv.lookup tok <;> simp
  refine Tidy.ext ?_ (tidy_transpose _) (fun tok k => ?_)
  · intro tok inner h he
    rw [lookup_update] at h
    cases hf : freq.lookup tok with
    | none =>
      rw [hf] at h
      exact (hinv ▸ tidy_transpose posts : Tidy inv) tok inner h he
    | some n =>
      rw [hf] at h
      cases h
      have := congrArg (Finmap.lookup rel) he
      rw [Finmap.lookup_insert, Finmap.lookup_empty] at this
      cases this
  · rw [at2_transpose]
    simp only [at2, lookup_update, lookup_insert_eq]
    cases hf : freq.lookup tok with
    | none =>
      simp only
      split_ifs with hk
      · subst hk
        rw [Option.bind_some, hf]
        exact hnone tok
      · exact hat tok k
    | some n =>
      simp only [Option.bind_some, lookup_insert_eq]
      split_ifs with hk
      · rw [hold, hnone, Option.bind_some, hf]
        simp
      · rw [hold]
        exact hat tok k

theorem Represents.addLoaded (h : Represents tc l.toTables c)
    (hrel : c rel = none) {x : Loaded} (hx : x.hash = tc.fileHash x.raw) :
    Represents tc (l.addLoaded tc rel x).toTables (c.put rel ⟨x.raw, x.stamp⟩) := by
  obtain ⟨hf, hp, hd, hr, hm, he, hh, hs⟩ := holds_iff.mp h.toHolds
  refine ⟨holds_iff.mpr ⟨fun k => ?_, hp.put fun k => lookup_insert_eq _ _ k _,
    hd.put (lookup_insertNonempty (hd.none hrel) _),
    hr.put (lookup_insertNonempty (hr.none hrel) _), hm.put (lookup_insertNonempty (hm.none hrel) _),
    he.put (lookup_insertNonempty (he.none hrel) _), hh.put fun k => ?_, hs.put fun k => lookup_insert_eq _ _ k _⟩,
    update_eq_transpose h.inverted (hp.none hrel) _⟩
  · simp only [LocalIndex.addLoaded, LocalIndex.add, Finset.mem_insert, hf, Corpus.put]
    split_ifs with hk <;> simp [hk]
  · rw [← hx]
    exact lookup_insert_eq _ _ k _

theorem at2_mergeInverted (d m : GoMap GoString (GoMap GoString Nat)) (tok k : GoString) :
    at2 (mergeInverted d m) tok k = match at2 m tok k with
      | none => at2 d tok k
      | some n => some ((at2 d tok k).getD 0 + n) := by
  simp only [at2, mergeInverted, lookup_update]
  cases m.lookup tok with
  | none => simp
  | some postings =>
    simp only [Option.bind_some, lookup_update]
    cases postings.lookup k <;> cases d.lookup tok <;> simp

theorem tidy_mergeInverted {d m : GoMap GoString (GoMap GoString Nat)} (hd : Tidy d) (hm : Tidy m) :
    Tidy (mergeInverted d m) := by
  intro tok inner h he
  rw [mergeInverted, lookup_update] at h
  cases hf : m.lookup tok with
  | none => rw [hf] at h; exact hd tok inner h he
  | some postings =>
    rw [hf] at h
    obtain ⟨k, n, hn⟩ := hm.exists_at2 hf
    have hn : postings.lookup k = some n := by simpa [at2, hf] using hn
    have := congrArg (Finmap.lookup k) ((Option.some.inj h).trans he)
    rw [lookup_update, hn, Finmap.lookup_empty] at this
    cases this

theorem mergeInverted_eq_transpose {p q : GoMap GoString (GoMap GoString Nat)}
    (hdis : ∀ k, p.lookup k = none ∨ q.lookup k = none) :
    mergeInverted p.transpose q.transpose = transpose (p.copyInto q) := by
  refine Tidy.ext (tidy_mergeInverted (tidy_transpose p) (tidy_transpose q)) (tidy_transpose _)
    (fun tok k => ?_)
  rw [at2_mergeInverted, at2_transpose, at2_transpose, at2_transpose]
  simp only [at2, lookup_copyInto]
  rcases hdis k with h | h
  · rw [h]
    cases q.lookup k with
    | none => rfl
    | some inner => cases hi : inner.lookup tok <;> simp [hi]
  · rw [h]; simp

theorem Represents.mergeInto (h : Represents tc idx.toTables c) (h' : Represents tc l.toTables c')
    (hdis : ∀ k, c k = none ∨ c' k = none) : Represents tc (l.mergeInto idx).toTables (c'.overlay c) := by
  obtain ⟨hf, hp, hd, hr, hm, he, hh, hs⟩ := holds_iff.mp h.toHolds
  obtain ⟨hf', hp', hd', hr', hm', he', hh', hs'⟩ := holds_iff.mp h'.toHolds
  refine ⟨holds_iff.mpr ⟨fun k => ?_, hp.overlay hp' hdis, hd.overlay hd' hdis, hr.overlay hr' hdis,
    hm.overlay hm' hdis, he.overlay he' hdis, hh.overlay hh' hdis, hs.overlay hs' hdis⟩, ?_⟩
  · simp only [LocalIndex.mergeInto, Finset.mem_union, hf, hf', Corpus.overlay]
    cases c' k <;> cases c k <;> simp
  · exact (by rw [h.inverted, h'.inverted, mergeInverted_eq_transpose (hp.disjoint hp' hdis)] :
      mergeInverted idx.inverted l.inverted = transpose (idx.filePostings.copyInto l.filePostings))

/-- `n` is a non-empty name that the table lists for the file `f`. -/
def Lists (t : GoMap GoString (List GoString)) (n f : GoString) : Prop :=
  (∃ ns, t.lookup f = some ns ∧ n ∈ ns) ∧ n ≠ [] ∧ f ≠ []

/-- The symbol graph binds exactly the names that the per-file tables list. -/
structure RawSymbols (idx : Index) : Prop where
  defs : ∀ n f, f ∈ namesAt idx.symbols.defs n ↔ Lists idx.fileDefs n f
  refs : ∀ n f, f ∈ namesAt idx.symbols.refs n ↔ Lists idx.fileRefs n f
  imports : ∀ f p, p ∈ namesAt idx.symbols.imports f ↔ Lists idx.fileImps p f

theorem lists_copyInto {d m : GoMap GoString (List GoString)}
    (hdis : ∀ f, d.lookup f = none ∨ m.lookup f = none) (n f : GoString) :
    Lists (d.copyInto m) n f ↔ Lists d n f ∨ Lists m n f := by
  simp only [Lists, lookup_copyInto]
  rcases hdis f with h | h <;> simp [h]

theorem mem_namesAt_bindLoop_swap {n f : GoString} :
    f ∈ namesAt (bindLoop (fun file d => [(d, file)]) m t) n ↔ f ∈ namesAt m n ∨ Lists t n f := by
  rw [mem_namesAt_bindLoop]
  simp only [mem_flatMap, mem_singleton, Prod.mk.injEq, Lists]
  refine or_congr_right ⟨?_, ?_⟩
  · rintro ⟨file, ns, hl, ⟨d, hd, rfl, rfl⟩, hne⟩
    exact ⟨⟨ns, hl, hd⟩, hne⟩
  · rintro ⟨⟨ns, hl, hn⟩, hne⟩
    exact ⟨f, ns, hl, ⟨n, hn, rfl, rfl⟩, hne⟩

theorem mem_namesAt_bindLoop_import {p f : GoString} :
    p ∈ namesAt (bindLoop (fun file d => [(file, d)]) m t) f ↔ p ∈ namesAt m f ∨ Lists t p f := by
  rw [mem_namesAt_bindLoop]
  simp only [mem_flatMap, mem_singleton, Prod.mk.injEq, Lists]
  refine or_congr_right ⟨?_, ?_⟩
  · rintro ⟨file, ns, hl, ⟨d, hd, rfl, rfl⟩, hf, hp⟩
    exact ⟨⟨ns, hl, hd⟩, hp, hf⟩
  · rintro ⟨⟨ns, hl, hn⟩, hp, hf⟩
    exact ⟨f, ns, hl, ⟨p, hn, rfl, rfl⟩, hf, hp⟩

/-- An index as a crawl leaves it: the tables stand for the corpus, and the symbol
graph is that of the tables. -/
structure Crawled (tc : Toolchain) (idx : Index) (c : Corpus) : Prop
    extends Represents tc idx.toTables c, RawSymbols idx

theorem crawled_empty : Crawled tc newEmptyIndex (fun _ => none) where
  toRepresents := represents_empty
  defs n f := by simp [newEmptyIndex, newSymbolGraph, namesAt, Tables.empty, Lists]
  refs n f := by simp [newEmptyIndex, newSymbolGraph, namesAt, Tables.empty, Lists]
  imports n f := by simp [newEmptyIndex, newSymbolGraph, namesAt, Tables.empty, Lists]

theorem Crawled.mergeInto (h : Crawled tc idx c)
    (h' : Represents tc l.toTables c') (hdis : ∀ k, c k = none ∨ c' k = none) :
    Crawled tc (l.mergeInto idx) (c'.overlay c) where
  toRepresents := h.toRepresents.mergeInto h' hdis
  defs n f := by
    simp only [LocalIndex.mergeInto]
    rw [mem_namesAt_bindLoop_swap, h.defs, lists_copyInto (Column.disjoint h.fileDefs h'.fileDefs hdis)]
  refs n f := by
    simp only [LocalIndex.mergeInto]
    rw [mem_namesAt_bindLoop_swap, h.refs, lists_copyInto (Column.disjoint h.fileRefs h'.fileRefs hdis)]
  imports f p := by
    simp only [LocalIndex.mergeInto]
    rw [mem_namesAt_bindLoop_import, h.imports, lists_copyInto (Column.disjoint h.fileImps h'.fileImps hdis)]

section Lists

variable {α : Type} {key : α → GoString} {doc : α → Option Doc} {xs : List α} {k : GoString} {x : α}

def listCorpus (key : α → GoString) (doc : α → Option Doc) (xs : List α) : Corpus :=
  fun k => (xs.find? (fun x => key x = k)).bind doc

theorem listCorpus_cons (x : α) (xs : List α) (k : GoString) :
    listCorpus key doc (x :: xs) k = if key x = k then doc x else listCorpus key doc xs k := by
  simp only [listCorpus, List.find?_cons]
  split_ifs with h <;> simp [h]

theorem listCorpus_eq_none (h : k ∉ xs.map key) : listCorpus key doc xs k = none := by
  rw [listCorpus, find?_key_eq_none h, Option.bind_none]

theorem listCorpus_of_mem (hn : (xs.map key).Nodup) (hx : x ∈ xs) : listCorpus key doc xs (key x) = doc x := by
  rw [listCorpus, find?_key_eq_some hn hx, Option.bind_some]

theorem listCorpus_perm {ys : List α} (hp : xs.Perm ys) (hn : (ys.map key).Nodup) :
    listCorpus key doc xs = listCorpus key doc ys := by
  have hn' : (xs.map key).Nodup := (hp.map _).nodup_iff.mpr hn
  funext k
  by_cases hk : k ∈ ys.map key
  · obtain ⟨y, hy, rfl⟩ := mem_map.mp hk
    rw [listCorpus_of_mem hn hy, listCorpus_of_mem hn' (hp.mem_iff.mpr hy)]
  · have hk' : k ∉ xs.map key := fun h => hk ((hp.map key).mem_iff.mp h)
    rw [listCorpus_eq_none hk, listCorpus_eq_none hk']

theorem listCorpus_append (xs ys : List α) (hn : ((xs ++ ys).map key).Nodup) :
    listCorpus key doc (xs ++ ys) = (listCorpus key doc ys).overlay (listCorpus key doc xs) := by
  rw [map_append, nodup_append] at hn
  obtain ⟨-, -, hdis⟩ := hn
  funext k
  simp only [Corpus.overlay]
  by_cases hy : k ∈ ys.map key
  · have hx : k ∉ xs.map key := fun hx => hdis k hx k hy rfl
    rw [listCorpus_eq_none hx, Option.or_none]
    simp only [listCorpus, List.find?_append, find?_key_eq_none hx, Option.none_or]
  · rw [listCorpus_eq_none hy, Option.none_or]
    simp only [listCorpus, List.find?_append, find?_key_eq_none hy, Option.or_none]

theorem listCorpus_congr {doc' : α → Option Doc} (h : ∀ x ∈ xs, doc x = doc' x) :
    listCorpus key doc xs = listCorpus key doc' xs := by
  funext k
  cases hf : xs.find? (fun x => key x = k) with
  | none => simp only [listCorpus, hf, Option.bind_none]
  | some x => simp only [listCorpus, hf, Option.bind_some, h x (mem_of_find?_eq_some hf)]

end Lists

section Workers

variable {α : Type} (load : α → GoString × Option Loaded)

def loadedDoc (x : α) : Option Doc := (load x).2.map (fun y => ⟨y.raw, y.stamp⟩)

def loadKey (x : α) : GoString := (load x).1

variable {load}

/-- The hash an item was loaded with is that of its contents. -/
def HashedItem (tc : Toolchain) (load : α → GoString × Option Loaded) (x : α) : Prop :=
  ∀ y, (load x).2 = some y → y.hash = tc.fileHash y.raw

theorem represents_foldl_workerStep (shard : List α) {l : LocalIndex} {c : Corpus}
    (h : Represents tc l.toTables c) (hload : ∀ x ∈ shard, HashedItem tc load x)
    (hn : (shard.map (loadKey load)).Nodup) (hfresh : ∀ x ∈ shard, c (loadKey load x) = none) :
    Represents tc (shard.foldl (workerStep tc load) l).toTables
      ((listCorpus (loadKey load) (loadedDoc load) shard).overlay c) := by
  induction shard generalizing l c with
  | nil => exact h
  | cons x xs ih =>
    rw [map_cons, nodup_cons] at hn
    rw [foldl_cons]
    cases hx : (load x).2 with
    | none =>
      have hstep : workerStep tc load l x = l := by simp [workerStep, hx]
      have hc : (listCorpus (loadKey load) (loadedDoc load) (x :: xs)).overlay c =
        (listCorpus (loadKey load) (loadedDoc load) xs).overlay c := by
        funext k
        simp only [Corpus.overlay, listCorpus_cons, loadedDoc, hx]
        split_ifs with hk
        · rw [listCorpus_eq_none (hk ▸ hn.1)]; rfl
        · rfl
      rw [hstep, hc]
      exact ih h (fun y hy => hload y (by simp [hy])) hn.2 (fun y hy => hfresh y (by simp [hy]))
    | some y =>
      have hstep : workerStep tc load l x = l.addLoaded tc (loadKey load x) y := by
        simp [workerStep, loadKey, hx]
      have hc : (listCorpus (loadKey load) (loadedDoc load) (x :: xs)).overlay c =
          (listCorpus (loadKey load) (loadedDoc load) xs).overlay (c.put (loadKey load x) ⟨y.raw, y.stamp⟩) := by
        funext k
        simp only [Corpus.overlay, Corpus.put, listCorpus_cons, loadedDoc, hx]
        by_cases hk : loadKey load x = k
        · rw [listCorpus_eq_none (hk ▸ hn.1)]; simp [hk]
        · rw [if_neg hk, if_neg (fun e => hk e.symm)]
      rw [hstep, hc]
      refine ih (h.addLoaded (hfresh x (by simp)) (hload x (by simp) y hx))
        (fun z hz => hload z (by simp [hz])) hn.2 (fun z hz => ?_)
      have hne : loadKey load z ≠ loadKey load x := fun e => hn.1 (mem_map.mpr ⟨z, hz, e⟩)
      simp [Corpus.put, hne, hfresh z (by simp [hz])]

theorem crawled_foldl_mergeInto (shards : List (List α)) {idx : Index} {c : Corpus}
    (h : Crawled tc idx c) (hload : ∀ x ∈ shards.flatten, HashedItem tc load x)
    (hn : (shards.flatten.map (loadKey load)).Nodup) (hfresh : ∀ x ∈ shards.flatten, c (loadKey load x) = none) :
    Crawled tc ((shards.map (runWorker tc load)).foldl (fun idx l => l.mergeInto idx) idx)
      ((listCorpus (loadKey load) (loadedDoc load) shards.flatten).overlay c) := by
  induction shards generalizing idx c with
  | nil => exact h
  | cons shard shards ih =>
    have hn' := hn
    rw [flatten_cons, map_append, nodup_append] at hn'
    obtain ⟨hn₁, hn₂, hdis⟩ := hn'
    have hw : Represents tc (runWorker tc load shard).toTables (listCorpus (loadKey load) (loadedDoc load) shard) := by
      have := represents_foldl_workerStep shard (l := newLocalIndex) represents_empty
        (fun x hx => hload x (by simp [hx])) hn₁ (fun _ _ => rfl)
      have hover : (listCorpus (loadKey load) (loadedDoc load) shard).overlay (fun _ => none) =
        listCorpus (loadKey load) (loadedDoc load) shard := by
        funext k; simp [Corpus.overlay]
      rwa [hover] at this
    have hfree : ∀ k, c k = none ∨ listCorpus (loadKey load) (loadedDoc load) shard k = none := by
      intro k
      by_cases hk : k ∈ shard.map (loadKey load)
      · obtain ⟨x, hx, rfl⟩ := mem_map.mp hk
        exact Or.inl (hfresh x (by simp [hx]))
      · exact Or.inr (listCorpus_eq_none hk)
    have hover : (listCorpus (loadKey load) (loadedDoc load) (shard :: shards).flatten).overlay c =
        (listCorpus (loadKey load) (loadedDoc load) shards.flatten).overlay
          ((listCorpus (loadKey load) (loadedDoc load) shard).overlay c) := by
      rw [flatten_cons, listCorpus_append _ _ (by simpa using hn)]
      funext k
      simp [Corpus.overlay, Option.or_assoc]
    rw [map_cons, foldl_cons, hover]
    refine ih (h.mergeInto hw hfree) (fun x hx => hload x (by simp [hx])) hn₂ (fun x hx => ?_)
    have hk : loadKey load x ∉ shard.map (loadKey load) :=
      fun hm => hdis _ hm _ (mem_map.mpr ⟨x, hx, rfl⟩) rfl
    simp only [Corpus.overlay, listCorpus_eq_none hk, Option.none_or]
    exact hfresh x (by simp [hx])

/-- The workers together represent the corpus of all items, however they were dealt. -/
theorem crawled_mergeAll (sched : Scheduler α) {workers : Nat} (hw : 0 < workers) {items : List α}
    (hload : ∀ x ∈ items, HashedItem tc load x) (hn : (items.map (loadKey load)).Nodup) :
    Crawled tc (mergeAll ((sched.deal workers items).map (runWorker tc load)))
      (listCorpus (loadKey load) (loadedDoc load) items) := by
  have hp := sched.perm_deal workers items hw
  have hn' : ((sched.deal workers items).flatten.map (loadKey load)).Nodup :=
    (hp.map _).nodup_iff.mpr hn
  have := crawled_foldl_mergeInto (sched.deal workers items)
    crawled_empty (fun x hx => hload x (hp.mem_iff.mp hx)) hn' (fun _ _ => rfl)
  have hover : (listCorpus (loadKey load) (loadedDoc load) (sched.deal workers items).flatten).overlay (fun _ => none) =
      listCorpus (loadKey load) (loadedDoc load) items := by
    rw [listCorpus_perm hp hn]
    funext k
    simp [Corpus.overlay]
  rwa [hover] at this

end Workers

def Entry.doc : Entry → Option Doc
  | .regular stamp body => body.map (fun raw => ⟨raw, stamp⟩)
  | .symlink _ _ => none
  | .irregular _ => none

theorem Entry.doc_of_indexable {e : Entry} (h : indexableFile e.lstat = true) :
    e.doc = e.read.map (fun raw => ⟨raw, e.lstat.stamp⟩) := by
  cases e with
  | regular s b => rfl
  | symlink s t | irregular s => simp [indexableFile, Entry.lstat] at h

def sourceCorpus (sources : List (GoString × Entry)) : Corpus :=
  listCorpus Prod.fst (fun s => s.2.doc) sources

def Tree.corpus (tc : Toolchain) (ign : GoString → Bool → Bool) (T : Tree) : Corpus :=
  sourceCorpus (T.sources tc ign)

theorem Tree.sources_keys_nodup (ign : GoString → Bool → Bool) (T : Tree) :
    ((T.sources tc ign).map Prod.fst).Nodup :=
  List.Nodup.sublist (filter_sublist.map _) (T.walk_keys_nodup ign _)

theorem Tree.indexable_of_mem_sources {ign : GoString → Bool → Bool}
    (hs : s ∈ T.sources tc ign) : indexableFile s.2.lstat = true := by
  have := (mem_filter.mp hs).2
  rw [Bool.and_eq_true] at this
  exact this.1

theorem loadedDoc_loadSource (hs : indexableFile s.2.lstat = true) : loadedDoc (loadSource tc) s = s.2.doc := by
  rw [Entry.doc_of_indexable hs, loadedDoc, loadSource, Entry.stat_of_indexable hs]
  simp only [Option.bind_some, if_pos hs, Option.map_map]
  rfl

theorem hashedItem_loadSource (s : GoString × Entry) : HashedItem tc (loadSource tc) s := by
  intro y h
  obtain ⟨info, -, h⟩ := Option.bind_eq_some_iff.mp h
  split_ifs at h
  obtain ⟨raw, -, rfl⟩ := Option.map_eq_some_iff.mp h
  rfl

/-- A full crawl represents the corpus of the first `maxIndexableFiles` source files. -/
theorem crawled_crawlDir {sched : Scheduler (GoString × Entry)} {workers : Int}
    {st : Stats} (h : crawlDir tc sched T workers = some (idx, st)) : ∃ m, T.ignores tc = some m ∧
      Crawled tc idx (sourceCorpus ((T.sources tc m.ignored).take maxIndexableFiles)) := by
  unfold crawlDir at h
  split at h
  · cases h
  · rename_i m hm
    refine ⟨m, hm, ?_⟩
    cases h
    have hsub : ((T.sources tc m.ignored).take maxIndexableFiles).Sublist (T.sources tc m.ignored) :=
      take_sublist _ _
    have hn : (((T.sources tc m.ignored).take maxIndexableFiles).map (loadKey (loadSource tc))).Nodup :=
      List.Nodup.sublist (hsub.map _) (T.sources_keys_nodup m.ignored)
    have hc : listCorpus (loadKey (loadSource tc)) (loadedDoc (loadSource tc))
        ((T.sources tc m.ignored).take maxIndexableFiles) =
        sourceCorpus ((T.sources tc m.ignored).take maxIndexableFiles) :=
      listCorpus_congr (fun s hs => loadedDoc_loadSource
        (T.indexable_of_mem_sources (hsub.subset hs)))
    rw [← hc]
    exact crawled_mergeAll sched (normalizeWorkers_pos workers) (fun s _ => hashedItem_loadSource s) hn

theorem crawlDir_isSome (sched : Scheduler (GoString × Entry)) (workers : Int)
    {m : Ignore.Matcher} (hm : T.ignores tc = some m) : ∃ idx st, crawlDir tc sched T workers = some (idx, st) := by
  simp only [crawlDir, hm]
  exact ⟨_, _, rfl⟩

/-- What a crawl stores: the tables, and the files or modules bound to each name of the symbol graph. -/
def Index.stored (idx : Index) : Tables × (GoString → Finset GoString) × (GoString → Finset GoString) ×
    (GoString → Finset GoString) :=
  (idx.toTables, namesAt idx.symbols.defs, namesAt idx.symbols.refs, namesAt idx.symbols.imports)

theorem Crawled.unique {idx' : Index} (h : Crawled tc idx c) (h' : Crawled tc idx' c) :
    idx.stored = idx'.stored := by
  have ht := h.toRepresents.unique h'.toRepresents
  refine Prod.ext ht (Prod.ext ?_ (Prod.ext ?_ ?_)) <;> funext n <;> ext f
  · exact (h.defs n f).trans (ht ▸ (h'.defs n f).symm)
  · exact (h.refs n f).trans (ht ▸ (h'.refs n f).symm)
  · exact (h.imports n f).trans (ht ▸ (h'.imports n f).symm)

/-- However the files are dealt to however many workers, a full crawl fails or stores the same. -/
theorem crawlDir_schedule_irrelevant (tc : Toolchain) (T : Tree) (sched sched' : Scheduler (GoString × Entry))
    (workers workers' : Int) :
    (crawlDir tc sched T workers).map (fun r => r.1.stored) =
      (crawlDir tc sched' T workers').map (fun r => r.1.stored) := by
  cases hm : T.ignores tc with
  | none => simp only [crawlDir, hm, Option.map_none]
  | some m =>
    obtain ⟨idx, st, h⟩ := crawlDir_isSome sched workers hm
    obtain ⟨idx', st', h'⟩ := crawlDir_isSome sched' workers' hm
    obtain ⟨m₁, hm₁, hc⟩ := crawled_crawlDir h
    obtain ⟨m₂, hm₂, hc'⟩ := crawled_crawlDir h'
    obtain rfl : m₁ = m₂ := Option.some.inj (hm₁.symm.trans hm₂)
    rw [h, h', Option.map_some, Option.map_some, hc.unique hc']

end CodeMemory.Crawl
