import CodeMemory.Lib.GoMap

/-! Inverted indexes: for each term the set of the documents that have it. Terms
without a document are not kept. An index is exact for a store of documents if it
lists a document under a term exactly when the stored document has the term. -/

namespace CodeMemory.Lib

/-- A Go `map[T]map[D]struct{}`. -/
abbrev Postings (T D : Type) := GoMap T (Finset D)

namespace Postings

variable {T D V : Type} [DecidableEq T] [DecidableEq D]

def under (p : Postings T D) (t : T) : Finset D := (p.lookup t).getD ∅

def add (p : Postings T D) (d : D) (t : T) : Postings T D := p.insert t (insert d (p.under t))

def addAll (p : Postings T D) (d : D) (terms : List T) : Postings T D := terms.foldl (fun p t => p.add d t) p

/-- Documents are dropped from every term. -/
def drop (p : Postings T D) (ds : Finset D) : Postings T D :=
  GoMap.filterMap (fun s => if s \ ds = ∅ then none else some (s \ ds)) p

omit [DecidableEq D] in
@[simp] theorem under_empty (t : T) : (∅ : Postings T D).under t = ∅ := by
  simp [under]

variable {p : Postings T D}

theorem mem_add {d e : D} {t u : T} : e ∈ (p.add d t).under u ↔ e ∈ p.under u ∨ e = d ∧ u = t := by
  rw [add, under, GoMap.lookup_insert_eq]
  split_ifs with h
  · subst h
    rw [Option.getD_some, Finset.mem_insert]
    tauto
  · tauto

theorem mem_addAll {d e : D} {terms : List T} {u : T} :
    e ∈ (p.addAll d terms).under u ↔ e ∈ p.under u ∨ e = d ∧ u ∈ terms := by
  induction terms generalizing p with
  | nil => simp [addAll]
  | cons t terms ih =>
    change e ∈ ((p.add d t).addAll d terms).under u ↔ _
    rw [ih, mem_add, List.mem_cons]
    tauto

theorem mem_drop {ds : Finset D} {e : D} {u : T} : e ∈ (p.drop ds).under u ↔ e ∈ p.under u ∧ e ∉ ds := by
  rw [drop, under, GoMap.lookup_filterMap, under]
  cases p.lookup u with
  | none => simp
  | some s =>
    rw [Option.bind_some, Option.getD_some, ← Finset.mem_sdiff]
    split_ifs with h
    · rw [h]
      rfl
    · rfl

section Exact

variable (terms : V → List T)

def Exact (docs : GoMap D V) (p : Postings T D) : Prop :=
  ∀ t d, d ∈ p.under t ↔ ∃ v, docs.lookup d = some v ∧ t ∈ terms v

variable {terms} {docs : GoMap D V} {p : Postings T D}

theorem exact_empty : Exact terms (∅ : GoMap D V) (∅ : Postings T D) := by
  intro t d
  simp

/-- A document takes the place of the one with its id. -/
theorem Exact.replace (h : Exact terms docs p) (d : D) (v : V) :
    Exact terms (docs.insert d v) ((p.drop {d}).addAll d (terms v)) := by
  intro t e
  rw [mem_addAll, mem_drop, Finset.mem_singleton, h t e, GoMap.lookup_insert_eq]
  split_ifs with he
  · subst he
    simp
  · simp [he]

/-- Documents are removed from the store and from the index. -/
theorem Exact.drop (h : Exact terms docs p) {docs' : GoMap D V} {ds : Finset D}
    (hdocs : ∀ d, docs'.lookup d = if d ∈ ds then none else docs.lookup d) : Exact terms docs' (p.drop ds) := by
  intro t d
  rw [mem_drop, h t d, hdocs]
  split_ifs with hd
  · simp [hd]
  · simp [hd]

end Exact

end Postings

end CodeMemory.Lib
