import CodeMemory.Crawl.Extract

/-! The crawler's index: the tables kept per file, the inverted token map and
the symbol graph. A worker-local index and the shared index hold the same
tables. Map iteration order is unspecified in Go, so the slices of the symbol
graph, which are kept free of duplicates, are finite sets here. -/

namespace CodeMemory.Crawl

open Lib Lib.GoMap

structure FileStamp where
  size : Nat
  mtimeNs : Int
  deriving DecidableEq

def stampEqual (a b : FileStamp) : Bool :=
  a.size == b.size && a.mtimeNs == b.mtimeNs && decide (0 < a.size)

theorem stampEqual_iff {a b : FileStamp} : stampEqual a b = true ↔ a = b ∧ 0 < a.size := by
  cases a; cases b
  simp [stampEqual, and_assoc]

def maxIndexableFileBytes : Nat := 4 * 2 ^ 20

def maxIndexableFiles : Nat := 200000

def maxWorkers : Nat := 256

def normalizeWorkers (workers : Int) : Nat :=
  if workers < 1 then 1 else if workers > maxWorkers then maxWorkers else workers.toNat

/-- Names with the files, or files with the import paths, bound to them. -/
abbrev NameMap := GoMap GoString (Finset GoString)

structure SymbolGraph where
  defs : NameMap
  refs : NameMap
  imports : NameMap
  deriving DecidableEq

def newSymbolGraph : SymbolGraph := ⟨∅, ∅, ∅⟩

/-- `addDef`, `addRef` and `addImport`: bind `v` to `k`, unless either is empty. -/
def bindName (m : NameMap) (k v : GoString) : NameMap :=
  if k = [] ∨ v = [] then m else m.insert k (insert v ((m.lookup k).getD ∅))

def namesAt (m : NameMap) (k : GoString) : Finset GoString :=
  (m.lookup k).getD ∅

variable {m : NameMap} {k v : GoString}

theorem mem_namesAt_bindName {k' v' : GoString} :
    v' ∈ namesAt (bindName m k v) k' ↔ v' ∈ namesAt m k' ∨ (k' = k ∧ v' = v ∧ k ≠ [] ∧ v ≠ []) := by
  unfold bindName namesAt
  split_ifs with h
  · constructor
    · exact Or.inl
    · rintro (hm | ⟨-, -, hk, hv⟩)
      · exact hm
      · exact absurd h (by simp [hk, hv])
  · rw [not_or] at h
    rw [lookup_insert_eq]
    split_ifs with hk
    · subst hk
      simp only [Option.getD_some, Finset.mem_insert, true_and]
      constructor
      · rintro (rfl | hm)
        · exact Or.inr ⟨rfl, h⟩
        · exact Or.inl hm
      · rintro (hm | ⟨rfl, -⟩)
        · exact Or.inr hm
        · exact Or.inl rfl
    · simp [hk]

theorem bindName_comm (m : NameMap) (k₁ v₁ k₂ v₂ : GoString) :
    bindName (bindName m k₁ v₁) k₂ v₂ = bindName (bindName m k₂ v₂) k₁ v₁ := by
  by_cases h₁ : k₁ = [] ∨ v₁ = []
  · simp [bindName, h₁]
  by_cases h₂ : k₂ = [] ∨ v₂ = []
  · simp [bindName, h₂]
  refine Finmap.ext_lookup (fun k => ?_)
  simp only [bindName, if_neg h₁, if_neg h₂, lookup_insert_eq]
  by_cases h : k₁ = k₂
  · subst h
    by_cases hk : k = k₁
    · simp [hk, Finset.insert_comm]
    · simp [hk]
  · have h' : k₂ ≠ k₁ := fun e => h e.symm
    by_cases hk : k = k₁
    · subst hk; simp [h]
    · by_cases hk' : k = k₂
      · subst hk'; simp [h']
      · simp [hk, hk']

def bindPairs (m : NameMap) (ps : List (GoString × GoString)) : NameMap :=
  ps.foldl (fun m p => bindName m p.1 p.2) m

theorem bindPairs_bindName (m : NameMap) (ps : List (GoString × GoString)) (k v : GoString) :
    bindPairs (bindName m k v) ps = bindName (bindPairs m ps) k v := by
  induction ps generalizing m with
  | nil => rfl
  | cons p ps ih =>
    simp only [bindPairs, List.foldl_cons] at ih ⊢
    rw [bindName_comm, ih]

theorem bindPairs_comm (m : NameMap) (ps qs : List (GoString × GoString)) :
    bindPairs (bindPairs m ps) qs = bindPairs (bindPairs m qs) ps := by
  induction ps generalizing m with
  | nil => rfl
  | cons p ps ih =>
    have hcons : ∀ m, bindPairs m (p :: ps) = bindPairs (bindName m p.1 p.2) ps := fun _ => rfl
    rw [hcons, hcons, ih, bindPairs_bindName]

theorem mem_namesAt_bindPairs {ps : List (GoString × GoString)} :
    v ∈ namesAt (bindPairs m ps) k ↔ v ∈ namesAt m k ∨ ((k, v) ∈ ps ∧ k ≠ [] ∧ v ≠ []) := by
  induction ps generalizing m with
  | nil => simp [bindPairs]
  | cons p ps ih =>
    have hcons : bindPairs m (p :: ps) = bindPairs (bindName m p.1 p.2) ps := rfl
    rw [hcons, ih, mem_namesAt_bindName, List.mem_cons, Prod.ext_iff]
    constructor
    · rintro ((h | ⟨rfl, rfl, hk, hv⟩) | ⟨h, hk⟩)
      · exact Or.inl h
      · exact Or.inr ⟨Or.inl ⟨rfl, rfl⟩, hk, hv⟩
      · exact Or.inr ⟨Or.inr h, hk⟩
    · rintro (h | ⟨⟨rfl, rfl⟩ | h, hk⟩)
      · exact Or.inl (Or.inl h)
      · exact Or.inl (Or.inr ⟨rfl, rfl, hk⟩)
      · exact Or.inr ⟨h, hk⟩

/-- `for file, names := range t { for _, n := range names { … } }`, where `pairs`
lists what the loop body binds. -/
def bindLoop (pairs : GoString → GoString → List (GoString × GoString)) (m : NameMap)
    (t : GoMap GoString (List GoString)) : NameMap :=
  t.foldl (fun m file names => bindPairs m (names.flatMap (pairs file)))
    (fun m _ _ _ _ => bindPairs_comm m _ _) m

theorem mem_namesAt_bindLoop {pairs : GoString → GoString → List (GoString × GoString)}
    {t : GoMap GoString (List GoString)} : v ∈ namesAt (bindLoop pairs m t) k ↔ v ∈ namesAt m k ∨
      ∃ file names, t.lookup file = some names ∧ ((k, v) ∈ names.flatMap (pairs file) ∧ k ≠ [] ∧ v ≠ []) := by
  have h := foldl_iff (fun m file names => bindPairs m (names.flatMap (pairs file)))
    (fun m _ _ _ _ => bindPairs_comm m _ _) (fun m => v ∈ namesAt m k)
    (fun file names => (k, v) ∈ names.flatMap (pairs file) ∧ k ≠ [] ∧ v ≠ [])
    (fun _ _ _ => mem_namesAt_bindPairs) t m
  exact h

structure Tables where
  inverted : GoMap GoString (GoMap GoString Nat)
  files : Finset GoString
  filePostings : GoMap GoString (GoMap GoString Nat)
  fileDefs : GoMap GoString (List GoString)
  fileRefs : GoMap GoString (List GoString)
  fileImps : GoMap GoString (List GoString)
  fileEdges : GoMap GoString (List Edge)
  fileHashes : GoMap GoString GoString
  fileStamps : GoMap GoString FileStamp
  deriving DecidableEq

def Tables.empty : Tables := ⟨∅, ∅, ∅, ∅, ∅, ∅, ∅, ∅, ∅⟩

structure LocalIndex extends Tables where
  bytesRd : Nat

def newLocalIndex : LocalIndex := { Tables.empty with bytesRd := 0 }

structure Index extends Tables where
  symbols : SymbolGraph
  deriving DecidableEq

def newEmptyIndex : Index := { Tables.empty with symbols := newSymbolGraph }

structure Stats where
  filesIndexed : Nat
  bytesRead : Nat
  workers : Nat
  errors : Nat
  changed : Nat
  unchanged : Nat
  skippedByStamp : Nat
  hashed : Nat
  deriving DecidableEq

end CodeMemory.Crawl
