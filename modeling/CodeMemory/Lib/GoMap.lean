import Mathlib

/-! Finite maps as Go's built-in `map` type uses them: Mathlib's `Finmap` with
one value type, a comprehension to build one, and the `range` loops that occur
in practice. A loop that writes one key per iteration is `update`, a loop that
swaps the two levels of a nested map is `transpose`, and every other loop is
`Finmap.foldl`, whose effect on a disjunctive observation is `foldl_iff`.
Iteration order is unspecified in Go, so no result here depends on one. -/

namespace CodeMemory.Lib

abbrev GoMap (K V : Type) := Finmap (fun _ : K => V)

namespace GoMap

variable {K J V W : Type} [DecidableEq K] [DecidableEq J]

/-- The map with the value `f k` at each key `k` of `s` where `f` is defined. -/
def build (s : Finset K) (f : K → Option V) : GoMap K V :=
  Finmap.keysLookupEquiv.symm ⟨(s.filter (fun k => (f k).isSome),
    fun k => if k ∈ s then f k else none), by intro k; by_cases h : k ∈ s <;> simp [h]⟩

@[simp] theorem lookup_build (s : Finset K) (f : K → Option V) (k : K) :
    (build s f).lookup k = if k ∈ s then f k else none := by
  simp [build]

variable (p : K → Bool)

/-- The entries for which `p` holds of the key. -/
def filterKeys (m : GoMap K V) : GoMap K V :=
  build m.keys (fun k => if p k then m.lookup k else none)

variable {m : GoMap K V} {k : K}

theorem lookup_of_notMem_keys (h : k ∉ m.keys) : m.lookup k = none :=
  Finmap.lookup_eq_none.mpr (fun hk => h (Finmap.mem_keys.mpr hk))

theorem mem_keys_iff : k ∈ m.keys ↔ ∃ v, m.lookup k = some v :=
  Finmap.mem_keys.trans Finmap.mem_iff

theorem mem_keys_of_lookup {v : V} (h : m.lookup k = some v) : k ∈ m.keys := mem_keys_iff.mpr ⟨v, h⟩

@[simp] theorem lookup_filterKeys (m : GoMap K V) (k : K) :
    (filterKeys p m).lookup k = if p k then m.lookup k else none := by
  rw [filterKeys, lookup_build]
  split_ifs with hk hp hp
  · rfl
  · rfl
  · exact (lookup_of_notMem_keys hk).symm
  · rfl

theorem mem_keys_filterKeys (m : GoMap K V) (k : K) : k ∈ (filterKeys p m).keys ↔ p k = true ∧ k ∈ m.keys := by
  simp only [mem_keys_iff, lookup_filterKeys]
  split_ifs with hp <;> simp [hp]

theorem lookup_insert_eq (m : GoMap K V) (k j : K) (v : V) :
    (m.insert k v).lookup j = if j = k then some v else m.lookup j := by
  split_ifs with h
  · rw [h, Finmap.lookup_insert]
  · rw [Finmap.lookup_insert_of_ne m h]

theorem lookup_erase_eq (m : GoMap K V) (k j : K) :
    (m.erase k).lookup j = if j = k then none else m.lookup j := by
  split_ifs with h
  · rw [h, Finmap.lookup_erase]
  · rw [Finmap.lookup_erase_ne h]

section

variable {α : Type} {key : α → K} {xs : List α}

theorem find?_key_eq_none (h : k ∉ xs.map key) : xs.find? (fun x => key x = k) = none := by
  rw [List.find?_eq_none]
  intro x hm hk
  exact h (List.mem_map.mpr ⟨x, hm, by simpa using hk⟩)

theorem find?_key_eq_some {x : α} (hn : (xs.map key).Nodup) (hx : x ∈ xs) :
    xs.find? (fun y => key y = key x) = some x := by
  induction xs with
  | nil => cases hx
  | cons y ys ih =>
    rw [List.map_cons, List.nodup_cons] at hn
    rcases List.mem_cons.mp hx with rfl | hx
    · simp
    · have hne : key y ≠ key x := fun e => hn.1 (List.mem_map.mpr ⟨x, hx, e.symm⟩)
      rw [List.find?_cons_of_neg (by simpa using hne), ih hn.2 hx]

/-- A loop that stores a value under a key of its own for each element. -/
theorem lookup_foldl_insert {val : α → V} (hn : (xs.map key).Nodup) (m : GoMap K V) (k : K) :
    (xs.foldl (fun m x => m.insert (key x) (val x)) m).lookup k =
      ((xs.find? (fun x => key x = k)).map val).or (m.lookup k) := by
  induction xs generalizing m with
  | nil => rfl
  | cons x xs ih =>
    rw [List.map_cons, List.nodup_cons] at hn
    rw [List.foldl_cons, ih hn.2, lookup_insert_eq, List.find?_cons]
    by_cases hk : key x = k
    · rw [find?_key_eq_none (hk ▸ hn.1)]
      simp [hk]
    · rw [if_neg (fun e => hk e.symm)]
      simp [hk]

end

theorem keys_eq_empty : m.keys = ∅ ↔ m = ∅ := by
  constructor
  · intro h
    refine Finmap.ext_lookup (fun k => ?_)
    rw [lookup_of_notMem_keys (by simp [h]), Finmap.lookup_empty]
  · rintro rfl; exact Finmap.keys_empty

def len (m : GoMap K V) : ℕ := m.keys.card

theorem len_eq_zero : m.len = 0 ↔ m = ∅ := by
  rw [len, Finset.card_eq_zero, keys_eq_empty]

/-- A loop that looks for an entry that fails `p`. -/
def all (p : K → V → Bool) (m : GoMap K V) : Bool := decide (∀ k ∈ m.keys, ∀ v ∈ m.lookup k, p k v = true)

theorem all_iff {p : K → V → Bool} : m.all p = true ↔ ∀ k v, m.lookup k = some v → p k v = true := by
  rw [all, decide_eq_true_iff]
  constructor
  · exact fun h k v hk => h k (mem_keys_of_lookup hk) v hk
  · exact fun h k _ v hk => h k v hk

/-- `for k, v := range m`, with each value changed in place or its entry deleted. -/
def filterMap (f : V → Option W) (m : GoMap K V) : GoMap K W := build m.keys (fun k => (m.lookup k).bind f)

@[simp] theorem lookup_filterMap (f : V → Option W) (m : GoMap K V) (k : K) :
    (filterMap f m).lookup k = (m.lookup k).bind f := by
  rw [filterMap, lookup_build]
  split_ifs with hk
  · rfl
  · rw [lookup_of_notMem_keys hk]
    rfl

/-- `for k, v := range m { d[k] = g(k, v, d[k]) }`. -/
def update (g : K → V → Option W → W) (d : GoMap K W) (m : GoMap K V) : GoMap K W :=
  build (d.keys ∪ m.keys) (fun k => match m.lookup k with
    | none => d.lookup k
    | some v => some (g k v (d.lookup k)))

theorem lookup_update (g : K → V → Option W → W) (d : GoMap K W) (m : GoMap K V) (k : K) :
    (update g d m).lookup k = match m.lookup k with
      | none => d.lookup k
      | some v => some (g k v (d.lookup k)) := by
  rw [update, lookup_build]
  split_ifs with hk
  · rfl
  · rw [Finset.mem_union, not_or] at hk
    rw [lookup_of_notMem_keys hk.1, lookup_of_notMem_keys hk.2]

/-- `for k, v := range m { d[k] = v }`. -/
def copyInto (d m : GoMap K V) : GoMap K V := update (fun _ v _ => v) d m

@[simp] theorem lookup_copyInto (d m : GoMap K V) (k : K) :
    (copyInto d m).lookup k = (m.lookup k).or (d.lookup k) := by
  rw [copyInto, lookup_update]
  cases m.lookup k <;> rfl

def at2 (m : GoMap K (GoMap J V)) (k : K) (j : J) : Option V := (m.lookup k).bind (·.lookup j)

/-- No inner map is empty, so that the entries determine the nested map. -/
def Tidy (m : GoMap K (GoMap J V)) : Prop := ∀ k inner, m.lookup k = some inner → inner ≠ ∅

omit [DecidableEq J] in
theorem tidy_empty : Tidy (∅ : GoMap K (GoMap J V)) := by
  intro k inner h; simp at h

theorem Tidy.exists_at2 {m : GoMap K (GoMap J V)} (hm : Tidy m) {inner : GoMap J V}
    (h : m.lookup k = some inner) : ∃ j v, at2 m k j = some v := by
  have hne : inner.keys.Nonempty := by
    rw [Finset.nonempty_iff_ne_empty, ne_eq, keys_eq_empty]
    exact hm k inner h
  obtain ⟨j, hj⟩ := hne
  obtain ⟨v, hv⟩ := mem_keys_iff.mp hj
  exact ⟨j, v, by simp [at2, h, hv]⟩

/-- Two tidy nested maps with the same entries are the same map. -/
theorem Tidy.ext {m n : GoMap K (GoMap J V)} (hm : Tidy m) (hn : Tidy n)
    (h : ∀ k j, at2 m k j = at2 n k j) : m = n := by
  refine Finmap.ext_lookup (fun k => ?_)
  have key : ∀ {a b : GoMap K (GoMap J V)}, Tidy a → (∀ k j, at2 a k j = at2 b k j) →
      ∀ {inner}, a.lookup k = some inner → b.lookup k = some inner := by
    intro a b ha hab inner hk
    obtain ⟨j, v, hv⟩ := ha.exists_at2 hk
    rw [hab] at hv
    obtain ⟨inner', hb, _⟩ := Option.bind_eq_some_iff.mp hv
    have he : inner' = inner := Finmap.ext_lookup (fun i => by
      have := hab k i
      simpa [at2, hk, hb] using this.symm)
    rw [hb, he]
  cases hk : m.lookup k with
  | some inner => exact (key hm h hk).symm
  | none =>
    cases hk' : n.lookup k with
    | none => rfl
    | some inner =>
      have := key hn (fun k j => (h k j).symm) hk'
      rw [hk] at this
      cases this

/-- `for k, inner := range m { for j, v := range inner { out[j][k] = v } }`. -/
def transpose (m : GoMap K (GoMap J V)) : GoMap J (GoMap K V) :=
  build (m.keys.biUnion (fun k => ((m.lookup k).elim ∅ Finmap.keys)))
    (fun j => some (build m.keys (fun k => at2 m k j)))

theorem mem_transpose_keys {m : GoMap K (GoMap J V)} {j : J} :
    j ∈ m.keys.biUnion (fun k => ((m.lookup k).elim ∅ Finmap.keys)) ↔ ∃ k v, at2 m k j = some v := by
  simp only [Finset.mem_biUnion]
  constructor
  · rintro ⟨k, hk, hj⟩
    obtain ⟨inner, hi⟩ := mem_keys_iff.mp hk
    rw [hi, Option.elim_some] at hj
    obtain ⟨v, hv⟩ := mem_keys_iff.mp hj
    exact ⟨k, v, by simp [at2, hi, hv]⟩
  · rintro ⟨k, v, h⟩
    obtain ⟨inner, hi, hv⟩ := Option.bind_eq_some_iff.mp h
    exact ⟨k, mem_keys_of_lookup hi, by rw [hi, Option.elim_some]; exact mem_keys_of_lookup hv⟩

theorem at2_transpose (m : GoMap K (GoMap J V)) (j : J) (k : K) :
    at2 (transpose m) j k = at2 m k j := by
  have hnone : k ∉ m.keys → at2 m k j = none := by
    intro hk; simp [at2, lookup_of_notMem_keys hk]
  rw [at2, transpose, lookup_build]
  split_ifs with hj
  · rw [Option.bind_some, lookup_build]
    split_ifs with hk
    · rfl
    · exact (hnone hk).symm
  · cases h : at2 m k j with
    | none => rfl
    | some v => exact absurd (mem_transpose_keys.mpr ⟨k, v, h⟩) hj

theorem tidy_transpose (m : GoMap K (GoMap J V)) : Tidy (transpose m) := by
  intro j inner h he
  rw [transpose, lookup_build] at h
  split_ifs at h with hj
  obtain ⟨k, v, hv⟩ := mem_transpose_keys.mp hj
  obtain ⟨inner', hi, _⟩ := Option.bind_eq_some_iff.mp hv
  have hb : (build m.keys (fun k => at2 m k j)).lookup k = some v := by
    rw [lookup_build, if_pos (mem_keys_of_lookup hi), hv]
  rw [Option.some_injective _ h, he, Finmap.lookup_empty] at hb
  cases hb

/-- What a loop establishes, when each iteration adds one disjunct to it. -/
theorem foldl_iff {δ : Type} (f : δ → K → V → δ)
    (H : ∀ d a₁ b₁ a₂ b₂, f (f d a₁ b₁) a₂ b₂ = f (f d a₂ b₂) a₁ b₁)
    (Q : δ → Prop) (R : K → V → Prop) (hf : ∀ d k v, Q (f d k v) ↔ Q d ∨ R k v)
    (m : GoMap K V) (d : δ) :
    Q (m.foldl f H d) ↔ Q d ∨ ∃ k v, m.lookup k = some v ∧ R k v := by
  have hlist : ∀ (l : List (Sigma fun _ : K => V)) (d : δ),
      Q (l.foldl (fun d s => f d s.1 s.2) d) ↔ Q d ∨ ∃ s ∈ l, R s.1 s.2 := by
    intro l
    induction l with
    | nil => intro d; simp
    | cons s l ih => intro d; simp [ih, hf, or_assoc]
  have hent : ∀ (s : Sigma fun _ : K => V), s ∈ m.entries ↔ m.lookup s.1 = some s.2 := by
    intro s
    exact Finmap.lookup_eq_some_iff.symm
  have hm : Q (m.foldl f H d) ↔ Q d ∨ ∃ s ∈ m.entries, R s.1 s.2 := by
    obtain ⟨entries, hn⟩ := m
    induction entries using Quotient.inductionOn with
    | _ l => exact hlist l d
  rw [hm]
  constructor
  · rintro (h | ⟨s, hs, hr⟩)
    · exact Or.inl h
    · exact Or.inr ⟨s.1, s.2, (hent s).mp hs, hr⟩
  · rintro (h | ⟨k, v, hk, hr⟩)
    · exact Or.inl h
    · exact Or.inr ⟨⟨k, v⟩, (hent ⟨k, v⟩).mpr hk, hr⟩

end GoMap

end CodeMemory.Lib
