import CodeMemory.Lib.GoMap

/-! Tables with a primary key, as SQL statements change and read them. Which rows a
`SELECT` with `ORDER BY` and `LIMIT` returns is open among rows of the same rank, so
its result is any list that `Selects` accepts. -/

namespace CodeMemory.Lib.Table

open List

variable {K V : Type} [DecidableEq K]

/-- `UPDATE t SET f WHERE p`. -/
def update (p : K → V → Bool) (f : V → V) (t : GoMap K V) : GoMap K V :=
  GoMap.build t.keys (fun k => (t.lookup k).map (fun v => if p k v then f v else v))

theorem lookup_update (p : K → V → Bool) (f : V → V) (t : GoMap K V) (k : K) :
    (update p f t).lookup k = (t.lookup k).map (fun v => if p k v then f v else v) := by
  rw [update, GoMap.lookup_build]
  split_ifs with hk
  · rfl
  · rw [GoMap.lookup_of_notMem_keys hk, Option.map_none]

theorem lookup_update_eq_some {p : K → V → Bool} {f : V → V} {t : GoMap K V} {k : K} {v' : V} :
    (update p f t).lookup k = some v' ↔ ∃ v, t.lookup k = some v ∧ (if p k v then f v else v) = v' := by
  rw [lookup_update, Option.map_eq_some_iff]

theorem keys_update (p : K → V → Bool) (f : V → V) (t : GoMap K V) : (update p f t).keys = t.keys := by
  ext k
  simp only [GoMap.mem_keys_iff, lookup_update, Option.map_eq_some_iff]
  constructor
  · rintro ⟨_, v, hv, -⟩
    exact ⟨v, hv⟩
  · rintro ⟨v, hv⟩
    exact ⟨_, v, hv, rfl⟩

/-- `INSERT OR IGNORE`. -/
def insertOrIgnore (t : GoMap K V) (k : K) (v : V) : GoMap K V := if (t.lookup k).isSome then t else t.insert k v

theorem lookup_insertOrIgnore (t : GoMap K V) (k : K) (v : V) (j : K) :
    (insertOrIgnore t k v).lookup j = if j = k then (t.lookup j).or (some v) else t.lookup j := by
  unfold insertOrIgnore
  split_ifs with hk hj
  · rw [hj]
    obtain ⟨v', hv'⟩ := Option.isSome_iff_exists.mp hk
    rw [hv', Option.some_or]
  · rfl
  · rw [Bool.not_eq_true, Option.isSome_eq_false_iff, Option.isNone_iff_eq_none] at hk
    subst j
    rw [hk, GoMap.lookup_insert_eq, if_pos rfl, Option.none_or]
  · rw [GoMap.lookup_insert_eq, if_neg ‹_›]

def matching (p : V → Bool) (t : GoMap K V) : Finset K := t.keys.filter (fun k => (t.lookup k).any p)

theorem mem_matching {p : V → Bool} {t : GoMap K V} {k : K} :
    k ∈ matching p t ↔ ∃ v, t.lookup k = some v ∧ p v = true := by
  rw [matching, Finset.mem_filter, Option.any_eq_true]
  constructor
  · exact fun h => h.2
  · rintro ⟨v, hv, hp⟩
    exact ⟨GoMap.mem_keys_of_lookup hv, v, hv, hp⟩

theorem card_matching_le (p : V → Bool) (t : GoMap K V) : (matching p t).card ≤ t.len := Finset.card_filter_le _ _

variable (p : V → Bool) (rank : V → Int) (n : ℕ) (t : GoMap K V)

/-- The rank of a key; a key without a row has none. -/
def rankOf (k : K) : Int := ((t.lookup k).map rank).getD 0

/-- `SELECT key FROM t WHERE p ORDER BY rank LIMIT n`. -/
def Selects (ks : List K) : Prop :=
  ks.Nodup ∧ (∀ k ∈ ks, k ∈ matching p t) ∧ ks.length = min n (matching p t).card ∧
    ks.Pairwise (fun j k => rankOf rank t j ≤ rankOf rank t k) ∧
    ∀ k ∈ matching p t, k ∉ ks → ∀ j ∈ ks, rankOf rank t j ≤ rankOf rank t k

instance (ks : List K) : Decidable (Selects p rank n t ks) := by
  unfold Selects
  infer_instance

variable {p rank n t}

/-- A limit that is not reached leaves no row out. -/
theorem Selects.mem_iff {ks : List K} (h : Selects p rank n t ks) (hn : (matching p t).card ≤ n) {k : K} :
    k ∈ ks ↔ k ∈ matching p t := by
  obtain ⟨hnodup, hall, hlen, -, -⟩ := h
  have hsub : ks.toFinset ⊆ matching p t := fun k hk => hall k (mem_toFinset.mp hk)
  have hcard : (matching p t).card ≤ ks.toFinset.card := by
    rw [toFinset_card_of_nodup hnodup, hlen, min_eq_right hn]
  rw [← Finset.eq_of_subset_of_card_le hsub hcard, mem_toFinset]

/-- There is always an answer. -/
theorem exists_selects (p : V → Bool) (rank : V → Int) (n : ℕ) (t : GoMap K V) : ∃ ks, Selects p rank n t ks := by
  let r : K → K → Bool := fun j k => decide (rankOf rank t j ≤ rankOf rank t k)
  let sorted := (matching p t).toList.mergeSort r
  have hsort : sorted.Pairwise (fun j k => rankOf rank t j ≤ rankOf rank t k) := by
    have h := @pairwise_mergeSort _ r
      (fun a b c hab hbc => decide_eq_true ((of_decide_eq_true hab).trans (of_decide_eq_true hbc)))
      (fun a b => by simp only [r, Bool.or_eq_true, decide_eq_true_eq]; exact le_total _ _) (matching p t).toList
    exact h.imp fun hab => of_decide_eq_true hab
  have hperm : sorted.Perm (matching p t).toList := mergeSort_perm _ _
  have hmem : ∀ k, k ∈ sorted ↔ k ∈ matching p t := fun k => by rw [hperm.mem_iff, Finset.mem_toList]
  refine ⟨sorted.take n, ?_, fun k hk => (hmem k).mp (mem_of_mem_take hk), ?_, hsort.sublist (take_sublist _ _),
    fun k hk hnot j hj => ?_⟩
  · exact ((hperm.nodup_iff.mpr (Finset.nodup_toList _)).sublist (take_sublist _ _))
  · rw [length_take, hperm.length_eq, Finset.length_toList]
  · have hk' : k ∈ sorted.drop n := by
      have := (hmem k).mpr hk
      rw [← take_append_drop n sorted, mem_append] at this
      exact this.resolve_left hnot
    rw [← take_append_drop n sorted, pairwise_append] at hsort
    exact hsort.2.2 j hj k hk'

end CodeMemory.Lib.Table
