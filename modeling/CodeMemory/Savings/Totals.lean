import CodeMemory.Lib.Overflow
import CodeMemory.Savings.Ledger

/-! Totals as sums. The counters are machine integers, so what holds in every case holds
modulo `2 ^ 64`; as long as the sums fit, the totals are the sums. A subtotal for each
category is kept in a list by the rollup and in a map by the summary, and both ways of
adding a step come to the same map. -/

namespace CodeMemory.Savings

open Lib Lib.GoString Lib.Overflow Lib.GoMap List

/-- What a step counts. -/
inductive Counter where
  | baselineBytes
  | servedBytes
  | baselineTokensEst
  | servedTokensEst
  | dedupCount
  | compressionCount
  | avoidedReads
  | modelCalls
  | avoidedModelCalls
  deriving DecidableEq

/-- The values that the counter's type leaves out. -/
def Counter.bound : Counter → ℤ
  | baselineBytes | servedBytes | baselineTokensEst | servedTokensEst => 2 ^ 63
  | dedupCount | compressionCount | avoidedReads | modelCalls | avoidedModelCalls => 2 ^ 64

def Step.value (s : Step) : Counter → ℤ
  | .baselineBytes => s.baselineBytes.toInt
  | .servedBytes => s.servedBytes.toInt
  | .baselineTokensEst => s.baselineTokensEst.toInt
  | .servedTokensEst => s.servedTokensEst.toInt
  | .dedupCount => s.dedupCount.toNat
  | .compressionCount => s.compressionCount.toNat
  | .avoidedReads => s.avoidedReads.toNat
  | .modelCalls => s.modelCalls.toNat
  | .avoidedModelCalls => s.avoidedModelCalls.toNat

def Totals.value (t : Totals) : Counter → ℤ
  | .baselineBytes => t.baselineBytes.toInt
  | .servedBytes => t.servedBytes.toInt
  | .baselineTokensEst => t.baselineTokensEst.toInt
  | .servedTokensEst => t.servedTokensEst.toInt
  | .dedupCount => t.dedupCount.toNat
  | .compressionCount => t.compressionCount.toNat
  | .avoidedReads => t.avoidedReads.toNat
  | .modelCalls => t.modelCalls.toNat
  | .avoidedModelCalls => t.avoidedModelCalls.toNat

def sumOf (k : Counter) (steps : List Step) : ℤ := (steps.map (·.value k)).sum

theorem sumOf_concat (k : Counter) (steps : List Step) (s : Step) :
    sumOf k (steps ++ [s]) = sumOf k steps + s.value k := by
  simp [sumOf]

variable {steps steps' : List Step}

theorem sumOf_perm (k : Counter) (h : steps.Perm steps') : sumOf k steps = sumOf k steps' :=
  (h.map _).sum_eq

/-- The totals are the sums over the steps. -/
structure Totals.Sums (t : Totals) (steps : List Step) : Prop where
  value : ∀ k, t.value k = sumOf k steps
  savedBytes : t.savedBytes.toInt = sumOf .baselineBytes steps - sumOf .servedBytes steps
  savedTokensEst : t.savedTokensEst.toInt = sumOf .baselineTokensEst steps - sumOf .servedTokensEst steps

/-- The totals are the sums up to overflow. -/
structure Totals.Follows (t : Totals) (steps : List Step) : Prop where
  value : ∀ k, t.value k ≡ sumOf k steps [ZMOD 2 ^ 64]
  savedBytes : t.savedBytes = t.baselineBytes - t.servedBytes
  savedTokensEst : t.savedTokensEst = t.baselineTokensEst - t.servedTokensEst

theorem value_addStep (t : Totals) (s : Step) (k : Counter) :
    (addStep t s).value k ≡ t.value k + s.value k [ZMOD 2 ^ 64] := by
  cases k with
  | baselineBytes | servedBytes | baselineTokensEst | servedTokensEst => exact int64_add_modEq _ _
  | dedupCount | compressionCount | avoidedReads | modelCalls | avoidedModelCalls => exact uint64_add_modEq _ _

theorem follows_zero : Totals.zero.Follows [] where
  value k := by cases k <;> rfl
  savedBytes := rfl
  savedTokensEst := rfl

variable {t : Totals}

theorem Totals.Follows.addStep (h : t.Follows steps) (s : Step) : (addStep t s).Follows (steps ++ [s]) where
  value k := by
    rw [sumOf_concat]
    exact (value_addStep t s k).trans ((h.value k).add_right _)
  savedBytes := rfl
  savedTokensEst := rfl

theorem Totals.Follows.foldl (h : t.Follows steps) (more : List Step) :
    (more.foldl Savings.addStep t).Follows (steps ++ more) := by
  induction more generalizing t steps with
  | nil => rwa [append_nil]
  | cons s more ih =>
    have hrest := ih (h.addStep s)
    rwa [append_assoc] at hrest

def Step.Nonneg (s : Step) : Prop := ∀ k, 0 ≤ s.value k

/-- Neither the counters nor the number of the steps overflow. -/
structure Fits (steps : List Step) : Prop where
  nonneg : ∀ s ∈ steps, s.Nonneg
  sums : ∀ k, sumOf k steps < k.bound
  length : steps.length < 2 ^ 63

theorem sumOf_nonneg (h : ∀ s ∈ steps, s.Nonneg) (k : Counter) : 0 ≤ sumOf k steps := by
  refine sum_nonneg fun x hx => ?_
  obtain ⟨s, hs, rfl⟩ := mem_map.mp hx
  exact h s hs k

theorem sumOf_sublist (h : steps.Sublist steps') (hn : ∀ s ∈ steps', s.Nonneg) (k : Counter) :
    sumOf k steps ≤ sumOf k steps' := by
  refine (h.map _).sum_le_sum fun x hx => ?_
  obtain ⟨s, hs, rfl⟩ := mem_map.mp hx
  exact hn s hs k

theorem Fits.sublist (h : Fits steps') (hsub : steps.Sublist steps') : Fits steps where
  nonneg s hs := h.nonneg s (hsub.subset hs)
  sums k := (sumOf_sublist hsub h.nonneg k).trans_lt (h.sums k)
  length := hsub.length_le.trans_lt h.length

theorem Totals.Follows.sums (h : t.Follows steps) (hfits : Fits steps) : t.Sums steps := by
  have hvalue : ∀ k, t.value k = sumOf k steps := by
    intro k
    have hk := h.value k
    have h₀ := sumOf_nonneg hfits.nonneg k
    have hbound := hfits.sums k
    cases k with
    | baselineBytes | servedBytes | baselineTokensEst | servedTokensEst =>
      exact int64_eq_of_modEq hk (by omega) hbound
    | dedupCount | compressionCount | avoidedReads | modelCalls | avoidedModelCalls =>
      exact uint64_eq_of_modEq hk h₀ hbound
  have hnonneg : ∀ k, 0 ≤ t.value k := fun k => (hvalue k).symm ▸ sumOf_nonneg hfits.nonneg k
  refine ⟨hvalue, ?_, ?_⟩
  · rw [h.savedBytes, int64_sub_of_nonneg (hnonneg .baselineBytes) (hnonneg .servedBytes), ← hvalue, ← hvalue]
    rfl
  · rw [h.savedTokensEst, int64_sub_of_nonneg (hnonneg .baselineTokensEst) (hnonneg .servedTokensEst), ← hvalue,
      ← hvalue]
    rfl

def inCategory (k : GoString) (steps : List Step) : List Step := steps.filter fun s => s.category = k

theorem inCategory_concat (k : GoString) (steps : List Step) (s : Step) :
    inCategory k (steps ++ [s]) = if s.category = k then inCategory k steps ++ [s] else inCategory k steps := by
  split_ifs with h <;> simp [inCategory, h]

/-- The subtotal of the steps, up to overflow. -/
structure CategorySummary.Counts (c : CategorySummary) (steps : List Step) : Prop where
  count : c.steps.toInt ≡ steps.length [ZMOD 2 ^ 64]
  totals : c.totals.Follows steps

theorem CategorySummary.Counts.add {c : CategorySummary} (h : c.Counts steps) (s : Step) :
    (c.add s).Counts (steps ++ [s]) where
  count := by
    have hone : (1 : Int64).toInt = 1 := by decide
    refine (int64_add_modEq c.steps 1).trans ?_
    rw [hone, length_append, length_singleton, Nat.cast_add]
    exact h.count.add_right 1
  totals := h.totals.addStep s

/-- The map has the subtotal of each category that occurs, and no other. -/
structure Tallies (m : GoMap GoString CategorySummary) (steps : List Step) : Prop where
  absent : ∀ k, m.lookup k = none ↔ inCategory k steps = []
  present : ∀ k c, m.lookup k = some c → c.category = k ∧ c.Counts (inCategory k steps)

theorem tallies_empty : Tallies ∅ [] where
  absent k := by simp [inCategory]
  present k c h := by simp at h

variable {m : GoMap GoString CategorySummary}

theorem Tallies.add (h : Tallies m steps) (s : Step) : Tallies (Ledger.addCategory m s) (steps ++ [s]) := by
  have hold : (((m.lookup s.category).getD ⟨s.category, 0, .zero⟩).add s).category = s.category ∧
      (((m.lookup s.category).getD ⟨s.category, 0, .zero⟩).add s).Counts (inCategory s.category steps ++ [s]) := by
    cases hm : m.lookup s.category with
    | none =>
      have hzero : CategorySummary.Counts ⟨s.category, 0, .zero⟩ [] := ⟨rfl, follows_zero⟩
      rw [(h.absent s.category).mp hm]
      exact ⟨rfl, hzero.add s⟩
    | some c =>
      obtain ⟨hcat, hcounts⟩ := h.present _ c hm
      exact ⟨hcat, hcounts.add s⟩
  constructor
  · intro k
    rw [Ledger.addCategory, lookup_insert_eq, inCategory_concat]
    by_cases hk : k = s.category
    · simp [hk]
    · rw [if_neg hk, if_neg (Ne.symm hk)]
      exact h.absent k
  · intro k c hc
    rw [Ledger.addCategory, lookup_insert_eq] at hc
    rw [inCategory_concat]
    by_cases hk : k = s.category
    · rw [if_pos hk] at hc
      rw [if_pos hk.symm, ← Option.some.inj hc, hk]
      exact hold
    · rw [if_neg hk] at hc
      rw [if_neg (Ne.symm hk)]
      exact h.present k c hc

theorem Tallies.foldl (h : Tallies m steps) (more : List Step) :
    Tallies (more.foldl Ledger.addCategory m) (steps ++ more) := by
  induction more generalizing m steps with
  | nil => rwa [append_nil]
  | cons s more ih =>
    have hrest := ih (h.add s)
    rwa [append_assoc] at hrest

/-- The subtotals of a list by category. -/
def toMap (categories : List CategorySummary) : GoMap GoString CategorySummary :=
  categories.foldl (fun m c => m.insert c.category c) ∅

variable {categories : List CategorySummary}

theorem lookup_toMap (hnodup : (categories.map (·.category)).Nodup) (k : GoString) :
    (toMap categories).lookup k = categories.find? fun c => c.category = k := by
  rw [toMap, lookup_foldl_insert hnodup]
  simp

theorem find?_addRollupCategory (categories : List CategorySummary) (s : Step) (k : GoString) :
    (addRollupCategory categories s).find? (fun c => c.category = k) =
      if k = s.category then
        some (((categories.find? fun c => c.category = k).getD ⟨s.category, 0, .zero⟩).add s)
      else categories.find? fun c => c.category = k := by
  induction categories with
  | nil =>
    rw [addRollupCategory, List.find?_singleton]
    by_cases hk : k = s.category
    · rw [if_pos hk, if_pos (by simpa using hk.symm)]
      rfl
    · rw [if_neg hk, if_neg (by simpa using Ne.symm hk)]
      rfl
  | cons c categories ih =>
    rw [addRollupCategory]
    split_ifs with hc hk hk
    · rw [List.find?_cons_of_pos (by simpa [CategorySummary.add, hk] using hc),
        List.find?_cons_of_pos (by simpa [hk] using hc)]
      rfl
    · rw [List.find?_cons_of_neg (by simpa [CategorySummary.add, hc] using Ne.symm hk),
        List.find?_cons_of_neg (by simpa [hc] using Ne.symm hk)]
    · rw [List.find?_cons_of_neg (by simpa [hk] using hc), ih, if_pos hk,
        List.find?_cons_of_neg (by simpa [hk] using hc)]
    · rw [List.find?_cons, List.find?_cons, ih, if_neg hk]

theorem map_addRollupCategory (categories : List CategorySummary) (s : Step) :
    (addRollupCategory categories s).map (·.category) =
      if s.category ∈ categories.map (·.category) then categories.map (·.category)
      else categories.map (·.category) ++ [s.category] := by
  induction categories with
  | nil => rfl
  | cons c categories ih =>
    rw [addRollupCategory]
    by_cases hc : c.category = s.category
    · simp [hc, CategorySummary.add]
    · rw [if_neg hc, map_cons, ih]
      rw [map_cons]
      by_cases hmem : s.category ∈ categories.map (·.category)
      · rw [if_pos hmem, if_pos (.tail _ hmem)]
      · rw [if_neg hmem, if_neg (not_mem_cons_of_ne_of_not_mem (Ne.symm hc) hmem)]
        rfl

theorem nodup_addRollupCategory (hnodup : (categories.map (·.category)).Nodup)
    (s : Step) : ((addRollupCategory categories s).map (·.category)).Nodup := by
  rw [map_addRollupCategory]
  split_ifs with h
  · exact hnodup
  · exact List.Nodup.append hnodup (nodup_singleton _) (by simpa using h)

/-- Adding a step to the list and to the map come to the same. -/
theorem toMap_addRollupCategory (hnodup : (categories.map (·.category)).Nodup)
    (s : Step) : toMap (addRollupCategory categories s) = Ledger.addCategory (toMap categories) s := by
  apply Finmap.ext_lookup
  intro k
  rw [lookup_toMap (nodup_addRollupCategory hnodup s), find?_addRollupCategory, Ledger.addCategory,
    lookup_insert_eq, lookup_toMap hnodup, lookup_toMap hnodup]
  split_ifs with hk
  · rw [hk]
  · rfl

theorem find?_perm {categories' : List CategorySummary} (h : categories.Perm categories')
    (hnodup : (categories.map (·.category)).Nodup) (k : GoString) :
    (categories.find? fun c => c.category = k) = categories'.find? fun c => c.category = k := by
  induction h with
  | nil => rfl
  | cons c _ ih =>
    rw [map_cons, nodup_cons] at hnodup
    rw [List.find?_cons, List.find?_cons, ih hnodup.2]
  | swap c c' _ =>
    simp only [map_cons, nodup_cons, mem_cons, not_or] at hnodup
    simp only [List.find?_cons]
    by_cases hc : c.category = k
    · have hne : ¬ c'.category = k := fun he => hnodup.1.1 (he.trans hc.symm)
      simp [hc, hne]
    · simp [hc]
  | trans h₁ _ ih₁ ih₂ => rw [ih₁ hnodup, ih₂ ((h₁.map _).nodup_iff.mp hnodup)]

theorem toMap_sortCategories (hnodup : (categories.map (·.category)).Nodup) :
    ((Ledger.sortCategories categories).map (·.category)).Nodup ∧
      toMap (Ledger.sortCategories categories) = toMap categories := by
  have hperm : (Ledger.sortCategories categories).Perm categories := perm_insertionSort _ categories
  have hsort := ((hperm.map (·.category)).nodup_iff).mpr hnodup
  refine ⟨hsort, Finmap.ext_lookup fun k => ?_⟩
  rw [lookup_toMap hsort, lookup_toMap hnodup, find?_perm hperm hsort]

end CodeMemory.Savings
