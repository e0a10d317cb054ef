import CodeMemory.Lib.Order

/-! Personalized PageRank over the memory graph, with exact ranks. A map of ranks is a
function that is 0 where the map has no key, as reading the map is. -/

namespace CodeMemory.Memory

open Lib Lib.GoString Lib.GoMap List

abbrev Ranks := GoString → ℚ

/-- `ranks[m] += v`. -/
def Ranks.add (ranks : Ranks) (m : GoString) (v : ℚ) : Ranks := Function.update ranks m (ranks m + v)

structure Graph where
  seedScores : GoMap GoString ℚ
  edges : GoMap GoString (List GoString)

namespace Graph

variable (g : Graph) (damping : ℚ)

def seed (n : GoString) : ℚ := (g.seedScores.lookup n).getD 0

def nbrs (n : GoString) : List GoString := (g.edges.lookup n).getD []

def nodes : Finset GoString :=
  g.seedScores.keys ∪ g.edges.keys ∪ g.edges.keys.biUnion fun n => (g.nbrs n).toFinset

def sumSeed : ℚ := (sortedKeys g.seedScores).foldl (fun sum n => if 0 < g.seed n then sum + g.seed n else sum) 0

def pers : Ranks := fun n =>
  if n ∉ g.nodes then 0
  else if g.sumSeed ≤ 0 then 1 / g.nodes.card
  else if 0 < g.seed n then g.seed n / g.sumSeed
  else 0

/-- A node hands on its rank; that of a node without neighbours is collected. -/
def propagate (rank : Ranks) (acc : Ranks × ℚ) (n : GoString) : Ranks × ℚ :=
  if (g.nbrs n).length = 0 then (acc.1, acc.2 + rank n)
  else ((g.nbrs n).foldl (fun next m => next.add m (damping * rank n / (g.nbrs n).length)) acc.1, acc.2)

def iteration (rank : Ranks) : Ranks :=
  let ordered := sortedSet g.nodes
  let acc := ordered.foldl (g.propagate damping rank) (fun n => (1 - damping) * g.pers n, 0)
  if 0 < acc.2 then ordered.foldl (fun next m => next.add m (damping * acc.2 * g.pers m)) acc.1 else acc.1

def personalizedPageRank (iterations : ℤ) : Ranks :=
  let damping := if damping ≤ 0 ∨ 1 ≤ damping then 17 / 20 else damping
  let iterations := if iterations ≤ 0 then 20 else iterations
  if g.nodes.card = 0 then fun _ => 0 else (g.iteration damping)^[iterations.toNat] g.pers

variable {g damping} {n m : GoString}

theorem mem_nodes_of_seed (h : 0 < g.seed n) : n ∈ g.nodes := by
  cases hn : g.seedScores.lookup n with
  | none => simp [seed, hn] at h
  | some v => simp [nodes, mem_keys_of_lookup hn]

theorem mem_nodes_of_nbrs (h : m ∈ g.nbrs n) : m ∈ g.nodes := by
  cases hn : g.edges.lookup n with
  | none => simp [nbrs, hn] at h
  | some ns =>
    refine Finset.mem_union_right _ (Finset.mem_biUnion.mpr ⟨n, mem_keys_of_lookup hn, ?_⟩)
    simpa using h

theorem sumSeed_eq (g : Graph) : g.sumSeed = ∑ n ∈ g.nodes, max 0 (g.seed n) := by
  have hfold : ∀ (ns : List GoString) (a : ℚ), ns.foldl (fun sum n => if 0 < g.seed n then sum + g.seed n else sum) a =
      a + (ns.map fun n => max 0 (g.seed n)).sum := by
    intro ns
    induction ns with
    | nil => simp
    | cons n ns ih =>
      intro a
      rw [foldl_cons, ih, map_cons, sum_cons, max_def_lt]
      split_ifs <;> ring
  rw [sumSeed, hfold, zero_add]
  refine (sum_sortedSet g.seedScores.keys _).trans (Finset.sum_subset ?_ fun n _ hn => ?_)
  · exact Finset.subset_union_left.trans Finset.subset_union_left
  · rw [mem_keys_iff, not_exists, ← Option.eq_none_iff_forall_ne_some] at hn
    simp [seed, hn]

theorem pers_nonneg (n : GoString) : 0 ≤ g.pers n := by
  unfold pers
  split_ifs with hn hsum hpos
  · positivity
  · exact div_nonneg hpos.le (not_le.mp hsum).le
  · exact le_rfl
  · exact le_rfl

theorem sum_pers (hne : g.nodes.Nonempty) : ∑ n ∈ g.nodes, g.pers n = 1 := by
  by_cases hsum : g.sumSeed ≤ 0
  · rw [Finset.sum_congr rfl fun n hn => by rw [pers, if_neg (not_not.mpr hn), if_pos hsum], Finset.sum_const,
      nsmul_eq_mul, mul_one_div_cancel (by simpa using hne.ne_empty)]
  · have hpers : ∀ n ∈ g.nodes, g.pers n = max 0 (g.seed n) / g.sumSeed := by
      intro n hn
      rw [pers, if_neg (not_not.mpr hn), if_neg hsum, max_def_lt]
      split_ifs <;> simp
    rw [Finset.sum_congr rfl hpers, ← Finset.sum_div, ← sumSeed_eq, div_self (fun h => hsum h.le)]

/-- The ranks are not negative, lie on `S` and add up to `t`. -/
structure Carries (g : Graph) (S : Set GoString) (t : ℚ) (rank : Ranks) : Prop where
  nonneg : ∀ n, 0 ≤ rank n
  support : ∀ n ∉ S, rank n = 0
  total : ∑ n ∈ g.nodes, rank n = t

/-- A set of nodes with their neighbours and the seeds that carry mass. -/
structure Closed (g : Graph) (S : Set GoString) : Prop where
  sub : ∀ n ∈ S, n ∈ g.nodes
  nbrs : ∀ n ∈ S, ∀ m ∈ g.nbrs n, m ∈ S
  pers : ∀ n ∉ S, g.pers n = 0

variable {S : Set GoString} {t : ℚ} {rank next : Ranks} (hS : g.Closed S)

include hS

theorem Carries.add (h : g.Carries S t next) {v : ℚ} (hv : 0 ≤ v) (hm : m ∈ S ∨ v = 0) :
    g.Carries S (t + v) (next.add m v) := by
  rcases hm with hm | rfl
  · refine ⟨fun n => ?_, fun n hn => ?_, ?_⟩
    · rw [Ranks.add, Function.update_apply]
      split_ifs
      · exact add_nonneg (h.nonneg m) hv
      · exact h.nonneg n
    · rw [Ranks.add, Function.update_of_ne (ne_of_mem_of_not_mem hm hn).symm, h.support n hn]
    · have hsum := Finset.sum_erase_add g.nodes next (hS.sub m hm)
      rw [Ranks.add, Finset.sum_update_of_mem (hS.sub m hm), Finset.sdiff_singleton_eq_erase]
      linarith [h.total]
  · simpa [Ranks.add] using h

theorem Carries.foldl_add (h : g.Carries S t next) (ms : List GoString) {f : GoString → ℚ}
    (hf : ∀ m ∈ ms, 0 ≤ f m ∧ (m ∈ S ∨ f m = 0)) :
    g.Carries S (t + (ms.map f).sum) (ms.foldl (fun next m => next.add m (f m)) next) := by
  induction ms generalizing next t with
  | nil => simpa using h
  | cons m ms ih =>
    obtain ⟨hm, hms⟩ := forall_mem_cons.mp hf
    rw [foldl_cons, map_cons, sum_cons, ← add_assoc]
    exact ih (h.add hS hm.1 hm.2) hms

/-- The nodes hand on their ranks, except for what is collected. -/
theorem carries_propagate (hd : 0 ≤ damping) {u : ℚ} (hrank : g.Carries S u rank) (ns : List GoString)
    {a : Ranks × ℚ} (h : g.Carries S (t - damping * a.2) a.1) (ha : 0 ≤ a.2) :
    let acc := ns.foldl (g.propagate damping rank) a
    g.Carries S (t + damping * (ns.map rank).sum - damping * acc.2) acc.1 ∧ 0 ≤ acc.2 := by
  induction ns generalizing a t with
  | nil => exact ⟨by simpa using h, ha⟩
  | cons n ns ih =>
    rw [map_cons, sum_cons, mul_add, ← add_assoc, foldl_cons, propagate]
    split_ifs with hnbrs
    · exact ih (by convert h using 1; ring) (add_nonneg ha (hrank.nonneg n))
    · have hlen : ((g.nbrs n).length : ℚ) ≠ 0 := by exact_mod_cast hnbrs
      have hadd := h.foldl_add hS (g.nbrs n) (f := fun _ => damping * rank n / (g.nbrs n).length) fun m hm => by
        refine ⟨div_nonneg (mul_nonneg hd (hrank.nonneg n)) (by positivity), ?_⟩
        by_cases hn : n ∈ S
        · exact .inl (hS.nbrs n hn m hm)
        · simp [hrank.support n hn]
      rw [map_const', sum_replicate, nsmul_eq_mul, mul_div_cancel₀ _ hlen, sub_add_eq_add_sub] at hadd
      exact ih hadd ha

theorem carries_iteration (h₀ : 0 ≤ damping) (h₁ : damping ≤ 1) (hpers : g.Carries S 1 g.pers)
    (hrank : g.Carries S 1 rank) : g.Carries S 1 (g.iteration damping rank) := by
  have hstart : g.Carries S (1 - damping) fun n => (1 - damping) * g.pers n :=
    ⟨fun n => mul_nonneg (sub_nonneg.mpr h₁) (hpers.nonneg n), fun n hn => by rw [hpers.support n hn, mul_zero],
      by rw [← Finset.mul_sum, hpers.total, mul_one]⟩
  obtain ⟨hacc, hpos⟩ := carries_propagate hS h₀ hrank (sortedSet g.nodes) (a := (_, 0)) (by simpa using hstart) le_rfl
  rw [sum_sortedSet, hrank.total, mul_one, sub_add_cancel] at hacc
  unfold iteration
  dsimp only
  split_ifs with hd
  · have hall := hacc.foldl_add hS (sortedSet g.nodes) fun m _ =>
      ⟨mul_nonneg (mul_nonneg h₀ hpos) (hpers.nonneg m), or_iff_not_imp_left.mpr fun hm => by
        rw [hpers.support m hm, mul_zero]⟩
    rwa [sum_sortedSet, ← Finset.mul_sum, hpers.total, mul_one, sub_add_cancel] at hall
  · rwa [le_antisymm (not_lt.mp hd) hpos, mul_zero, sub_zero] at hacc

theorem carries_personalizedPageRank (hne : g.nodes.Nonempty) (damping : ℚ) (iterations : ℤ) :
    g.Carries S 1 (g.personalizedPageRank damping iterations) := by
  have hpers : g.Carries S 1 g.pers := ⟨pers_nonneg, hS.pers, sum_pers hne⟩
  have hd : 0 ≤ (if damping ≤ 0 ∨ 1 ≤ damping then 17 / 20 else damping) ∧
      (if damping ≤ 0 ∨ 1 ≤ damping then 17 / 20 else damping) ≤ 1 := by
    split_ifs with hd
    · norm_num
    · rw [not_or, not_le, not_le] at hd
      exact ⟨hd.1.le, hd.2.le⟩
  unfold personalizedPageRank
  dsimp only
  rw [if_neg hne.card_ne_zero]
  exact Function.Iterate.rec (g.Carries S 1) hpers (fun _ => carries_iteration hS hd.1 hd.2 hpers) _

omit hS

/-- The ranks are not negative and add up to 1, and only nodes that a positive seed leads to have a rank. -/
theorem personalizedPageRank_conserves (g : Graph) (hne : g.nodes.Nonempty) (damping : ℚ) (iterations : ℤ) :
    let rank := g.personalizedPageRank damping iterations
    (∀ n, 0 ≤ rank n) ∧ ∑ n ∈ g.nodes, rank n = 1 ∧
      ((∃ s, 0 < g.seed s) → ∀ n,
        (∀ s, 0 < g.seed s → ¬ Relation.ReflTransGen (fun a b => b ∈ g.nbrs a) s n) → rank n = 0) := by
  intro rank
  have hall : g.Closed g.nodes :=
    ⟨fun _ hn => hn, fun _ _ _ => mem_nodes_of_nbrs, fun n hn => by rw [pers, if_pos (by simpa using hn)]⟩
  have h := carries_personalizedPageRank hall hne damping iterations
  refine ⟨h.nonneg, h.total, ?_⟩
  rintro ⟨s₀, hs₀⟩ n hn
  have hreach : g.Closed {n | ∃ s, 0 < g.seed s ∧ Relation.ReflTransGen (fun a b => b ∈ g.nbrs a) s n} := by
    refine ⟨?_, ?_, fun n hn => ?_⟩
    · rintro n ⟨s, hs, hn⟩
      cases hn with
      | refl => exact mem_nodes_of_seed hs
      | tail _ hm => exact mem_nodes_of_nbrs hm
    · rintro n ⟨s, hs, hn⟩ m hm
      exact ⟨s, hs, hn.tail hm⟩
    · have hsum : 0 < g.sumSeed := by
        rw [sumSeed_eq]
        exact Finset.sum_pos' (fun _ _ => le_max_left _ _) ⟨s₀, mem_nodes_of_seed hs₀, lt_max_of_lt_right hs₀⟩
      rw [pers, if_neg hsum.not_ge, if_neg fun h => hn ⟨n, h, .refl⟩, ite_self]
  refine (carries_personalizedPageRank hreach hne damping iterations).support n ?_
  rintro ⟨s, hs, hsn⟩
  exact hn s hs hsn

/-- From the seed `a` an edge leads to `b`, which has none; no edge leads to `c`. -/
def sampleGraph : Graph :=
  ⟨(∅ : GoMap GoString ℚ).insert (lit "a") 2,
    ((∅ : GoMap GoString (List GoString)).insert (lit "a") [lit "b"]).insert (lit "c") [lit "a", lit "b"]⟩

theorem personalizedPageRank_conserves_seed :
    ∑ n ∈ sampleGraph.nodes, sampleGraph.personalizedPageRank (1 / 2) 3 n = 1 ∧
      lit "c" ∈ sampleGraph.nodes ∧ sampleGraph.personalizedPageRank (1 / 2) 3 (lit "c") = 0 := by
  have hseed : ∀ s, 0 < sampleGraph.seed s → s = lit "a" := by
    intro s hs
    by_contra hne
    simp [seed, sampleGraph, hne] at hs
  have hreach : ∀ n, Relation.ReflTransGen (fun a b => b ∈ sampleGraph.nbrs a) (lit "a") n → n = lit "a" ∨
    n = lit "b" := by
    intro n hn
    induction hn with
    | refl => exact .inl rfl
    | tail _ hm ih =>
      rcases ih with rfl | rfl
      · rw [show sampleGraph.nbrs (lit "a") = [lit "b"] by decide +kernel] at hm
        exact .inr (mem_singleton.1 hm)
      · rw [show sampleGraph.nbrs (lit "b") = [] by decide +kernel] at hm
        cases hm
  have h := personalizedPageRank_conserves sampleGraph (by decide +kernel) (1 / 2) 3
  refine ⟨h.2.1, by decide +kernel, h.2.2 ⟨lit "a", by decide +kernel⟩ _ fun s hs hn => ?_⟩
  rw [hseed s hs] at hn
  exact absurd (hreach _ hn) (by decide)

/-- A graph without nodes has no ranks. -/
theorem personalizedPageRank_empty : ∑ n ∈ (⟨∅, ∅⟩ : Graph).nodes,
    (⟨∅, ∅⟩ : Graph).personalizedPageRank (1 / 2) 3 n ≠ 1 := by
  decide +kernel

end Graph

end CodeMemory.Memory
