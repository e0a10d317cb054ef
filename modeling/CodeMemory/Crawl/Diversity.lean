import CodeMemory.Crawl.Ranking
import CodeMemory.Lib.Path

/-! Maximal marginal relevance. The pass selects one candidate after another and holds
against each the selected ones with its stem; but the stems are listed by position in the
input, and it looks one up by position among the candidates that remain. -/

namespace CodeMemory.Crawl

open Lib Lib.GoString Lib.Path List

def pathStem (p : GoString) : GoString := (p.reverse.takeWhile (· ≠ slash)).reverse

section Stems

variable {S : Type}

/-- How many selected candidates have the stem that is listed at this position. -/
def similarity (input selected : Candidates S) (i : ℕ) : ℕ :=
  let stems := (paths input).map pathStem
  selected.countP (fun s => stems[input.findIdx (fun c => c.path = s.path)]? = stems[i]?)

def stemCount (selected : Candidates S) (c : FusedCandidate S) : ℕ :=
  selected.countP (fun s => pathStem s.path = pathStem c.path)

/-- What the loop is in from one round to the next. -/
structure Rounds (input selected remaining : Candidates S) : Prop where
  perm : (selected ++ remaining).Perm input
  distinct : (paths remaining).Nodup

theorem Rounds.next {input selected remaining : Candidates S} {c : FusedCandidate S} {i : ℕ}
    (h : Rounds input selected remaining) (hc : remaining[i]? = some c) :
    Rounds input (selected ++ [c]) (remaining.eraseIdx i) := by
  obtain ⟨hi, rfl⟩ := List.getElem?_eq_some_iff.mp hc
  refine ⟨?_, h.distinct.sublist ((eraseIdx_sublist remaining i).map _)⟩
  simpa using ((getElem_cons_eraseIdx_perm hi).append_left selected).trans h.perm

end Stems

variable {K : Type} [Field K] {input selected remaining out cs : Candidates K} {lambda : K} {c d : FusedCandidate K}
  {i j : ℕ}

def marginal (lambda fused : K) (similarity : ℕ) : K := lambda * fused - (1 - lambda) * similarity

/-- What a remaining candidate is charged too much if the input's candidate at its place is counted in its stead. -/
def surcharge (input selected : Candidates K) (i : ℕ) (c : FusedCandidate K) : K :=
  (input[i]?.map (stemCount selected)).getD 0 - stemCount selected c

variable [LinearOrder K]

/-- The first of the best, with its place; what is worth a candidate goes down with what `similar` counts. -/
def best (lambda : K) (similar : ℕ → FusedCandidate K → ℕ) (cs : Candidates K) : Option (FusedCandidate K × ℕ) :=
  ((List.range cs.length).argmax fun i => (cs[i]?.map fun c => marginal lambda c.fused (similar i c)).getD 0).bind
    fun i => cs[i]?.map (·, i)

def FirstBest (lambda : K) (similar : ℕ → FusedCandidate K → ℕ) (cs : Candidates K) (i : ℕ)
    (c : FusedCandidate K) : Prop :=
  cs[i]? = some c ∧ ∀ j d, cs[j]? = some d →
    marginal lambda d.fused (similar j d) ≤ marginal lambda c.fused (similar i c) ∧
      (j < i → marginal lambda d.fused (similar j d) < marginal lambda c.fused (similar i c))

/-- Each candidate of the output is the first of the best that remain, by its own stem. -/
inductive Greedy (lambda : K) : Candidates K → Candidates K → Candidates K → Prop
  | done (selected : Candidates K) : Greedy lambda selected [] []
  | next {selected remaining out : Candidates K} {c : FusedCandidate K} (i : ℕ)
      (hbest : FirstBest lambda (fun _ => stemCount selected) remaining i c)
      (hrest : Greedy lambda (selected ++ [c]) (remaining.eraseIdx i) out) : Greedy lambda selected remaining (c :: out)

/-- Round by round, where each candidate is judged by its own stem: the one to select leads every other one by no
less than the surcharge makes up for, and by more if that one stands before it. -/
def LeadsCover (input : Candidates K) (lambda : K) : ℕ → Candidates K → Candidates K → Prop
  | 0, _, _ => True
  | n + 1, selected, remaining => ∀ p ∈ best lambda (fun _ => stemCount selected) remaining,
      (∀ q ∈ remaining.zipIdx,
        let lead := marginal lambda p.1.fused (stemCount selected p.1) -
          marginal lambda q.1.fused (stemCount selected q.1)
        let lost := (1 - lambda) * (surcharge input selected p.2 p.1 - surcharge input selected q.2 q.1)
        lost ≤ lead ∧ (q.2 < p.2 → lost < lead)) ∧
      LeadsCover input lambda n (selected ++ [p.1]) (remaining.eraseIdx p.2)

instance LeadsCover.decidable (input : Candidates K) (lambda : K) :
    ∀ n selected remaining, Decidable (LeadsCover input lambda n selected remaining)
  | 0, _, _ => isTrue trivial
  | n + 1, selected, remaining =>
    have := LeadsCover.decidable input lambda n
    inferInstanceAs (Decidable (∀ p ∈ best lambda (fun _ => stemCount selected) remaining, _ ∧ _))

theorem FirstBest.unique {similar : ℕ → FusedCandidate K → ℕ} (h : FirstBest lambda similar cs i c)
    (h' : FirstBest lambda similar cs j d) : i = j := by
  rcases lt_trichotomy i j with hlt | heq | hgt
  · exact absurd ((h'.2 i c h.1).2 hlt) (h.2 j d h'.1).1.not_gt
  · exact heq
  · exact absurd ((h.2 j d h'.1).2 hgt) (h'.2 i c h.1).1.not_gt

/-- The head of the output was picked where it stands. -/
theorem Greedy.head (h : Greedy lambda selected remaining (c :: out)) (hpaths : (paths remaining).Nodup)
    (hc : remaining[i]? = some c) :
    FirstBest lambda (fun _ => stemCount selected) remaining i c ∧
      Greedy lambda (selected ++ [c]) (remaining.eraseIdx i) out := by
  cases h with
  | next k hbest hrest =>
    obtain ⟨hk, hkc⟩ := List.getElem?_eq_some_iff.mp hbest.1
    obtain ⟨hi, hic⟩ := List.getElem?_eq_some_iff.mp hc
    obtain rfl := (List.Nodup.of_map _ hpaths).getElem_inj_iff.mp (hkc.trans hic.symm)
    exact ⟨hbest, hrest⟩

variable [IsStrictOrderedRing K]

def candidate (path : String) (fused : ℚ) : FusedCandidate ℚ := ⟨lit path, false, fused⟩

end CodeMemory.Crawl
