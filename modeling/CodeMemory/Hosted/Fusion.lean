import CodeMemory.Lib.Order

/-! Reciprocal rank fusion. The hits of all channels are gathered in a map and sorted by
score and document, which leaves chunks of one document with equal scores in the order in
which the map is iterated. -/

namespace CodeMemory.Hosted

open Lib Lib.GoString Lib.GoMap List

structure Hit where
  chunkID : GoString
  dsid : GoString
  text : GoString
  sourceURI : GoString
  score : ℚ
  channel : GoString
  deriving DecidableEq

def Hit.key (h : Hit) : GoString := if h.chunkID = [] then h.dsid ++ lit "|" ++ h.channel else h.chunkID

structure FusionAcc where
  hit : Hit
  sc : ℚ

def reciprocalRank (k : ℕ) (x : Hit × ℕ) : ℚ := 1 / (k + x.2 + 1)

def accumulate (k : ℕ) (m : GoMap GoString FusionAcc) (x : Hit × ℕ) : GoMap GoString FusionAcc :=
  if x.1.key = [] then m
  else
    match m.lookup x.1.key with
    | some cur => m.insert x.1.key ⟨if cur.hit.score < x.1.score then x.1 else cur.hit, cur.sc + reciprocalRank k x⟩
    | none => m.insert x.1.key ⟨x.1, reciprocalRank k x⟩

def rankConstant (k : ℤ) : ℕ := if k ≤ 0 then 60 else k.toNat

def rankedHits (lists : List (List Hit)) : List (Hit × ℕ) := lists.flatMap zipIdx

def fusionMap (lists : List (List Hit)) (k : ℤ) : GoMap GoString FusionAcc :=
  (rankedHits lists).foldl (accumulate (rankConstant k)) ∅

def FusionAcc.before (a b : FusionAcc) : Bool :=
  if a.sc ≠ b.sc then b.sc < a.sc else !strLe b.hit.dsid a.hit.dsid

def FusionAcc.out (x : FusionAcc) : Hit := { x.hit with score := x.sc }

/-- The fusion, where the map is iterated in the order given. -/
def rrfFuseMany (order : List GoString) (lists : List (List Hit)) (k : ℤ) : List Hit :=
  let m := fusionMap lists k
  (((iterated order m).filterMap m.lookup).insertionSort (fun a b => b.before a = false)).map
    FusionAcc.out

def hitsOf (xs : List (Hit × ℕ)) (key : GoString) : List (Hit × ℕ) := xs.filter (fun x => x.1.key = key)

/-- The sum of the reciprocal ranks of a key over all channels. -/
def rankSum (k : ℕ) (xs : List (Hit × ℕ)) (key : GoString) : ℚ := ((hitsOf xs key).map (reciprocalRank k)).sum

/-- The first of the hits with the highest score that a channel gave. -/
def bestHit (xs : List (Hit × ℕ)) (key : GoString) : Option Hit := ((hitsOf xs key).argmax (·.1.score)).map Prod.fst

/-- No two keys have both the same sum and a best hit in the same document. -/
def Untied (lists : List (List Hit)) (k : ℤ) : Prop :=
  ∀ a b x y, bestHit (rankedHits lists) a = some x → bestHit (rankedHits lists) b = some y → x.dsid = y.dsid →
    rankSum (rankConstant k) (rankedHits lists) a = rankSum (rankConstant k) (rankedHits lists) b → a = b

theorem Hit.key_ne_nil (h : Hit) : h.key ≠ [] := by
  unfold Hit.key
  split_ifs with hc
  · simp [lit]
  · exact hc

theorem lookup_fusion (k : ℕ) (xs : List (Hit × ℕ)) (key : GoString) :
    (xs.foldl (accumulate k) ∅).lookup key = (bestHit xs key).map (⟨·, rankSum k xs key⟩) := by
  induction xs using List.reverseRecOn with
  | nil => simp [bestHit, hitsOf]
  | append_singleton xs x ih =>
    rw [foldl_append, foldl_cons, foldl_nil, accumulate, if_neg x.1.key_ne_nil]
    by_cases hx : x.1.key = key
    · subst hx
      have hits : hitsOf (xs ++ [x]) x.1.key = hitsOf xs x.1.key ++ [x] := by simp [hitsOf]
      rw [ih, bestHit, bestHit, rankSum, rankSum, hits, argmax_concat, map_append, sum_append]
      cases hbest : (hitsOf xs x.1.key).argmax (·.1.score) with
      | none => simp [argmax_eq_none.mp hbest]
      | some c => by_cases hlt : c.1.score < x.1.score <;> simp [hlt]
    · have hits : hitsOf (xs ++ [x]) key = hitsOf xs key := by simp [hitsOf, hx]
      rw [bestHit, rankSum, hits, ← rankSum, ← bestHit, ← ih]
      split <;> rw [lookup_insert_eq, if_neg (Ne.symm hx)]

variable {lists : List (List Hit)} {k : ℤ} {key : GoString} {x y : FusionAcc}

theorem lookup_fusionMap_iff : (fusionMap lists k).lookup key = some x ↔
    bestHit (rankedHits lists) key = some x.hit ∧ x.sc = rankSum (rankConstant k) (rankedHits lists) key := by
  rw [fusionMap, lookup_fusion, Option.map_eq_some_iff]
  constructor
  · rintro ⟨h, hh, rfl⟩
    exact ⟨hh, rfl⟩
  · rintro ⟨hh, hs⟩
    exact ⟨x.hit, hh, by rw [← hs]⟩

theorem key_of_bestHit {xs : List (Hit × ℕ)} {h : Hit} (hh : bestHit xs key = some h) : h.key = key := by
  obtain ⟨x, hx, rfl⟩ := Option.map_eq_some_iff.mp hh
  simpa using (mem_filter.mp (argmax_mem hx)).2

theorem rrfFuseMany_perm (order : List GoString) : (rrfFuseMany order lists k).Perm
    ((iterated order (fusionMap lists k)).filterMap (fun key =>
      ((fusionMap lists k).lookup key).map FusionAcc.out)) := by
  rw [← map_filterMap]
  exact (perm_insertionSort _ _).map _

theorem before_eq_false_iff :
    y.before x = false ↔ y.sc < x.sc ∨ x.sc = y.sc ∧ strLe x.hit.dsid y.hit.dsid = true := by
  unfold FusionAcc.before
  split_ifs with h
  · simp [Ne.symm h, lt_iff_le_and_ne, h]
  · simp [not_not.mp h]

theorem tied_of_before (h : y.before x = false) (h' : x.before y = false) :
    x.sc = y.sc ∧ x.hit.dsid = y.hit.dsid := by
  rw [before_eq_false_iff] at h h'
  rcases h with h | ⟨h, hs⟩
  · exact absurd h (h'.elim (fun h' => h'.not_gt) (fun h' => h'.1.not_lt))
  · exact ⟨h, strLe_antisymm hs (h'.resolve_left h.not_lt).2⟩

instance : Std.Total (fun a b : FusionAcc => b.before a = false) where
  total a b := by
    simp only [before_eq_false_iff]
    rcases lt_trichotomy a.sc b.sc with h | h | h
    · exact .inr (.inl h)
    · exact (strLe_total a.hit.dsid b.hit.dsid).imp (fun hs => .inr ⟨h, hs⟩) (fun hs => .inr ⟨h.symm, hs⟩)
    · exact .inl (.inl h)

instance : IsTrans FusionAcc (fun a b => b.before a = false) where
  trans a b c := by
    simp only [before_eq_false_iff]
    rintro (h | ⟨h, hs⟩) (h' | ⟨h', hs'⟩)
    · exact .inl (h'.trans h)
    · exact .inl (h' ▸ h)
    · exact .inl (h ▸ h')
    · exact .inr ⟨h.trans h', strLe_trans hs hs'⟩

/-- Two entries of a list without duplicates stand in one order only. -/
theorem not_sublist_swap {α : Type} {l : List α} {a b : α} (hl : l.Nodup) (h : [a, b] <+ l) : ¬ [b, a] <+ l := by
  induction l with
  | nil => cases h
  | cons c l ih =>
    intro h'
    obtain ⟨hc, hl⟩ := nodup_cons.mp hl
    cases h with
    | cons _ h =>
      cases h' with
      | cons _ h' => exact ih hl h h'
      | cons_cons _ h' => exact hc (h.subset (by simp))
    | cons_cons _ h =>
      cases h' with
      | cons _ h' => exact hc (h'.subset (by simp))
      | cons_cons _ h' => exact hc (h.subset (by simp))

theorem pair_sublist_rrfFuseMany {a b : GoString} (hab : a ≠ b)
    (hx : (fusionMap lists k).lookup a = some x) (hy : (fusionMap lists k).lookup b = some y) (hsc : x.sc = y.sc)
    (hdsid : x.hit.dsid = y.hit.dsid) : [x.out, y.out] <+ rrfFuseMany [a, b] lists k := by
  have hkeys : [a, b] <+ iterated [a, b] (fusionMap lists k) := by
    simp [iterated, eraseDups_cons, mem_keys_of_lookup hx, mem_keys_of_lookup hy, Ne.symm hab]
  have hpair := hkeys.filterMap (fusionMap lists k).lookup
  simp only [filterMap_cons, hx, hy, filterMap_nil] at hpair
  have hle : y.before x = false := before_eq_false_iff.mpr (.inr ⟨hsc, hdsid ▸ (strLe_total _ _).elim id id⟩)
  exact (pair_sublist_insertionSort (r := fun a b => b.before a = false) hle hpair).map FusionAcc.out

/-- The fusion does not depend on how the map is iterated just when no two keys tie; its scores are the sums. -/
theorem rrfFuseMany_order_iff (lists : List (List Hit)) (k : ℤ) :
    ((∀ order order', rrfFuseMany order lists k = rrfFuseMany order' lists k) ∧
      ∀ order, ∀ h ∈ rrfFuseMany order lists k,
        h.score = rankSum (rankConstant k) (rankedHits lists) h.key) ↔ Untied lists k := by
  have hout : ∀ {key h}, ((fusionMap lists k).lookup key).map FusionAcc.out = some h →
      h.key = key ∧ h.score = rankSum (rankConstant k) (rankedHits lists) key := by
    intro key h hh
    obtain ⟨x, hx, rfl⟩ := Option.map_eq_some_iff.mp hh
    obtain ⟨hbest, hsum⟩ := lookup_fusionMap_iff.mp hx
    exact ⟨(key_of_bestHit hbest : x.hit.key = key), hsum⟩
  constructor
  · rintro ⟨horder, -⟩ a b x y hx hy hdsid hsum
    by_contra hab
    have hnodup : (rrfFuseMany [a, b] lists k).Nodup :=
      (rrfFuseMany_perm _).nodup_iff.mpr ((nodup_iterated _ _).filterMap fun key key' h hk hk' =>
        (hout hk).1.symm.trans (hout hk').1)
    have ha := lookup_fusionMap_iff (k := k) (x := ⟨x, _⟩) |>.mpr ⟨hx, rfl⟩
    have hb := lookup_fusionMap_iff (k := k) (x := ⟨y, _⟩) |>.mpr ⟨hy, rfl⟩
    refine not_sublist_swap hnodup (pair_sublist_rrfFuseMany hab ha hb hsum hdsid) ?_
    rw [horder [a, b] [b, a]]
    exact pair_sublist_rrfFuseMany (Ne.symm hab) hb ha hsum.symm hdsid.symm
  · refine fun huntied => ⟨fun order order' => congrArg (map FusionAcc.out) ?_, fun order h hh => ?_⟩
    · refine Perm.eq_of_pairwise (fun x y hx hy hle hle' => ?_) (pairwise_insertionSort _ _)
        (pairwise_insertionSort _ _)
          ((perm_insertionSort _ _).trans (.trans (.filterMap _ ?_) (perm_insertionSort _ _).symm))
      · obtain ⟨a, -, ha⟩ := mem_filterMap.mp ((perm_insertionSort _ _).subset hx)
        obtain ⟨b, -, hb⟩ := mem_filterMap.mp ((perm_insertionSort _ _).subset hy)
        obtain ⟨hsc, hdsid⟩ := tied_of_before hle hle'
        obtain ⟨hx, hxs⟩ := lookup_fusionMap_iff.mp ha
        obtain ⟨hy, hys⟩ := lookup_fusionMap_iff.mp hb
        obtain rfl := huntied a b _ _ hx hy hdsid (hxs.symm.trans (hsc.trans hys))
        exact Option.some.inj (ha.symm.trans hb)
      · exact (perm_ext_iff_of_nodup (nodup_iterated _ _) (nodup_iterated _ _)).mpr fun key => by
          rw [mem_iterated, mem_iterated]
    · obtain ⟨key, -, hkey⟩ := mem_filterMap.mp ((rrfFuseMany_perm order).subset hh)
      obtain ⟨rfl, hscore⟩ := hout hkey
      exact hscore

def channelHit (chunkID : String) : Hit := ⟨lit chunkID, lit "doc", [], [], 1, lit "dense"⟩

/-- Two chunks of a document, each first in its channel. -/
theorem rrfFuseMany_order_matters :
    rrfFuseMany [lit "c1", lit "c2"] [[channelHit "c1"], [channelHit "c2"]] 60 ≠
      rrfFuseMany [lit "c2", lit "c1"] [[channelHit "c1"], [channelHit "c2"]] 60 := by
  decide +kernel

end CodeMemory.Hosted
