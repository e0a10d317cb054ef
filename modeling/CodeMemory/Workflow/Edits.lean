import CodeMemory.Lib.Order
import CodeMemory.Lib.Path
import CodeMemory.Lib.Trim

/-! The edits of a change set. Validation rejects ranges that are malformed or that
overlap in one file, and the edits of a file are then applied to its text from the
last to the first. -/

namespace CodeMemory.Workflow

open Lib Lib.GoString Lib.Path List

/-- The half-open range from `start` to `stop`. -/
structure EditRange where
  start : ℤ
  stop : ℤ
  deriving DecidableEq

def EditRange.valid (r : EditRange) : Bool := 0 ≤ r.start && 0 ≤ r.stop && r.start ≤ r.stop

/-- An insertion overlaps whatever it touches. -/
def EditRange.overlaps (r o : EditRange) : Bool :=
  if r.start = r.stop then o.start ≤ r.start && r.start ≤ o.stop
  else if o.start = o.stop then r.start ≤ o.start && o.start ≤ r.stop
  else r.start < o.stop && o.start < r.stop

structure CandidateEdit where
  path : GoString
  range : EditRange
  baseDigest : GoString
  predictedDigest : GoString
  observedDigest : GoString
  replacement : GoString

structure ChangeSet where
  baseDigests : GoMap GoString GoString
  edits : List CandidateEdit

inductive RejectReason where
  | staleBase
  | pathEscape
  | overlap
  | partialFailure
  | empty
  | badRange
  | missingDigest
  deriving DecidableEq

def validateChangePath (p : GoString) : Bool :=
  let p := trimSpace p
  p ≠ [] && !hasPrefix p [slash] && !p.contains 0x5C && lit ".." ∉ p.splitOn slash

/-- The checks of one edit, each of which may add a reason. -/
def ChangeSet.rejectedEdit (cs : ChangeSet) (e : CandidateEdit) : List RejectReason :=
  let frozen := (cs.baseDigests.lookup e.path).getD []
  (if validateChangePath e.path then [] else [.pathEscape]) ++
  (if e.range.valid then [] else [.badRange]) ++
  (if frozen = [] ∨ e.baseDigest = [] then [.missingDigest] else if frozen ≠ e.baseDigest then [.staleBase] else []) ++
  (if e.predictedDigest = [] ∨ e.observedDigest = [] then [.missingDigest]
    else if e.predictedDigest ≠ e.observedDigest then [.partialFailure] else [])

/-- A reason for each pair of edits of one file that overlap. -/
def rejectedPairs : List CandidateEdit → List RejectReason
  | [] => []
  | e :: es => (es.filter (fun o => e.range.overlaps o.range)).map (fun _ => .overlap) ++ rejectedPairs es

/-- The reasons of `Validate`, in the order of its checks. -/
def ChangeSet.rejected (cs : ChangeSet) : List RejectReason :=
  if cs.edits = [] then [.empty]
  else (cs.edits.flatMap cs.rejectedEdit ++
    (sortedSet (cs.edits.map CandidateEdit.path).toFinset).flatMap (fun p =>
      rejectedPairs (cs.edits.filter (fun e => e.path = p)))).eraseDups

def editsForPath (edits : List CandidateEdit) (path : GoString) : List CandidateEdit :=
  (edits.filter (fun e => e.path = path)).insertionSort (fun a b => b.range.start ≤ a.range.start)

/-- The text after the edits; an edit outside of what the text is by then is an error. -/
def applyFileEdits : GoString → List CandidateEdit → Except (EditRange × ℕ) GoString
  | out, [] => .ok out
  | out, e :: es =>
    if e.range.start < 0 ∨ e.range.stop < e.range.start ∨
      (out.length : ℤ) < e.range.stop then .error (e.range, out.length)
    else applyFileEdits (out.take e.range.start.toNat ++ (e.replacement ++ out.drop e.range.stop.toNat)) es

/-- The edits, in ascending order and in the coordinates of the whole text, replace their
ranges of what follows position `i`, and the rest is kept. -/
inductive Splices : ℕ → List CandidateEdit → GoString → GoString → Prop
  | done (i : ℕ) (rest : GoString) : Splices i [] rest rest
  | edit {i : ℕ} {e : CandidateEdit} {es : List CandidateEdit} {gap cut rest out : GoString}
      (hstart : e.range.start = i + gap.length) (hstop : e.range.stop = e.range.start + cut.length)
      (hrest : Splices (i + gap.length + cut.length) es rest out) :
      Splices i (e :: es) (gap ++ (cut ++ rest)) (gap ++ (e.replacement ++ out))

variable {es edits : List CandidateEdit} {e : CandidateEdit} {path : GoString}

theorem Splices.concat {i : ℕ} {text out cut : GoString} (h : Splices i es text out)
    (hstart : e.range.start = i + text.length) (hstop : e.range.stop = e.range.start + cut.length) (rest : GoString) :
    Splices i (es ++ [e]) (text ++ (cut ++ rest)) (out ++ (e.replacement ++ rest)) := by
  induction h with
  | done i text => exact .edit hstart hstop (.done _ rest)
  | edit h₁ h₂ _ ih =>
    simp only [length_append, Nat.cast_add] at hstart
    simp only [cons_append, append_assoc]
    exact .edit h₁ h₂ (ih (by push_cast; omega))

/-- Edits in descending order, none of which reaches into the one before. -/
def Separated (es : List CandidateEdit) : Prop :=
  es.Pairwise (fun a b => b.range.start < a.range.start ∧ b.range.stop ≤ a.range.start)

/-- Edits that end within a prefix of the text are spliced into it. -/
theorem applyFileEdits_append (hvalid : ∀ e ∈ es, e.range.valid = true) (hsep : Separated es) (pre post : GoString)
    (hpre : ∀ e ∈ es, e.range.stop ≤ pre.length) :
    ∃ out, applyFileEdits (pre ++ post) es = .ok (out ++ post) ∧ Splices 0 es.reverse pre out := by
  induction es generalizing pre post with
  | nil => exact ⟨pre, rfl, .done 0 pre⟩
  | cons e es ih =>
    obtain ⟨hbelow, hsep⟩ := pairwise_cons.mp hsep
    have hrange := hvalid e (.head _)
    have hstop := hpre e (.head _)
    simp only [EditRange.valid, Bool.and_eq_true, decide_eq_true_eq] at hrange
    obtain ⟨s, hs⟩ := Int.eq_ofNat_of_zero_le hrange.1.1
    obtain ⟨t, ht⟩ := Int.eq_ofNat_of_zero_le hrange.1.2
    have hbounds : s ≤ t ∧ t ≤ pre.length := by omega
    obtain ⟨out, hout, hsplices⟩ := ih (fun d hd => hvalid d (mem_cons_of_mem e hd)) hsep (pre.take s)
      (e.replacement ++ (pre.drop t ++ post)) (fun d hd => by
        have := (hbelow d hd).2
        simp only [length_take]
        omega)
    refine ⟨out ++ (e.replacement ++ pre.drop t), ?_, ?_⟩
    · rw [applyFileEdits, if_neg (by simp only [length_append]; omega), hs, ht]
      simp only [Int.toNat_natCast]
      rw [take_append_of_le_length (by omega), drop_append_of_le_length hbounds.2, hout]
      simp only [append_assoc]
    · have hcut : pre = pre.take s ++ ((pre.drop s).take (t - s) ++ pre.drop t) := by
        conv_lhs => rw [← take_append_drop s pre, ← take_append_drop (t - s) (pre.drop s), drop_drop]
        rw [Nat.add_sub_cancel' hbounds.1]
      rw [reverse_cons]
      nth_rewrite 1 [hcut]
      refine hsplices.concat ?_ ?_ _
      · simp only [length_take]
        omega
      · simp only [length_take, length_drop]
        omega

theorem stop_le_of_applyFileEdits (hvalid : ∀ e ∈ es, e.range.valid = true) (hsep : Separated es) {body out : GoString}
    (h : applyFileEdits body es = .ok out) : ∀ e ∈ es, e.range.stop ≤ body.length := by
  cases es with
  | nil => simp
  | cons e es =>
    rw [applyFileEdits] at h
    split_ifs at h with hin
    have hbelow := (pairwise_cons.mp hsep).1
    refine forall_mem_cons.mpr ⟨by omega, fun d hd => ?_⟩
    have := (hbelow d hd).2
    omega

theorem editsForPath_perm (edits : List CandidateEdit) (path : GoString) :
    (editsForPath edits path).Perm (edits.filter (fun e => e.path = path)) := perm_insertionSort _ _

theorem overlaps_comm (r o : EditRange) : r.overlaps o = o.overlaps r := by
  rw [Bool.eq_iff_iff]
  unfold EditRange.overlaps
  split_ifs <;> simp only [Bool.and_eq_true, decide_eq_true_eq] <;> omega

theorem pairwise_of_rejectedPairs (h : .overlap ∉ rejectedPairs es) :
    es.Pairwise (fun a b => a.range.overlaps b.range = false) := by
  induction es with
  | nil => exact .nil
  | cons e es ih =>
    simp only [rejectedPairs, mem_append, mem_map, mem_filter, not_or, and_true] at h
    refine .cons (fun d hd => ?_) (ih h.2)
    by_contra hover
    exact h.1 ⟨d, hd, by simpa using hover⟩

theorem separated_editsForPath (hvalid : ∀ e ∈ edits, e.range.valid = true)
    (hapart : (edits.filter (fun e => e.path = path)).Pairwise (fun a b => a.range.overlaps b.range = false)) :
    Separated (editsForPath edits path) := by
  have hperm := editsForPath_perm edits path
  have hsort : (editsForPath edits path).Pairwise (fun a b => b.range.start ≤ a.range.start) :=
    pairwise_insertionSort _ _
  have happly := (hperm.pairwise_iff (fun {a b} h => (overlaps_comm b.range a.range).trans h)).mpr hapart
  refine (hsort.and happly).imp_of_mem (fun {a b} ha hb h => ?_)
  have hva := hvalid a (mem_filter.mp (hperm.subset ha)).1
  have hvb := hvalid b (mem_filter.mp (hperm.subset hb)).1
  simp only [EditRange.valid, EditRange.overlaps, Bool.and_eq_true, decide_eq_true_eq] at hva hvb h
  split_ifs at h <;> simp only [Bool.and_eq_false_iff, decide_eq_false_iff_not] at h <;> omega

theorem ChangeSet.not_rejected (cs : ChangeSet) (path : GoString) (hrange : .badRange ∉ cs.rejected)
    (hoverlap : .overlap ∉ cs.rejected) :
    (∀ e ∈ cs.edits, e.range.valid = true) ∧
      (cs.edits.filter (fun e => e.path = path)).Pairwise (fun a b => a.range.overlaps b.range = false) := by
  rcases eq_or_ne cs.edits [] with hnil | hne
  · simp [hnil]
  simp only [ChangeSet.rejected, if_neg hne, mem_eraseDups, mem_append, mem_flatMap, not_or, not_exists,
    not_and] at hrange hoverlap
  refine ⟨fun e he => ?_, pairwise_of_rejectedPairs ?_⟩
  · by_contra hbad
    exact hrange.1 e he (by simp [ChangeSet.rejectedEdit, hbad])
  · by_cases hpath : path ∈ cs.edits.map CandidateEdit.path
    · exact hoverlap.2 path (by simpa using hpath)
    · rw [filter_eq_nil_iff.mpr (fun e he => by simpa using fun h => hpath (mem_map.mpr ⟨e, he, h⟩))]
      simp [rejectedPairs]

/-- Applying the edits of a file one by one succeeds exactly if they all end within it, splices
them in at once, and does not depend on their order. -/
theorem applyFileEdits_splices (cs : ChangeSet) (hrange : .badRange ∉ cs.rejected) (hoverlap : .overlap ∉ cs.rejected)
    (path body : GoString) :
    ((∃ out, applyFileEdits body (editsForPath cs.edits path) = .ok out) ↔
      ∀ e ∈ cs.edits, e.path = path → e.range.stop ≤ body.length) ∧
    (∀ out, applyFileEdits body (editsForPath cs.edits path) = .ok out →
      ∃ ascending, ascending.Perm (cs.edits.filter (fun e => e.path = path)) ∧ Splices 0 ascending body out) ∧
    ∀ edits, edits.Perm cs.edits →
      applyFileEdits body (editsForPath edits path) = applyFileEdits body (editsForPath cs.edits path) := by
  obtain ⟨hvalid, hapart⟩ := cs.not_rejected path hrange hoverlap
  have hperm := editsForPath_perm cs.edits path
  have hsep := separated_editsForPath hvalid hapart
  have hmem : ∀ e, e ∈ editsForPath cs.edits path ↔ e ∈ cs.edits ∧ e.path = path := by
    simp [hperm.mem_iff]
  have hfile : ∀ e ∈ editsForPath cs.edits path, e.range.valid = true := fun e he => hvalid e ((hmem e).mp he).1
  have hfits : (∀ e ∈ editsForPath cs.edits path, e.range.stop ≤ body.length) →
      ∃ out, applyFileEdits body (editsForPath cs.edits path) = .ok out ∧
        Splices 0 (editsForPath cs.edits path).reverse body out := by
    intro h
    simpa using applyFileEdits_append hfile hsep body [] h
  refine ⟨⟨?_, fun h => ?_⟩, fun out hout => ?_, fun edits hedits => ?_⟩
  · rintro ⟨out, hout⟩ e he hpath
    exact stop_le_of_applyFileEdits hfile hsep hout e ((hmem e).mpr ⟨he, hpath⟩)
  · obtain ⟨out, hout, -⟩ := hfits (fun e he => h e ((hmem e).mp he).1 ((hmem e).mp he).2)
    exact ⟨out, hout⟩
  · obtain ⟨out', hout', hsplices⟩ := hfits (stop_le_of_applyFileEdits hfile hsep hout)
    obtain rfl := Except.ok.inj (hout.symm.trans hout')
    exact ⟨_, (reverse_perm _).trans hperm, hsplices⟩
  · have hfilter := hedits.filter (fun e => e.path = path)
    have hsep' : Separated (editsForPath edits path) := separated_editsForPath (fun e he => hvalid e (hedits.subset he))
      ((hfilter.pairwise_iff (fun {a b} h => (overlaps_comm b.range a.range).trans h)).mpr hapart)
    rw [((editsForPath_perm edits path).trans (hfilter.trans hperm.symm)).eq_of_pairwise ?_ hsep' hsep]
    intro a b _ _ hab hba
    omega

def oneEdit (start stop : ℤ) (replacement : String) : CandidateEdit :=
  ⟨lit "f", ⟨start, stop⟩, [], [], [], lit replacement⟩

/-- A replacement and an insertion behind it. -/
theorem applyFileEdits_splices_two : applyFileEdits (lit "abcdef")
    (editsForPath [oneEdit 1 3 "X", oneEdit 5 5 "YZ"] (lit "f")) = .ok (lit "aXdeYZf") ∧
    ∃ ascending, ascending.Perm [oneEdit 1 3 "X", oneEdit 5 5 "YZ"] ∧
      Splices 0 ascending (lit "abcdef") (lit "aXdeYZf") :=
  have hout : applyFileEdits (lit "abcdef") (editsForPath [oneEdit 1 3 "X", oneEdit 5 5 "YZ"] (lit "f")) =
      .ok (lit "aXdeYZf") := by decide +kernel
  ⟨hout, (applyFileEdits_splices ⟨∅, [oneEdit 1 3 "X", oneEdit 5 5 "YZ"]⟩ (by decide +kernel) (by decide +kernel)
    (lit "f") (lit "abcdef")).2.1 _ hout⟩

end CodeMemory.Workflow
