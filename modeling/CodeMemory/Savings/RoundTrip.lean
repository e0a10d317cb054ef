import CodeMemory.Lib.Trim
import CodeMemory.Savings.Ledger

/-! What `Open` finds in a file that `Record` wrote: the same counters, with every text made
valid UTF-8. A step that passed its checks passes them again after that, since an invalid
byte is replaced by a character that is no white space. -/

namespace CodeMemory.Savings

open Lib Lib.GoString Lib.Json

def Step.asRead (s : Step) : Step :=
  { s with
    name := toValid s.name
    category := toValid s.category
    estimator := toValid s.estimator
    baselineModel := toValid s.baselineModel }

def CategorySummary.asRead (c : CategorySummary) : CategorySummary := { c with category := toValid c.category }

def Rollup.asRead (r : Rollup) : Rollup := { r with categories := r.categories.map .asRead }

def DiskLedger.asRead (d : DiskLedger) : DiskLedger :=
  { d with steps := d.steps.map .asRead, rollup := d.rollup.map .asRead }

theorem fields_totals (t : Totals) : Fields totalsNames (totalsFields t) := ⟨rfl, by decide +kernel, by decide +kernel⟩

theorem fields_step (s : Step) : Fields stepNames (stepFields s) := ⟨rfl, by decide +kernel, by decide +kernel⟩

theorem fields_category (c : CategorySummary) : Fields categoryNames (categoryFields c) :=
  ⟨rfl, by decide +kernel, by decide +kernel⟩

theorem fields_rollup (r : Rollup) : Fields rollupNames (rollupFields r) := ⟨rfl, by decide +kernel, by decide +kernel⟩

theorem fields_disk (d : DiskLedger) : Fields diskNames (diskFields d) := ⟨rfl, by decide +kernel, by decide +kernel⟩

theorem decodeTotals_json (t : Totals) : decodeTotals .zero (clean (totalsJson t)) = some t := by
  have h := fields_totals t
  rw [totalsJson, clean, decodeTotals, if_pos (known_emit h)]
  simp only [Totals.zero]
  rw [readField_int64 h (n := t.baselineBytes) (by simp [totalsFields]),
    readField_int64 h (n := t.servedBytes) (by simp [totalsFields]),
    readField_int64 h (n := t.savedBytes) (by simp [totalsFields]),
    readField_int64 h (n := t.baselineTokensEst) (by simp [totalsFields]),
    readField_int64 h (n := t.servedTokensEst) (by simp [totalsFields]),
    readField_int64 h (n := t.savedTokensEst) (by simp [totalsFields]),
    readField_uint64 h (n := t.dedupCount) (by simp [totalsFields]),
    readField_uint64 h (n := t.compressionCount) (by simp [totalsFields]),
    readField_uint64 h (n := t.avoidedReads) (by simp [totalsFields]),
    readField_uint64 h (n := t.modelCalls) (by simp [totalsFields]),
    readField_uint64 h (n := t.avoidedModelCalls) (by simp [totalsFields])]
  rfl

theorem decodeStep_json (s : Step) : decodeStep .zero (clean (stepJson s)) = some s.asRead := by
  have h := fields_step s
  rw [stepJson, clean, decodeStep, if_pos (known_emit h)]
  simp only [Step.zero]
  rw [readField_str h (s := s.name) (by simp [stepFields]),
    readField_str h (s := s.category) (by simp [stepFields]),
    readField_str h (s := s.estimator) (by simp [stepFields]),
    readField_str h (s := s.baselineModel) (by simp [stepFields]),
    readField_int64 h (n := s.baselineBytes) (by simp [stepFields]),
    readField_int64 h (n := s.servedBytes) (by simp [stepFields]),
    readField_int64 h (n := s.baselineTokensEst) (by simp [stepFields]),
    readField_int64 h (n := s.servedTokensEst) (by simp [stepFields]),
    readField_uint64 h (n := s.dedupCount) (by simp [stepFields]),
    readField_uint64 h (n := s.compressionCount) (by simp [stepFields]),
    readField_uint64 h (n := s.avoidedReads) (by simp [stepFields]),
    readField_uint64 h (n := s.modelCalls) (by simp [stepFields]),
    readField_uint64 h (n := s.avoidedModelCalls) (by simp [stepFields])]
  rfl

variable {names : List GoString} {fs : List (GoString × Option Json)} {name : GoString} {step : Step}

theorem readField_totals (h : Fields names fs) {t : Totals} (hm : (name, some (totalsJson t)) ∈ fs) :
    readField names (cleanMembers (emit fs)) decodeTotals name .zero = some t := by
  rw [readField_present h hm]
  exact decodeTotals_json t

theorem decodeCategory_json (c : CategorySummary) : decodeCategory .zero (clean (categoryJson c)) = some c.asRead := by
  have h := fields_category c
  rw [categoryJson, clean, decodeCategory, if_pos (known_emit h)]
  simp only [CategorySummary.zero]
  rw [readField_str h (s := c.category) (by simp [categoryFields]),
    readField_int64 h (n := c.steps) (by simp [categoryFields]),
    readField_totals h (t := c.totals) (by simp [categoryFields])]
  rfl

theorem readField_categories (h : Fields names fs) {l : List CategorySummary}
    (hm : (name, if l = [] then none else some (.arr (l.map categoryJson))) ∈ fs) :
    readField names (cleanMembers (emit fs)) (decodeArray .zero decodeCategory) name [] = some (l.map .asRead) := by
  by_cases hl : l = []
  · rw [if_pos hl] at hm
    rw [readField_absent h hm, hl]
    rfl
  · rw [if_neg hl] at hm
    exact readField_array h decodeCategory_json hm

theorem decodeRollup_json (r : Rollup) : decodeRollup .zero (clean (rollupJson r)) = some r.asRead := by
  have h := fields_rollup r
  rw [rollupJson, clean, decodeRollup, if_pos (known_emit h)]
  simp only [Rollup.zero]
  rw [readField_int64 h (n := r.steps) (by simp [rollupFields]),
    readField_totals h (t := r.totals) (by simp [rollupFields]),
    readField_categories h (l := r.categories) (by simp [rollupFields])]
  rfl

theorem decodeDisk_json (d : DiskLedger) : decodeDisk .zero (clean (diskJson d)) = some d.asRead := by
  have h := fields_disk d
  have hrollup : readField diskNames (cleanMembers (emit (diskFields d))) (decodePointer .zero decodeRollup)
    (lit "rollup") none = some (d.rollup.map .asRead) := by
    cases hr : d.rollup with
    | none => exact readField_absent h (by simp [diskFields, hr]) _ _
    | some r =>
      rw [readField_present h (j := rollupJson r) (by simp [diskFields, hr])]
      have hdecode := decodeRollup_json r
      rw [decodePointer, Option.getD_none, hdecode]
      · rfl
      · exact fun hnull => by cases hnull
  rw [diskJson, clean, decodeDisk, if_pos (known_emit h)]
  simp only [DiskLedger.zero]
  rw [readField_int64 h (n := d.version) (by simp [diskFields]),
    readField_array h decodeStep_json (l := d.steps) (by simp [diskFields]), hrollup]
  rfl

theorem numbers_step (s : Step) : Numbers (stepJson s) :=
  numbersMembers_emit (by simp [stepFields])

theorem numbers_totals (t : Totals) : Numbers (totalsJson t) :=
  numbersMembers_emit (by simp [totalsFields])

theorem numbersElems_map {α : Type} {encode : α → Json} (h : ∀ a, Numbers (encode a)) (l : List α) :
    NumbersElems (l.map encode) := by
  induction l with
  | nil => trivial
  | cons a l ih => exact ⟨h a, ih⟩

theorem numbers_category (c : CategorySummary) : Numbers (categoryJson c) :=
  numbersMembers_emit (by simp [categoryFields, numbers_totals])

theorem numbers_rollup (r : Rollup) : Numbers (rollupJson r) :=
  numbersMembers_emit (by
    simp [rollupFields, numbers_totals, numbersOf_ite (j := .arr _) (numbersElems_map numbers_category r.categories)])

theorem numbers_disk (d : DiskLedger) : Numbers (diskJson d) := by
  have hsteps : Numbers (.arr (d.steps.map stepJson)) := numbersElems_map numbers_step d.steps
  have hrollup : NumbersOf (d.rollup.map rollupJson) := by
    cases d.rollup <;> simp [NumbersOf, numbers_rollup]
  exact numbersMembers_emit (by simp [diskFields, hsteps, hrollup])

theorem parseValue_marshal (d : DiskLedger) :
    parseValue (marshal d).length (marshal d) = some (clean (diskJson d), [0x0A]) :=
  parseValue_renderWith .indented (numbers_disk d) (ends_cons (by decide) [])

theorem validateStep_eq_ok_iff : validateStep step = .ok () ↔
    trimSpace step.name ≠ [] ∧ trimSpace step.category ≠ [] ∧
      ¬ (step.baselineBytes < 0 ∨ step.servedBytes < 0 ∨ step.baselineTokensEst < 0 ∨ step.servedTokensEst < 0) := by
  simp only [validateStep, Result.guard_eq_ok_iff, and_true, ne_eq]

theorem validateStep_asRead (h : validateStep step = .ok ()) : validateStep step.asRead = .ok () := by
  obtain ⟨hname, hcat, hcounts⟩ := validateStep_eq_ok_iff.mp h
  exact validateStep_eq_ok_iff.mpr ⟨trimSpace_toValid_ne_nil hname, trimSpace_toValid_ne_nil hcat, hcounts⟩

theorem validateSteps_ok {steps : List Step} (h : ∀ s ∈ steps, validateStep s = .ok ()) (index : ℕ) :
    validateSteps index steps = .ok () := by
  induction steps generalizing index with
  | nil => rfl
  | cons s steps ih =>
    rw [List.forall_mem_cons] at h
    rw [validateSteps, h.1]
    exact ih h.2 (index + 1)

/-- What was written by this version with valid steps is read back, as far as its texts are valid. -/
theorem decodeLedger_marshal {d : DiskLedger} (hversion : d.version = currentVersion)
    (hsteps : ∀ s ∈ d.steps, validateStep s = .ok ()) : decodeLedger (marshal d) = .ok (.ofDisk d.asRead) := by
  have hread : ∀ s ∈ d.asRead.steps, validateStep s = .ok () := by
    intro s hs
    obtain ⟨s', hs', rfl⟩ := List.mem_map.mp hs
    exact validateStep_asRead (hsteps s' hs')
  have hspace : ¬ skipSpace [0x0A] ≠ [] := by decide
  have hsame : ¬ d.asRead.version ≠ currentVersion := not_not.mpr hversion
  rw [decodeLedger, parseValue_marshal]
  simp only [Option.bind_some, decodeDisk_json, Option.map_some, if_neg hspace, if_neg hsame, validateSteps_ok hread]
  rfl

end CodeMemory.Savings
