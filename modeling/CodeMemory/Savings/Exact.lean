import CodeMemory.Lib.Schedule
import CodeMemory.Savings.RoundTrip
import CodeMemory.Savings.Totals

/-! The summary of a ledger is the sum over every step ever recorded, through any number
of failed calls, of steps that move into the rollup, and of reopened files. The one thing
that a file does not keep is a category that is no valid UTF-8: its bytes are replaced,
and two categories may become one, of which the summary then shows the last. -/

namespace CodeMemory.Savings

open Lib Lib.GoString Lib.Overflow Lib.Schedule Lib.GoMap List

/-- The summary of the steps, whatever their order. -/
structure Exact (s : Summary) (steps : List Step) : Prop where
  version : s.version = currentVersion
  count : s.steps.toInt = steps.length
  totals : s.totals.Sums steps
  names : s.categories.map (·.category) = sortedSet (steps.map (·.category)).toFinset
  each : ∀ c ∈ s.categories,
    c.steps.toInt = (inCategory c.category steps).length ∧ c.totals.Sums (inCategory c.category steps)
  countsAddUp : (s.categories.map (·.steps.toInt)).sum = s.steps.toInt
  addUp : ∀ k, (s.categories.map (·.totals.value k)).sum = s.totals.value k
  savedBytesAddUp : (s.categories.map (·.totals.savedBytes.toInt)).sum = s.totals.savedBytes.toInt
  savedTokensAddUp : (s.categories.map (·.totals.savedTokensEst.toInt)).sum = s.totals.savedTokensEst.toInt

variable {steps rolled : List Step} {t : Totals} {steps' : List Step} {s : Summary} {m : GoMap GoString CategorySummary}
  {c : CategorySummary}

theorem Totals.Sums.perm (h : t.Sums steps) (hperm : steps.Perm steps') : t.Sums steps' := by
  obtain ⟨hvalue, hbytes, htok⟩ := h
  simp only [sumOf_perm _ hperm] at hvalue hbytes htok
  exact ⟨hvalue, hbytes, htok⟩

theorem Exact.perm (h : Exact s steps) (hperm : steps.Perm steps') : Exact s steps' :=
  { h with
    count := h.count.trans (by rw [hperm.length_eq])
    totals := h.totals.perm hperm
    names := h.names.trans (by rw [toFinset_eq_of_perm _ _ (hperm.map _)])
    each := fun c hc => by
      obtain ⟨hcount, htotals⟩ := h.each c hc
      exact ⟨hcount.trans (by rw [inCategory, inCategory, (hperm.filter _).length_eq]), htotals.perm (hperm.filter _)⟩ }

def Step.measure (s : Step) : Step := { s with name := [], estimator := [], baselineModel := [] }

theorem sumOf_measure (k : Counter) (steps : List Step) : sumOf k (steps.map .measure) = sumOf k steps := by
  have hvalue : (fun s : Step => s.measure.value k) = fun s => s.value k := by
    funext s
    cases k <;> rfl
  rw [sumOf, map_map, sumOf]
  exact congrArg List.sum (congrArg (List.map · steps) hvalue)

theorem inCategory_measure (k : GoString) (steps : List Step) :
    inCategory k (steps.map .measure) = (inCategory k steps).map .measure := by
  rw [inCategory, filter_map]
  rfl

theorem sums_measure : t.Sums (steps.map .measure) ↔ t.Sums steps := by
  constructor <;> rintro ⟨hvalue, hbytes, htok⟩
  · simp only [sumOf_measure] at hvalue hbytes htok
    exact ⟨hvalue, hbytes, htok⟩
  · exact ⟨by simpa only [sumOf_measure] using hvalue, by simpa only [sumOf_measure] using hbytes,
      by simpa only [sumOf_measure] using htok⟩

theorem fits_measure (h : Fits steps) : Fits (steps.map .measure) where
  nonneg s hs k := by
    obtain ⟨s', hs', rfl⟩ := mem_map.mp hs
    have hk := h.nonneg s' hs' k
    cases k <;> exact hk
  sums k := by
    rw [sumOf_measure]
    exact h.sums k
  length := by
    rw [length_map]
    exact h.length

theorem exact_of_measure (h : Exact s (steps.map .measure)) : Exact s steps :=
  { h with
    count := h.count.trans (by rw [length_map])
    totals := sums_measure.mp h.totals
    names := h.names.trans (by rw [map_map]; rfl)
    each := fun c hc => by
      obtain ⟨hcount, htotals⟩ := h.each c hc
      rw [inCategory_measure] at hcount htotals
      exact ⟨hcount.trans (by rw [length_map]), sums_measure.mp htotals⟩ }

/-- The rollup stands for the steps. -/
structure Ledger.Rolls (l : Ledger) (rolled : List Step) : Prop where
  count : l.rolledSteps.toInt ≡ rolled.length [ZMOD 2 ^ 64]
  totals : l.rolledTotals.Follows rolled
  nodup : (l.rolledCategories.map (·.category)).Nodup
  categories : Tallies (toMap l.rolledCategories) rolled

/-- The ledger stands for the steps: the older are in the rollup, the others in the list. -/
def Ledger.Holds (l : Ledger) (steps : List Step) : Prop :=
  ∃ rolled, steps = rolled ++ l.steps.map .measure ∧ l.Rolls rolled

variable {l : Ledger}

theorem Ledger.Rolls.roll (h : l.Rolls rolled) (old : Step) : (l.roll old).Rolls (rolled ++ [old.measure]) where
  count := by
    have hone : (1 : Int64).toInt = 1 := by decide
    refine (int64_add_modEq l.rolledSteps 1).trans ?_
    rw [hone, length_append, length_singleton, Nat.cast_add]
    exact h.count.add_right 1
  totals := h.totals.addStep old.measure
  nodup := nodup_addRollupCategory h.nodup old
  categories := by
    rw [Ledger.roll, toMap_addRollupCategory h.nodup]
    exact h.categories.add old.measure

theorem Ledger.Rolls.foldl (h : l.Rolls rolled) (olds : List Step) :
    (olds.foldl Ledger.roll l).Rolls (rolled ++ olds.map .measure) := by
  induction olds generalizing l rolled with
  | nil => rwa [map_nil, append_nil]
  | cons old olds ih =>
    have hrest := ih (h.roll old)
    rwa [append_assoc] at hrest

theorem holds_empty : Ledger.empty.Holds [] :=
  ⟨[], rfl, rfl, follows_zero, nodup_nil, tallies_empty⟩

/-- One more step, whether or not others move into the rollup. -/
theorem Ledger.Holds.next (h : l.Holds steps) (s : Step) : (l.next s).Holds (steps ++ [s.measure]) := by
  obtain ⟨rolled, rfl, hrolls⟩ := h
  simp only [Ledger.next]
  generalize hover : (l.steps ++ [s]).length - defaultMaxSteps = overflow
  have hmoved := hrolls.foldl ((l.steps ++ [s]).take overflow)
  obtain ⟨hnodup, hmap⟩ := toMap_sortCategories hmoved.nodup
  refine ⟨rolled ++ ((l.steps ++ [s]).take overflow).map .measure, ?_, hmoved.count, hmoved.totals, hnodup, ?_⟩
  · rw [append_assoc, append_assoc, ← map_append, take_append_drop, map_append]
    rfl
  · rw [hmap]
    exact hmoved.categories

/-- What is summed over the categories is the sum over the steps. -/
theorem sum_inCategory (f : Step → ℤ) (steps : List Step) (names : Finset GoString)
    (hcover : ∀ s ∈ steps, s.category ∈ names) :
    ((sortedSet names).map fun k => ((inCategory k steps).map f).sum).sum = (steps.map f).sum := by
  rw [sum_sortedSet]
  induction steps using List.reverseRecOn with
  | nil => simp [inCategory]
  | append_singleton steps s ih =>
    obtain ⟨hsteps, hs⟩ := forall_mem_append.mp hcover
    have hone : ∀ k, ((inCategory k (steps ++ [s])).map f).sum =
        ((inCategory k steps).map f).sum + if s.category = k then f s else 0 := by
      intro k
      rw [inCategory_concat]
      split_ifs <;> simp
    simp only [hone, Finset.sum_add_distrib, Finset.sum_ite_eq, if_pos (hs s (mem_singleton_self s)), ih hsteps,
      map_append, map_singleton, sum_append, sum_singleton]

theorem mem_keys_iff_of_tallies (h : Tallies m steps) : m.keys = (steps.map (·.category)).toFinset := by
  ext k
  rw [mem_toFinset, mem_map, mem_keys_iff, ← Option.isSome_iff_exists, ← Option.ne_none_iff_isSome,
    ne_eq, h.absent]
  simp [inCategory]

/-- The subtotals are those of the steps, in the order of their categories. -/
theorem categories_of_tallies (h : Tallies m steps) (hfits : Fits steps) :
    let cs := (sortedKeys m).filterMap fun k => m.lookup k
    cs.map (·.category) = sortedSet (steps.map (·.category)).toFinset ∧ ∀ c ∈ cs,
      c.steps.toInt = (inCategory c.category steps).length ∧ c.totals.Sums (inCategory c.category steps) := by
  intro cs
  constructor
  · have hlist : ∀ keys : List GoString, (∀ k ∈ keys, k ∈ m.keys) →
        (keys.filterMap fun k => m.lookup k).map (·.category) = keys := by
      intro keys hkeys
      induction keys with
      | nil => rfl
      | cons k keys ih =>
        rw [forall_mem_cons] at hkeys
        obtain ⟨c, hc⟩ := mem_keys_iff.mp hkeys.1
        simp only [filterMap_cons, hc, map_cons, ih hkeys.2, (h.present k c hc).1]
    rw [hlist _ fun k hk => mem_sortedKeys.mp hk, sortedKeys, mem_keys_iff_of_tallies h]
  · intro c hc
    obtain ⟨k, -, hk⟩ := mem_filterMap.mp hc
    obtain ⟨rfl, hcounts⟩ := h.present k c hk
    have hsub : Fits (inCategory c.category steps) := hfits.sublist filter_sublist
    exact ⟨int64_eq_of_modEq hcounts.count (by omega) (by exact_mod_cast hsub.length), hcounts.totals.sums hsub⟩

theorem Ledger.Holds.exact (h : l.Holds steps) (hfits : Fits steps) : Exact l.summary steps := by
  obtain ⟨rolled, hsteps, hrolls⟩ := h
  have htallies : Tallies l.byCategory steps := by
    have hlive := hrolls.categories.foldl (l.steps.map Step.measure)
    rw [foldl_map, ← hsteps] at hlive
    exact hlive
  have htotals : l.summary.totals.Sums steps := by
    have hlive := hrolls.totals.foldl (l.steps.map Step.measure)
    rw [foldl_map, ← hsteps] at hlive
    exact Totals.Follows.sums hlive hfits
  have hcount : l.summary.steps.toInt = steps.length := by
    refine int64_eq_of_modEq ?_ (by omega) (by exact_mod_cast hfits.length)
    refine (int64_add_modEq _ _).trans ?_
    rw [hsteps, length_append, length_map, Nat.cast_add, Int64.toInt_ofNat']
    exact hrolls.count.add Int.bmod_emod
  obtain ⟨hnames, heach⟩ := categories_of_tallies htallies hfits
  have hcover : ∀ s ∈ steps, s.category ∈ (steps.map (·.category)).toFinset := by
    intro s hs
    rw [mem_toFinset]
    exact mem_map_of_mem hs
  -- a number that is a sum in every category adds up to the sum over the steps
  have haddUp : ∀ (g : CategorySummary → ℤ) (f : Step → ℤ),
      (∀ c ∈ l.summary.categories, g c = ((inCategory c.category steps).map f).sum) →
        (l.summary.categories.map g).sum = (steps.map f).sum := by
    intro g f hg
    rw [← sum_inCategory f _ _ hcover, ← hnames, map_map]
    exact congrArg List.sum (map_congr_left hg)
  have hdiff : ∀ (k k' : Counter) (list : List Step),
      (list.map fun s => s.value k - s.value k').sum = sumOf k list - sumOf k' list := by
    intro k k' list
    induction list with
    | nil => rfl
    | cons s list ih =>
      simp only [map_cons, sum_cons, ih, sumOf]
      ring
  refine ⟨rfl, hcount, htotals, hnames, heach, ?_, fun k => ?_, ?_, ?_⟩
  · rw [haddUp _ (fun _ => 1) fun c hc => by simp [(heach c hc).1], hcount]
    simp
  · rw [haddUp _ (·.value k) fun c hc => (heach c hc).2.value k, htotals.value]
    rfl
  · rw [haddUp _ (fun s => s.value .baselineBytes - s.value .servedBytes)
      fun c hc => by rw [(heach c hc).2.savedBytes, hdiff], htotals.savedBytes, hdiff]
  · rw [haddUp _ (fun s => s.value .baselineTokensEst - s.value .servedTokensEst)
      fun c hc => by rw [(heach c hc).2.savedTokensEst, hdiff], htotals.savedTokensEst, hdiff]

theorem Ledger.Holds.ofDisk_disk (h : l.Holds steps) (hlen : steps.length < 2 ^ 63) :
    (Ledger.ofDisk l.disk).Holds steps := by
  obtain ⟨rolled, hsteps, hrolls⟩ := h
  by_cases hpos : l.rolledSteps > 0
  · rw [Ledger.disk, if_pos hpos]
    exact ⟨rolled, hsteps, hrolls⟩
  · -- a rollup that is not written is one of no steps
    rw [Ledger.disk, if_neg hpos]
    have hrolled : rolled.length < 2 ^ 63 := by
      rw [hsteps, length_append] at hlen
      omega
    have hcount := int64_eq_of_modEq hrolls.count (by omega) (by exact_mod_cast hrolled)
    have hzero : ¬ 0 < l.rolledSteps.toInt := by
      rw [gt_iff_lt, Int64.lt_iff_toInt_lt] at hpos
      exact hpos
    obtain rfl : rolled = [] := eq_nil_of_length_eq_zero (by omega)
    exact ⟨[], hsteps, rfl, follows_zero, nodup_nil, tallies_empty⟩

theorem Step.measure_asRead {s : Step} (h : validString s.category = true) : s.asRead.measure = s.measure := by
  simp only [Step.asRead, Step.measure, (toValid_eq_self_iff _).mpr h]

theorem CategorySummary.asRead_eq (h : validString c.category = true) : c.asRead = c := by
  rw [CategorySummary.asRead, (toValid_eq_self_iff _).mpr h]

/-- A category of a rollup is that of one of its steps. -/
theorem Ledger.Rolls.exists_step (h : l.Rolls rolled)
    (hc : c ∈ l.rolledCategories) : ∃ s ∈ rolled, s.category = c.category := by
  have hfound : (toMap l.rolledCategories).lookup c.category ≠ none := by
    rw [lookup_toMap h.nodup, ne_eq, List.find?_eq_none]
    exact fun hnone => hnone c hc (by simp)
  rw [ne_eq, h.categories.absent] at hfound
  obtain ⟨s, hs⟩ := exists_mem_of_ne_nil _ hfound
  obtain ⟨hmem, hcat⟩ := mem_filter.mp hs
  exact ⟨s, hmem, of_decide_eq_true hcat⟩

/-- Reading a file back changes nothing that a summary reads, if every category is valid. -/
theorem Ledger.Holds.asRead {d : DiskLedger} (h : (Ledger.ofDisk d).Holds steps)
    (hvalid : ∀ s ∈ steps, validString s.category = true) : (Ledger.ofDisk d.asRead).Holds steps := by
  obtain ⟨version, live, rollup⟩ := d
  have hlive : ∀ rolled, steps = rolled ++ live.map Step.measure →
      steps = rolled ++ (live.map Step.asRead).map Step.measure := by
    intro rolled hsteps
    rw [hsteps, map_map]
    refine congrArg _ (map_congr_left fun s hs => (Step.measure_asRead ?_).symm)
    exact hvalid s.measure (hsteps ▸ mem_append_right _ (mem_map_of_mem hs))
  cases rollup with
  | none =>
    obtain ⟨rolled, hsteps, hrolls⟩ := h
    exact ⟨rolled, hlive rolled hsteps, hrolls.count, hrolls.totals, hrolls.nodup, hrolls.categories⟩
  | some r =>
    obtain ⟨rolled, hsteps, hrolls⟩ := h
    have hcats : r.categories.map CategorySummary.asRead = r.categories := by
      refine (map_congr_left fun c hc => CategorySummary.asRead_eq ?_).trans (map_id _)
      obtain ⟨s, hs, hcat⟩ := hrolls.exists_step hc
      rw [← hcat]
      exact hvalid s (hsteps ▸ mem_append_left _ hs)
    refine ⟨rolled, hlive rolled hsteps, hrolls.count, hrolls.totals, ?_, ?_⟩
    · simp only [Ledger.ofDisk, DiskLedger.asRead, Option.map_some, Rollup.asRead, hcats]
      exact hrolls.nodup
    · simp only [Ledger.ofDisk, DiskLedger.asRead, Option.map_some, Rollup.asRead, hcats]
      exact hrolls.categories

/-- A ledger, its file, and the steps whose `Record` succeeded. -/
structure World where
  store : Store
  recorded : List Step

inductive Event where
  | record (step : Step) (disk : Disk)
  | reopen

namespace World

def start : World := ⟨⟨.empty, .missing⟩, []⟩

def step (cacheDir : GoString) (w : World) : Event → World
  | .record s disk =>
    match Savings.record w.store s disk with
    | (.ok (), store) => ⟨store, w.recorded ++ [s]⟩
    | (.error _, store) => ⟨store, w.recorded⟩
  | .reopen =>
    match openLedger cacheDir w.store.file with
    | .ok l => { w with store := { w.store with ledger := l } }
    | .error _ => w

def run (cacheDir : GoString) (es : List Event) : World := es.foldl (step cacheDir) start

/-- The summary is that of the recorded steps in any order, and few of them are kept. -/
structure Faithful (w : World) : Prop where
  summary : ∀ steps, steps.Perm w.recorded → Exact w.store.ledger.summary steps
  bounded : w.store.ledger.steps.length ≤ defaultMaxSteps

/-- When the file is read again, the categories recorded so far are valid UTF-8. -/
def Readable (w : World) : Event → Prop
  | .record _ _ => True
  | .reopen => ∀ s ∈ w.recorded, validString s.category = true

instance (w : World) : (e : Event) → Decidable (Readable w e)
  | .record _ _ => isTrue trivial
  | .reopen => inferInstanceAs (Decidable (∀ s ∈ w.recorded, validString s.category = true))

/-- The file stands for the steps. -/
inductive Stands : Stored → List Step → Prop
  | missing : Stands .missing []
  | bytes (d : DiskLedger) (steps : List Step) (version : d.version = currentVersion)
    (valid : ∀ s ∈ d.steps, validateStep s = .ok ()) (bounded : d.steps.length ≤ defaultMaxSteps)
    (holds : (Ledger.ofDisk d).Holds steps) : Stands (.bytes (marshal d)) steps

structure Kept (w : World) : Prop where
  valid : ∀ s ∈ w.recorded, validateStep s = .ok ()
  live : ∀ s ∈ w.store.ledger.steps, validateStep s = .ok ()
  bounded : w.store.ledger.steps.length ≤ defaultMaxSteps
  memory : w.store.ledger.Holds (w.recorded.map .measure)
  file : Stands w.store.file (w.recorded.map .measure)

theorem kept_start : Kept start where
  valid s hs := by simp [start] at hs
  live s hs := by simp [start, Ledger.empty] at hs
  bounded := Nat.zero_le _
  memory := holds_empty
  file := .missing

/-- A call of `Record` fails and leaves the store alone, or succeeds with the next ledger in memory and on disk. -/
theorem record_cases (store : Store) (s : Step) (disk : Disk) :
    (∃ e, Savings.record store s disk = (.error e, store)) ∨
      validateStep s = .ok () ∧ Savings.record store s disk =
        (.ok (), ⟨store.ledger.next s, .bytes (marshal (store.ledger.next s).disk)⟩) := by
  cases hvalid : validateStep s with
  | error e => exact .inl ⟨e, by rw [Savings.record, hvalid]⟩
  | ok u =>
    cases disk with
    | writable => exact .inr ⟨rfl, by rw [Savings.record, hvalid]; rfl⟩
    | failing => exact .inl ⟨.writeFailed, by rw [Savings.record, hvalid]; rfl⟩

theorem steps_next (l : Ledger) (s : Step) :
    (l.next s).steps = (l.steps ++ [s]).drop ((l.steps ++ [s]).length - defaultMaxSteps) := by
  simp only [Ledger.next]

theorem length_next (l : Ledger) (s : Step) : (l.next s).steps.length ≤ defaultMaxSteps := by
  rw [steps_next, length_drop]
  omega

variable {l : Ledger}

theorem mem_next {s s' : Step} (h : s' ∈ (l.next s).steps) : s' ∈ l.steps ∨ s' = s := by
  rw [steps_next] at h
  exact (mem_append.mp (mem_of_mem_drop h)).imp_right mem_singleton.mp

theorem stands_disk {steps : List Step} (hlive : ∀ s ∈ l.steps, validateStep s = .ok ())
    (hbounded : l.steps.length ≤ defaultMaxSteps) (hholds : l.Holds steps) (hlen : steps.length < 2 ^ 63) :
    Stands (.bytes (marshal l.disk)) steps :=
  .bytes _ _ rfl hlive hbounded (hholds.ofDisk_disk hlen)

variable {cacheDir : GoString}

/-- What `Open` makes of a file that stands for some steps. -/
theorem open_stands (hdir : trimSpace cacheDir ≠ []) {file : Stored} {steps : List Step} (h : Stands file steps) :
    (openLedger cacheDir file = .ok .empty ∧ steps = []) ∨
      ∃ d : DiskLedger, openLedger cacheDir file = .ok (.ofDisk d.asRead) ∧
        (∀ s ∈ (Ledger.ofDisk d.asRead).steps, validateStep s = .ok ()) ∧
        (Ledger.ofDisk d.asRead).steps.length ≤ defaultMaxSteps ∧ (Ledger.ofDisk d).Holds steps := by
  cases h with
  | missing => exact .inl ⟨by rw [openLedger, if_neg hdir], rfl⟩
  | bytes d _ version valid bounded holds =>
    have hsteps : (Ledger.ofDisk d.asRead).steps = d.steps.map Step.asRead := by
      rw [Ledger.ofDisk]
      split <;> rfl
    refine .inr ⟨d, ?_, ?_, ?_, holds⟩
    · rw [openLedger, if_neg hdir]
      exact decodeLedger_marshal version valid
    · rw [hsteps]
      intro s hs
      obtain ⟨s', hs', rfl⟩ := mem_map.mp hs
      exact validateStep_asRead (valid s' hs')
    · rw [hsteps, length_map]
      exact bounded

variable {w : World}

theorem kept_step (hdir : trimSpace cacheDir ≠ []) (h : Kept w) {e : Event}
    (hread : Readable w e) (hlen : (w.step cacheDir e).recorded.length < 2 ^ 63) : Kept (w.step cacheDir e) := by
  cases e with
  | record s disk =>
    rcases record_cases w.store s disk with ⟨e, hrec⟩ | ⟨hvalid, hrec⟩
    · rw [step, hrec]
      exact h
    · rw [step, hrec] at hlen ⊢
      have hmemory : (w.store.ledger.next s).Holds ((w.recorded ++ [s]).map .measure) := by
        have hnext := h.memory.next s
        rwa [← map_singleton, ← map_append] at hnext
      have hlive : ∀ s' ∈ (w.store.ledger.next s).steps, validateStep s' = .ok () := by
        intro s' hs'
        rcases mem_next hs' with hold | rfl
        · exact h.live s' hold
        · exact hvalid
      refine ⟨forall_mem_append.mpr ⟨h.valid, forall_mem_singleton.mpr hvalid⟩, hlive, length_next _ s, hmemory, ?_⟩
      exact stands_disk hlive (length_next _ s) hmemory (by rwa [length_map])
  | reopen =>
    rcases open_stands hdir h.file with ⟨hopen, hnone⟩ | ⟨d, hopen, hvalid, hbounded, hholds⟩
    · rw [step, hopen]
      exact ⟨h.valid, fun s hs => by simp [Ledger.empty] at hs, Nat.zero_le _, hnone ▸ holds_empty, h.file⟩
    · have hcats : ∀ s ∈ w.recorded.map Step.measure, validString s.category = true := by
        intro s hs
        obtain ⟨s', hs', rfl⟩ := mem_map.mp hs
        exact hread s' hs'
      rw [step, hopen]
      exact ⟨h.valid, hvalid, hbounded, hholds.asRead hcats, h.file⟩

theorem nonneg_of_validateStep {s : Step} (h : validateStep s = .ok ()) : s.Nonneg := by
  obtain ⟨-, -, hcounts⟩ := validateStep_eq_ok_iff.mp h
  simp only [not_or, Int64.lt_iff_toInt_lt, not_lt] at hcounts
  intro k
  cases k with
  | baselineBytes => exact hcounts.1
  | servedBytes => exact hcounts.2.1
  | baselineTokensEst => exact hcounts.2.2.1
  | servedTokensEst => exact hcounts.2.2.2
  | dedupCount | compressionCount | avoidedReads | modelCalls | avoidedModelCalls => exact Int.natCast_nonneg _

/-- Neither a counter nor the number of steps overflows. -/
structure NoOverflow (steps : List Step) : Prop where
  sums : ∀ k, sumOf k steps < k.bound
  length : steps.length < 2 ^ 63

theorem faithful_of_kept (h : Kept w) (hfits : Fits w.recorded) : Faithful w where
  summary _ hperm := (exact_of_measure (h.memory.exact (fits_measure hfits))).perm hperm.symm
  bounded := h.bounded

theorem recorded_prefix_of (cacheDir : GoString) (w : World) (es : List Event) :
    w.recorded <+: (es.foldl (step cacheDir) w).recorded := by
  induction es generalizing w with
  | nil => exact prefix_rfl
  | cons e es ih =>
    refine List.IsPrefix.trans ?_ (ih (w.step cacheDir e))
    cases e with
    | record s disk =>
      rcases record_cases w.store s disk with ⟨e, hrec⟩ | ⟨-, hrec⟩
      · rw [step, hrec]
      · rw [step, hrec]
        exact prefix_append _ _
    | reopen =>
      rw [step]
      split <;> exact prefix_rfl

/-- Every category of the summary is one of the ledger. -/
theorem valid_summary (hsteps : ∀ s ∈ l.steps, validString s.category = true)
    (hrolled : ∀ c ∈ l.rolledCategories, validString c.category = true) :
    ∀ c ∈ l.summary.categories, validString c.category = true := by
  have hmap : ∀ k c, l.byCategory.lookup k = some c → validString c.category = true := by
    refine List.foldlRecOn (motive := fun m : GoMap GoString CategorySummary =>
      ∀ k c, m.lookup k = some c → validString c.category = true) l.steps _ ?_ fun m hm s hs k c hc => ?_
    · refine List.foldlRecOn (motive := fun m : GoMap GoString CategorySummary =>
        ∀ k c, m.lookup k = some c → validString c.category = true) l.rolledCategories _ (by simp)
          fun m hm c hc k c' hc' => ?_
      rw [lookup_insert_eq] at hc'
      split_ifs at hc' with hk
      · rw [← Option.some.inj hc']
        exact hrolled c hc
      · exact hm k c' hc'
    · rw [Ledger.addCategory, lookup_insert_eq] at hc
      split_ifs at hc with hk
      · rw [← Option.some.inj hc, CategorySummary.add]
        cases hold : m.lookup s.category with
        | none => exact hsteps s hs
        | some c₀ => exact hm _ c₀ hold
      · exact hm k c hc
  intro c hc
  obtain ⟨k, -, hk⟩ := mem_filterMap.mp hc
  exact hmap k c hk

/-- A file that is read with a category that is not valid gives a summary that is wrong. -/
theorem readable_of_faithful (hdir : trimSpace cacheDir ≠ []) (h : Kept w)
    (hfaithful : Faithful (w.step cacheDir .reopen)) : Readable w .reopen := by
  rcases open_stands hdir h.file with ⟨-, hnone⟩ | ⟨d, hopen, -, -, -⟩
  · rw [map_eq_nil_iff] at hnone
    intro s hs
    rw [hnone] at hs
    simp at hs
  · rw [step, hopen] at hfaithful
    have hexact := hfaithful.summary w.recorded (List.Perm.refl _)
    have hvalid : ∀ c ∈ (Ledger.ofDisk d.asRead).summary.categories, validString c.category = true := by
      have hread : ∀ s ∈ (Ledger.ofDisk d.asRead).steps, validString s.category = true := by
        intro s hs
        have hmem : s ∈ d.steps.map Step.asRead := by
          rw [Ledger.ofDisk] at hs
          split at hs <;> exact hs
        obtain ⟨s', -, rfl⟩ := mem_map.mp hmem
        exact validString_toValid _
      refine valid_summary hread fun c hc => ?_
      rw [Ledger.ofDisk] at hc
      split at hc
      · simp at hc
      · rename_i r hr
        obtain ⟨r', -, rfl⟩ := Option.map_eq_some_iff.mp hr
        obtain ⟨c', -, rfl⟩ := mem_map.mp hc
        exact validString_toValid _
    -- the recorded category is among those of the summary
    intro s hs
    have hname : s.category ∈ sortedSet (w.recorded.map (·.category)).toFinset := by
      rw [mem_sortedSet, mem_toFinset]
      exact mem_map_of_mem hs
    rw [← hexact.names] at hname
    obtain ⟨c, hc, hcat⟩ := mem_map.mp hname
    exact hcat ▸ hvalid c hc

theorem faithful_iff_readable (hdir : trimSpace cacheDir ≠ []) (es : List Event)
    (h : Kept w) (hfits : Fits (es.foldl (step cacheDir) w).recorded) :
    (∀ before, before <+: es → Faithful (before.foldl (step cacheDir) w)) ↔ Meets (step cacheDir) Readable w es := by
  induction es generalizing w with
  | nil =>
    refine ⟨fun _ => trivial, fun _ before hbef => ?_⟩
    rw [prefix_nil.mp hbef]
    exact faithful_of_kept h hfits
  | cons e es ih =>
    have hnow : Fits w.recorded := hfits.sublist (recorded_prefix_of cacheDir w (e :: es)).sublist
    have hnext : Fits (w.step cacheDir e).recorded :=
      hfits.sublist (recorded_prefix_of cacheDir (w.step cacheDir e) es).sublist
    constructor
    · intro hall
      have hread : Readable w e := by
        cases e with
        | record s disk => trivial
        | reopen => exact readable_of_faithful hdir h (hall [.reopen] (prefix_append [.reopen] es))
      refine ⟨hread, (ih (kept_step hdir h hread hnext.length) hfits).mp fun before hbef => ?_⟩
      exact hall (e :: before) (cons_prefix_cons.mpr ⟨rfl, hbef⟩)
    · rintro ⟨hread, hrest⟩ before hbef
      cases before with
      | nil => exact faithful_of_kept h hnow
      | cons e' before =>
        obtain ⟨rfl, htail⟩ := cons_prefix_cons.mp hbef
        exact (ih (kept_step hdir h hread hnext.length) hfits).mpr hrest before htail

theorem valid_recorded (cacheDir : GoString) (es : List Event) :
    ∀ s ∈ (run cacheDir es).recorded, validateStep s = .ok () := by
  refine List.foldlRecOn (motive := fun w : World => ∀ s ∈ w.recorded, validateStep s = .ok ()) es _ (by simp [start])
    fun w hw e _ => ?_
  cases e with
  | record s disk =>
    rcases record_cases w.store s disk with ⟨e, hrec⟩ | ⟨hvalid, hrec⟩
    · rw [step, hrec]
      exact hw
    · rw [step, hrec]
      exact forall_mem_append.mpr ⟨hw, forall_mem_singleton.mpr hvalid⟩
  | reopen =>
    rw [step]
    split <;> exact hw

/-- In every run of calls of `Record` and of reopened files, as long as nothing overflows, the summary is that of the
recorded steps in every state, and a call that fails changes neither the ledger nor the file, exactly if every file that
is read again has only valid categories. -/
theorem summary_exact_iff {cacheDir : GoString} (hdir : trimSpace cacheDir ≠ []) (es : List Event)
    (hfits : NoOverflow (run cacheDir es).recorded) :
    ((∀ before, before <+: es → Faithful (run cacheDir before)) ∧
      ∀ before s disk, before ++ [.record s disk] <+: es →
        ∀ e, (Savings.record (run cacheDir before).store s disk).1 = .error e →
          (Savings.record (run cacheDir before).store s disk).2 = (run cacheDir before).store) ↔
      Meets (step cacheDir) Readable start es := by
  have hall : Fits (run cacheDir es).recorded :=
    ⟨fun s hs => nonneg_of_validateStep (valid_recorded cacheDir es s hs), hfits.sums, hfits.length⟩
  have hfailed : ∀ (store : Store) (s : Step) (disk : Disk) (e : Error), (Savings.record store s disk).1 = .error e →
      (Savings.record store s disk).2 = store := by
    intro store s disk e he
    rcases record_cases store s disk with ⟨e', hrec⟩ | ⟨-, hrec⟩
    · rw [hrec]
    · rw [hrec] at he
      cases he
  rw [← faithful_iff_readable hdir es kept_start hall]
  exact ⟨fun h => h.1, fun h => ⟨h, fun before s disk _ e he => hfailed _ s disk e he⟩⟩

end World

def sampleStep (category : GoString) : Step :=
  { Step.zero with name := lit "s", category := category, baselineBytes := 1 }

/-- After one step in the category `0xFF` and a reopened file the summary has the category `U+FFFD`, in which no step
was recorded. -/
theorem summary_exact_fails :
    let w := World.run (lit "cache") [.record (sampleStep [0xFF]) .writable, .reopen]
    w.recorded.map (·.category) = [[0xFF]] ∧ w.store.ledger.summary.categories.map (·.category) =
      [[0xEF, 0xBF, 0xBD]] := by
  decide +kernel

/-- Calls that fail, so many steps that the oldest moves into the rollup, and a reopened file. -/
def sampleRun : List Event :=
  [.record (sampleStep (lit "retrieval")) .failing, .record (sampleStep []) .writable] ++
    replicate (defaultMaxSteps + 1) (.record (sampleStep (lit "dedup")) .writable) ++ [.reopen]

section Sample

variable {w : World}

theorem recorded_replicate {s : Step} (h : validateStep s = .ok ()) (n : ℕ) :
    ((replicate n (.record s .writable)).foldl (World.step (lit "cache")) w).recorded =
      w.recorded ++ replicate n s := by
  induction n generalizing w with
  | zero => simp
  | succ n ih => simp [replicate_succ, ih, World.step, record, h, writeAtomic]

theorem recorded_reopen : (w.step (lit "cache") .reopen).recorded = w.recorded := by
  simp only [World.step]
  split <;> rfl

end Sample

theorem recorded_sampleRun :
    (World.run (lit "cache") sampleRun).recorded = replicate (defaultMaxSteps + 1) (sampleStep (lit "dedup")) := by
  rw [World.run, sampleRun, foldl_concat, recorded_reopen, foldl_append, recorded_replicate (by decide +kernel)]
  rfl

theorem summary_exact_sample :
    (World.run (lit "cache") sampleRun).store.ledger.steps.length <
        (World.run (lit "cache") sampleRun).recorded.length ∧
      ∀ before, before <+: sampleRun → World.Faithful (World.run (lit "cache") before) := by
  have hfits : World.NoOverflow (World.run (lit "cache") sampleRun).recorded := by
    rw [recorded_sampleRun]
    refine ⟨fun k => ?_, by rw [length_replicate]; decide⟩
    rw [sumOf, map_replicate, sum_replicate]
    cases k <;> decide +kernel
  have hmeets : Meets (World.step (lit "cache")) World.Readable World.start sampleRun := by
    refine Schedule.meets_append.mpr ⟨Schedule.meets_of_forall (fun e he w => ?_) _, fun s hs => ?_, trivial⟩
    · cases e with
      | record => trivial
      | reopen => simp at he
    · rw [foldl_append, recorded_replicate (by decide +kernel)] at hs
      rw [eq_of_mem_replicate (show s ∈ replicate _ _ from hs)]
      decide +kernel
  have hall := ((World.summary_exact_iff (by decide +kernel) sampleRun hfits).mpr hmeets).1
  have hbound := (hall sampleRun (prefix_refl _)).bounded
  generalize (World.run (lit "cache") sampleRun).store.ledger.steps.length = n at hbound ⊢
  rw [recorded_sampleRun, length_replicate]
  exact ⟨Nat.lt_add_one_of_le hbound, hall⟩

end CodeMemory.Savings
