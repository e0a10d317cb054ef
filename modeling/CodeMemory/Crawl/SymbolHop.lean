import CodeMemory.Lib.Order

/-! One hop in the symbol graph, from seed files to the files that define or mention a name
of theirs. The hop stops at a bound, which only ever cuts off a suffix. -/

namespace CodeMemory.Crawl

open Lib Lib.GoString List

/-- Names with the files bound to them, in the order in which the graph lists the files. -/
abbrev FileLists := GoMap GoString (List GoString)

def filesAt (m : FileLists) (n : GoString) : List GoString := (m.lookup n).getD []

def hopNames (defs refs : FileLists) (seeds : List GoString) : Finset GoString :=
  (defs.keys ∪ refs.keys).filter (fun n => ∃ f ∈ filesAt defs n ++ filesAt refs n, f ∈ seeds)

def hopOrder (defs refs : FileLists) (seeds : List GoString) : List GoString :=
  (sortedSet (hopNames defs refs seeds)).flatMap
    (fun n => sortStrings (filesAt defs n) ++ sortStrings (filesAt refs n))

/-- The loops: a file that is neither a seed nor there already is added, until there are `maxN`. -/
def collect (seeds : List GoString) (maxN : ℕ) : List GoString → List GoString → List GoString
  | out, [] => out
  | out, f :: fs =>
    if f ∈ seeds ∨ f ∈ out then collect seeds maxN out fs
    else if maxN ≤ (out ++ [f]).length then out ++ [f]
    else collect seeds maxN (out ++ [f]) fs

def symbolHop (defs refs : FileLists) (seeds : List GoString) (maxN : ℤ) : List GoString :=
  if maxN ≤ 0 then [] else collect seeds maxN.toNat [] (hopOrder defs refs seeds)

def Shares (defs refs : FileLists) (seeds : List GoString) (f : GoString) : Prop :=
  f ∉ seeds ∧ ∃ n, f ∈ filesAt defs n ++ filesAt refs n ∧ ∃ s ∈ seeds, s ∈ filesAt defs n ++ filesAt refs n

variable {defs refs defs' refs' : FileLists} {seeds out fs : List GoString} {m : ℕ}

/-- The bound cuts the first occurrences of the files that are neither seeds nor there already. -/
theorem collect_eq_take (hout : out.length < m) :
    collect seeds m out fs = (out ++ (fs.filter (fun f => f ∉ seeds ∧ f ∉ out)).eraseDups).take m := by
  induction fs generalizing out with
  | nil => simp [collect, hout.le]
  | cons f fs ih =>
    rw [collect]
    by_cases hskip : f ∈ seeds ∨ f ∈ out
    · rw [if_pos hskip, filter_cons_of_neg (by simpa [imp_iff_not_or] using hskip), ih hout]
    · have hnew := not_or.mp hskip
      have hlen : (out ++ [f]).length = out.length + 1 := length_append
      have hrest : fs.filter (fun g => g ∉ seeds ∧ g ∉ out ++ [f]) =
          (fs.filter (fun g => g ∉ seeds ∧ g ∉ out)).filter (fun g => !g == f) := by
        rw [filter_filter]
        refine filter_congr fun g _ => ?_
        by_cases hg : g = f <;> simp [hg]
      rw [if_neg hskip, filter_cons_of_pos (by simpa using hnew), eraseDups_cons, ← hrest,
        append_cons out f (List.eraseDups _)]
      split_ifs with hfull
      · exact (take_left' (by omega)).symm
      · exact ih (by omega)

theorem mem_keys_of_filesAt {files : FileLists} {f name : GoString} (hf : f ∈ filesAt files name) :
    name ∈ files.keys := by
  cases hl : files.lookup name with
  | none => simp [filesAt, hl] at hf
  | some fs => exact GoMap.mem_keys_of_lookup hl

theorem mem_hopNames {name : GoString} :
    name ∈ hopNames defs refs seeds ↔ ∃ s ∈ filesAt defs name ++ filesAt refs name, s ∈ seeds := by
  rw [hopNames, Finset.mem_filter, and_iff_right_iff_imp, Finset.mem_union]
  rintro ⟨s, hs, -⟩
  exact (mem_append.mp hs).imp mem_keys_of_filesAt mem_keys_of_filesAt

theorem mem_hopOrder {f : GoString} (hf : f ∉ seeds) : f ∈ hopOrder defs refs seeds ↔ Shares defs refs seeds f := by
  simp only [hopOrder, mem_flatMap, mem_sortedSet, mem_hopNames, mem_append, (perm_sortStrings _).mem_iff,
    Shares, hf, not_false_eq_true, true_and]
  exact exists_congr fun name => and_comm.trans (and_congr_right' (exists_congr fun s => and_comm))

theorem hopOrder_congr (hdefs : ∀ name, (filesAt defs' name).Perm (filesAt defs name))
    (hrefs : ∀ name, (filesAt refs' name).Perm (filesAt refs name)) :
    hopOrder defs' refs' seeds = hopOrder defs refs seeds := by
  have hnames : hopNames defs' refs' seeds = hopNames defs refs seeds := by
    ext name
    simp only [mem_hopNames, mem_append, (hdefs name).mem_iff, (hrefs name).mem_iff]
  rw [hopOrder, hopOrder, hnames]
  simp only [sortStrings_congr (hdefs _), sortStrings_congr (hrefs _)]

/-- The hop has files that share a name with a seed, each once, and all of them if there are no more than the
bound; a smaller bound gives a shorter prefix, and the order of the stored lists does not matter. -/
theorem symbolHop_prefix (defs refs : FileLists) (seeds : List GoString) (maxN : ℤ) (hpos : 0 < maxN) :
    (symbolHop defs refs seeds maxN).Nodup ∧
    (∀ f ∈ symbolHop defs refs seeds maxN, Shares defs refs seeds f) ∧
    (∀ shared : Finset GoString, (∀ f, f ∈ shared ↔ Shares defs refs seeds f) → (shared.card : ℤ) ≤ maxN →
      ∀ f ∈ shared, f ∈ symbolHop defs refs seeds maxN) ∧
    (∀ m, 0 < m → m ≤ maxN → symbolHop defs refs seeds m = (symbolHop defs refs seeds maxN).take m.toNat) ∧
    ∀ defs' refs', (∀ name, (filesAt defs' name).Perm (filesAt defs name)) →
      (∀ name, (filesAt refs' name).Perm (filesAt refs name)) →
      symbolHop defs' refs' seeds maxN = symbolHop defs refs seeds maxN := by
  obtain ⟨all, hdef⟩ : ∃ all, all = ((hopOrder defs refs seeds).filter (fun f => f ∉ seeds)).eraseDups := ⟨_, rfl⟩
  have hnodup : all.Nodup := hdef ▸ nodup_eraseDups _
  have hhop : ∀ m, 0 < m → symbolHop defs refs seeds m = all.take m.toNat := by
    intro m hm
    rw [symbolHop, if_neg (by omega), collect_eq_take (by simpa using hm)]
    simp [hdef]
  have hall : ∀ f, f ∈ all ↔ Shares defs refs seeds f := by
    intro f
    by_cases hf : f ∈ seeds
    · simp [hdef, hf, Shares]
    · simp [hdef, hf, mem_hopOrder hf]
  rw [hhop maxN hpos]
  refine ⟨hnodup.take, fun f hf => (hall f).mp (mem_of_mem_take hf), fun shared hshared hcard f hf => ?_,
    fun m hm hle => ?_, fun defs' refs' hdefs hrefs => ?_⟩
  · have hsame : all.toFinset = shared := Finset.ext fun g => by rw [mem_toFinset, hall, hshared]
    rw [← hsame, toFinset_card_of_nodup hnodup] at hcard
    rw [take_of_length_le (by omega), hall, ← hshared]
    exact hf
  · rw [hhop m hm, take_take, min_eq_left (by omega)]
  · rw [← hhop maxN hpos, symbolHop, symbolHop, hopOrder_congr hdefs hrefs]

def hopDefs : FileLists := (∅ : FileLists).insert (lit "Run") [lit "s.go", lit "b.go", lit "a.go"]

/-- Two files define a name of the seed, and the bound is one. -/
theorem symbolHop_prefix_bounded : symbolHop hopDefs ∅ [lit "s.go"] 1 = [lit "a.go"] ∧
    symbolHop hopDefs ∅ [lit "s.go"] 1 = (symbolHop hopDefs ∅ [lit "s.go"] 2).take 1 := by
  have h := symbolHop_prefix hopDefs ∅ [lit "s.go"] 2 (by decide)
  exact ⟨by decide +kernel, h.2.2.2.1 1 (by decide) (by decide)⟩

end CodeMemory.Crawl
