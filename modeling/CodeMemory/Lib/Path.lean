import CodeMemory.Lib.GoString

/-! Slash-separated paths: `filepath.Clean`, `Rel`, `Base`, `Ext` and the correspondence
between a relative path and the list of its elements. A path whose elements are
ordinary names is its own cleaned form. -/

namespace CodeMemory.Lib.Path

open GoString List

def slash : UInt8 := 0x2F

def dot : UInt8 := 0x2E

/-- A name a directory entry can have. -/
def ValidName (c : GoString) : Prop := c ≠ [] ∧ slash ∉ c ∧ c ≠ lit "." ∧ c ≠ lit ".."

instance (c : GoString) : Decidable (ValidName c) := by unfold ValidName; infer_instance

/-- A relative path, as its elements. -/
abbrev Rel := List GoString

/-- The slash-separated form of a relative path. -/
def join (cs : Rel) : GoString := List.intercalate [slash] cs

/-- One element of the path read by `filepath.Clean`; the stack holds the kept
elements, last first. -/
def cleanStep (rooted : Bool) (stack : Rel) (c : GoString) : Rel :=
  if c = [] ∨ c = lit "." then stack
  else if c = lit ".." then
    match stack with
    | [] => if rooted then [] else [c]
    | top :: rest => if top = lit ".." then c :: top :: rest else rest
  else c :: stack

def cleanElems (rooted : Bool) (cs : Rel) : Rel := (cs.foldl (cleanStep rooted) []).reverse

def clean (s : GoString) : GoString :=
  let rooted := hasPrefix s [slash]
  let cs := cleanElems rooted (s.splitOn slash)
  if rooted then slash :: join cs else if cs = [] then lit "." else join cs

/-- What `filepath.Rel` leaves of two cleaned paths after their common beginning. -/
def stripCommon : Rel → Rel → Rel × Rel
  | b :: bs, t :: ts => if b = t then stripCommon bs ts else (b :: bs, t :: ts)
  | bs, ts => (bs, ts)

/-- The way from one cleaned path to another: up from what is left of the base, then down. -/
def relElems (base targ : Rel) : Rel :=
  let left := stripCommon base targ
  left.1.map (fun _ => lit "..") ++ left.2

/-- `filepath.Rel`: no way leads up from an unknown `..`, or between a rooted and an unrooted path. -/
def rel (base targ : GoString) : Option GoString :=
  let rooted := hasPrefix base [slash]
  let base := cleanElems rooted (base.splitOn slash)
  let target := cleanElems (hasPrefix targ [slash]) (targ.splitOn slash)
  if rooted ≠ hasPrefix targ [slash] ∨ (stripCommon base target).1.head? = some (lit "..") then none
  else
    let cs := relElems base target
    some (if cs = [] then lit "." else join cs)

/-- `filepath.Base`: the last element. -/
def base (s : GoString) : GoString :=
  if s = [] then lit "."
  else
    let trimmed := s.rdropWhile (· = slash)
    if trimmed = [] then [slash] else trimmed.rtakeWhile (· ≠ slash)

/-- `filepath.Ext`: the part of the last element from its last dot on. -/
def ext (s : GoString) : GoString :=
  let tail := s.reverse.takeWhile (fun b => b ≠ dot ∧ b ≠ slash)
  if (s.reverse.drop tail.length).head? = some dot then dot :: tail.reverse else []

variable {c s : GoString}

theorem cleanStep_valid {rooted : Bool} (hc : ValidName c) (stack : Rel) : cleanStep rooted stack c = c :: stack := by
  obtain ⟨h1, _, h3, h4⟩ := hc
  simp [cleanStep, h1, h3, h4]

theorem foldl_cleanStep_valid (rooted : Bool) (cs : Rel) (hc : ∀ c ∈ cs, ValidName c) (stack : Rel) :
    cs.foldl (cleanStep rooted) stack = cs.reverse ++ stack := by
  induction cs generalizing stack with
  | nil => rfl
  | cons c cs ih =>
    rw [foldl_cons, cleanStep_valid (hc c (by simp)), ih (fun x hx => hc x (by simp [hx]))]
    simp

variable {cs : Rel}

theorem cleanElems_valid (rooted : Bool) (hc : ∀ c ∈ cs, ValidName c) : cleanElems rooted cs = cs := by
  rw [cleanElems, foldl_cleanStep_valid rooted cs hc, append_nil, reverse_reverse]

theorem splitOn_join (hne : cs ≠ []) (hc : ∀ c ∈ cs, ValidName c) : (join cs).splitOn slash = cs :=
  splitOn_intercalate slash (fun c h => (hc c h).2.1) hne

theorem join_singleton (c : GoString) : join [c] = c := by
  simp [join, List.intercalate]

theorem join_cons (hne : cs ≠ []) : join (c :: cs) = c ++ slash :: join cs := by
  obtain ⟨d, ds, rfl⟩ := exists_cons_of_ne_nil hne
  simp [join, List.intercalate]

theorem join_append {a b : Rel} (ha : a ≠ []) (hb : b ≠ []) :
    join (a ++ b) = join a ++ slash :: join b := by
  induction a with
  | nil => exact absurd rfl ha
  | cons c cs ih =>
    by_cases hcs : cs = []
    · subst hcs
      rw [singleton_append, join_cons hb, join_singleton]
    · rw [cons_append, join_cons (by simp [hcs]), ih hcs, join_cons hcs]
      simp

theorem join_ne_nil (hne : cs ≠ []) (hc : ∀ c ∈ cs, ValidName c) : join cs ≠ [] := by
  obtain ⟨c, cs, rfl⟩ := exists_cons_of_ne_nil hne
  have h1 := (hc c (by simp)).1
  by_cases hcs : cs = []
  · subst hcs; rwa [join_singleton]
  · rw [join_cons hcs]; simp [h1]

theorem not_hasPrefix_slash_join (hc : ∀ c ∈ cs, ValidName c) : hasPrefix (join cs) [slash] = false := by
  cases cs with
  | nil => rfl
  | cons c cs =>
    obtain ⟨h1, h2, _⟩ := hc c (by simp)
    obtain ⟨b, t, rfl⟩ := exists_cons_of_ne_nil h1
    have hb : slash ≠ b := fun h => h2 (by simp [h])
    by_cases hcs : cs = []
    · subst hcs; simpa [join_singleton, hasPrefix, List.isPrefixOf] using hb
    · simpa [join_cons hcs, hasPrefix, List.isPrefixOf] using hb

/-- A path of ordinary names is clean. -/
theorem clean_join (hne : cs ≠ []) (hc : ∀ c ∈ cs, ValidName c) : clean (join cs) = join cs := by
  rw [clean, not_hasPrefix_slash_join hc, splitOn_join hne hc, cleanElems_valid false hc]
  simp [hne]

/-- The slash-separated form determines the elements. -/
theorem join_injective {a b : Rel} (ha : a ≠ []) (hb : b ≠ []) (hca : ∀ c ∈ a, ValidName c)
    (hcb : ∀ c ∈ b, ValidName c) (h : join a = join b) : a = b := by
  rw [← splitOn_join ha hca, h, splitOn_join hb hcb]

example : clean (lit "a/./b//../c.go") = lit "a/c.go" := by decide

example : ext (lit "dir.d/file.GO") = lit ".GO" := by decide

theorem notMem_of_mem_splitOn {x : UInt8} (h : c ∈ s.splitOn x) : x ∉ c := by
  rw [splitOn_eq_splitOnP] at h
  induction s generalizing c with
  | nil =>
    rw [splitOnP_nil, mem_singleton] at h
    simp [h]
  | cons b s ih =>
    rw [splitOnP_cons_eq_if_modifyHead] at h
    split_ifs at h with hb
    · rcases mem_cons.mp h with rfl | h
      · simp
      · exact ih h
    · cases hs : s.splitOnP (fun y => y == x) with
      | nil => exact absurd hs (splitOnP_ne_nil _ _)
      | cons d ds =>
        rw [hs] at h ih
        rcases mem_cons.mp h with rfl | h
        · have hd := ih (.head _)
          simp only [beq_iff_eq] at hb
          exact fun hx => (mem_cons.mp hx).elim (fun h => hb h.symm) hd
        · exact ih (.tail _ h)

theorem cleanStep_rooted {stack : Rel} {d : GoString} (hs : ∀ c ∈ stack, ValidName c) (hd : slash ∉ d) :
    ∀ c ∈ cleanStep true stack d, ValidName c := by
  unfold cleanStep
  by_cases h₁ : d = [] ∨ d = lit "."
  · rw [if_pos h₁]
    exact hs
  by_cases h₂ : d = lit ".."
  · rw [if_neg h₁, if_pos h₂]
    cases stack with
    | nil => simp
    | cons top rest =>
      have htop : top ≠ lit ".." := (hs top (.head _)).2.2.2
      simp only [if_neg htop]
      exact fun c hc => hs c (.tail _ hc)
  · rw [if_neg h₁, if_neg h₂]
    rw [not_or] at h₁
    intro c hc
    rcases mem_cons.mp hc with rfl | hc
    · exact ⟨h₁.1, hd, h₁.2, h₂⟩
    · exact hs c hc

/-- A cleaned absolute path has ordinary names only. -/
theorem validName_cleanElems (h : c ∈ cleanElems true (s.splitOn slash)) : ValidName c := by
  have hstack : ∀ (cs stack : Rel), (∀ c ∈ cs, slash ∉ c) → (∀ c ∈ stack, ValidName c) →
      ∀ c ∈ cs.foldl (cleanStep true) stack, ValidName c := by
    intro cs
    induction cs with
    | nil => exact fun stack _ hs => hs
    | cons d cs ih =>
      intro stack hcs hs
      exact ih _ (fun c hc => hcs c (.tail _ hc)) (cleanStep_rooted hs (hcs d (.head _)))
  exact hstack _ [] (fun c hc => notMem_of_mem_splitOn hc) (by simp) c (mem_reverse.mp h)

/-- A cleaned relative path goes up first and then down. -/
theorem foldl_cleanStep_relative (cs : Rel) (hcs : ∀ c ∈ cs, slash ∉ c) :
    ∃ n down, cs.foldl (cleanStep false) [] = down ++ List.replicate n (lit "..") ∧ ∀ c ∈ down, ValidName c := by
  induction cs using List.reverseRecOn with
  | nil => exact ⟨0, [], rfl, by simp⟩
  | append_singleton cs c ih =>
    obtain ⟨n, down, hstack, hdown⟩ := ih (fun c hc => hcs c (by simp [hc]))
    have hc : slash ∉ c := hcs c (by simp)
    rw [foldl_append, hstack, foldl_cons, foldl_nil]
    unfold cleanStep
    by_cases h₁ : c = [] ∨ c = lit "."
    · exact ⟨n, down, by rw [if_pos h₁], hdown⟩
    by_cases h₂ : c = lit ".."
    · rw [if_neg h₁, if_pos h₂]
      cases down with
      | nil =>
        refine ⟨n + 1, [], ?_, by simp⟩
        cases n with
        | zero => simp [h₂]
        | succ n => simp [replicate_succ, h₂]
      | cons top rest =>
        have htop : top ≠ lit ".." := (hdown top (.head _)).2.2.2
        refine ⟨n, rest, ?_, fun c hc => hdown c (.tail _ hc)⟩
        simp [htop]
    · rw [if_neg h₁, if_neg h₂]
      rw [not_or] at h₁
      refine ⟨n, c :: down, rfl, fun d hd => ?_⟩
      rcases mem_cons.mp hd with rfl | hd
      · exact ⟨h₁.1, hc, h₁.2, h₂⟩
      · exact hdown d hd

/-- A clean relative path with an element `..` starts with it. -/
theorem starts_dotdot_of_clean (hrel : hasPrefix s [slash] = false) (hclean : clean s = s)
    (h : lit ".." ∈ s.splitOn slash) : s = lit ".." ∨ hasPrefix s (lit "../") = true := by
  obtain ⟨n, down, hstack, hdown⟩ := foldl_cleanStep_relative (s.splitOn slash) (fun c hc => notMem_of_mem_splitOn hc)
  have helems : cleanElems false (s.splitOn slash) = List.replicate n (lit "..") ++ down.reverse := by
    rw [cleanElems, hstack, reverse_append, reverse_replicate]
  rw [clean, hrel, helems] at hclean
  simp only [Bool.false_eq_true, if_false] at hclean
  by_cases hnil : List.replicate n (lit "..") ++ down.reverse = []
  · rw [if_pos hnil] at hclean
    rw [← hclean] at h
    exact absurd h (by decide)
  · rw [if_neg hnil] at hclean
    have hslash : ∀ c ∈ List.replicate n (lit "..") ++ down.reverse, slash ∉ c := by
      intro c hc
      rcases mem_append.mp hc with hc | hc
      · rw [eq_of_mem_replicate hc]
        decide
      · exact (hdown c (mem_reverse.mp hc)).2.1
    have hsplit : s.splitOn slash = List.replicate n (lit "..") ++ down.reverse := by
      rw [← hclean]
      exact splitOn_intercalate slash hslash hnil
    cases n with
    | zero =>
      rw [hsplit] at h
      exact absurd rfl (hdown _ (by simpa using h)).2.2.2
    | succ n =>
      rw [replicate_succ, cons_append] at hclean
      by_cases hrest : List.replicate n (lit "..") ++ down.reverse = []
      · rw [hrest, join_singleton] at hclean
        exact .inl hclean.symm
      · rw [join_cons hrest] at hclean
        refine .inr ?_
        rw [← hclean, hasPrefix, isPrefixOf_iff_prefix]
        exact ⟨_, by rw [show lit "../" = lit ".." ++ [slash] by decide, append_assoc]; rfl⟩

/-- From a base to a path below it the way does not go up, and from any other base it does. -/
theorem mem_relElems_iff {bs ts : Rel} (ht : ∀ c ∈ ts, c ≠ lit "..") :
    lit ".." ∈ relElems bs ts ↔ ¬ bs <+: ts := by
  induction bs generalizing ts with
  | nil =>
    simp only [not_true_eq_false, nil_prefix, iff_false]
    exact fun h => ht _ h rfl
  | cons b bs ih =>
    cases ts with
    | nil => simp [relElems, stripCommon]
    | cons t ts =>
      by_cases hbt : b = t
      · subst hbt
        rw [cons_prefix_cons, and_iff_right rfl, ← ih (fun c hc => ht c (.tail _ hc))]
        simp [relElems, stripCommon]
      · simp [relElems, stripCommon, hbt]

end CodeMemory.Lib.Path
