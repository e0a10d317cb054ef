import CodeMemory.Crawl.Tree

/-! The two ways the ignore policy is asked: the walk decides each directory on
the way down, a point query decides the full path at once. They agree on a path
unless it lies below an excluded directory and the rules do not exclude the path
itself, which takes a negation or a newline in a name. -/

namespace CodeMemory.Ignore

open Lib Lib.GoString Lib.Path List

variable (rules : List Rule)

/-- An exclusion matches, and no negation after it does. -/
def Excludes (q : GoString) : Prop :=
  ∃ before r after, rules = before ++ r :: after ∧ r.negated = false ∧ r.matchString q = true ∧
    ∀ r' ∈ after, r'.negated = true → r'.matchString q = false

/-- A negation matches, and no exclusion after it does. -/
def Reincludes (q : GoString) : Prop :=
  ∃ before r after, rules = before ++ r :: after ∧ r.negated = true ∧ r.matchString q = true ∧
    ∀ r' ∈ after, r'.negated = false → r'.matchString q = false

/-- The last matching rule decides. -/
def decision (q : GoString) : Bool :=
  rules.foldl (fun ignored r => if r.matchString q then !r.negated else ignored) false

theorem decision_concat (r : Rule) (q : GoString) :
    decision (rules ++ [r]) q = if r.matchString q then !r.negated else decision rules q := by
  simp [decision]

/-- A list whose last element with `P` and `Q` has only `R` after it, one longer at the end. -/
theorem last_concat_iff {α : Type} {xs : List α} {x : α} {P Q R : α → Prop} :
    (∃ before y after, xs ++ [x] = before ++ y :: after ∧ P y ∧ Q y ∧ ∀ z ∈ after, R z) ↔
      (P x ∧ Q x) ∨ (∃ before y after, xs = before ++ y :: after ∧ P y ∧ Q y ∧ ∀ z ∈ after, R z) ∧ R x := by
  constructor
  · rintro ⟨before, y, after, h, hp, hq, hr⟩
    rcases eq_nil_or_concat after with rfl | ⟨after, z, rfl⟩
    · obtain ⟨rfl, he⟩ := append_inj' h rfl
      obtain rfl : x = y := by simpa using he
      exact .inl ⟨hp, hq⟩
    · rw [concat_eq_append] at h hr
      rw [← cons_append, ← append_assoc] at h
      obtain ⟨rfl, he⟩ := append_inj' h rfl
      obtain rfl : x = z := by simpa using he
      obtain ⟨hafter, hx⟩ := forall_mem_append.mp hr
      exact .inr ⟨⟨before, y, after, rfl, hp, hq, hafter⟩, hx x (.head _)⟩
  · rintro (⟨hp, hq⟩ | ⟨⟨before, y, after, rfl, hp, hq, hafter⟩, hx⟩)
    · exact ⟨xs, x, [], rfl, hp, hq, forall_mem_nil _⟩
    · exact ⟨before, y, after ++ [x], by simp, hp, hq, forall_mem_append.mpr ⟨hafter, forall_mem_singleton.mpr hx⟩⟩

variable {r : Rule} {q : GoString} {p d s : Rel} {isDir : Bool}

theorem excludes_concat {rules : List Rule} :
    Excludes (rules ++ [r]) q ↔ (r.negated = false ∧ r.matchString q = true) ∨
      (Excludes rules q ∧ (r.negated = true → r.matchString q = false)) :=
  last_concat_iff

theorem reincludes_concat {rules : List Rule} :
    Reincludes (rules ++ [r]) q ↔ (r.negated = true ∧ r.matchString q = true) ∨
      (Reincludes rules q ∧ (r.negated = false → r.matchString q = false)) :=
  last_concat_iff

theorem decision_iff (q : GoString) : decision rules q = true ↔ Excludes rules q := by
  induction rules using List.reverseRecOn with
  | nil => simp [decision, Excludes]
  | append_singleton rules r ih =>
    rw [decision_concat, excludes_concat, ← ih]
    cases hm : r.matchString q <;> cases hn : r.negated <;> simp

/-- A path is excluded if an exclusion matches it and no negation has the last word. -/
theorem excludes_iff (q : GoString) : Excludes rules q ↔
      (∃ r ∈ rules, r.negated = false ∧ r.matchString q = true) ∧ ¬ Reincludes rules q := by
  induction rules using List.reverseRecOn with
  | nil => simp [Excludes]
  | append_singleton rules r ih =>
    rw [excludes_concat, reincludes_concat, ih]
    simp only [mem_append, mem_singleton, or_and_right, exists_or, exists_eq_left]
    cases hm : r.matchString q <;> cases hn : r.negated <;> simp

theorem join_ne_dot (hp : p ≠ []) (hv : ∀ c ∈ p, ValidName c) : ¬ (join p = lit "." ∨ join p = []) := by
  rintro (h | h)
  · have hj : join p = join [lit "."] := by rw [join_singleton]; exact h
    have hs := splitOn_join hp hv
    rw [hj, join_singleton] at hs
    have hdot : lit "." ∈ p := by rw [← hs]; decide
    exact (hv _ hdot).2.2.1 rfl
  · exact join_ne_nil hp hv h

/-- The query for a directory, or for a path below one, is the rules' decision:
a directory-only rule is passed over only for a file at the root. -/
theorem ignored_eq_decision (m : Matcher) (hp : p ≠ []) (hv : ∀ c ∈ p, ValidName c)
    (h : isDir = true ∨ slash ∈ join p) : m.ignored (join p) isDir = decision m.rules (join p) := by
  simp only [Matcher.ignored, clean_join hp hv, if_neg (join_ne_dot hp hv), decision]
  congr 1
  funext ignored r
  have hskip : (r.dirOnly && !isDir && !(join p).contains slash) = false := by
    rcases h with rfl | h
    · simp
    · simp [h]
  rw [hskip]
  simp

theorem ignored_iff_excludes (m : Matcher) (hp : p ≠ []) (hv : ∀ c ∈ p, ValidName c)
    (h : isDir = true ∨ slash ∈ join p) : m.ignored (join p) isDir = true ↔ Excludes m.rules (join p) := by
  rw [ignored_eq_decision m hp hv h, decision_iff]

theorem slash_mem_join (hd : d ≠ []) (hs : s ≠ []) : slash ∈ join (d ++ s) := by
  rw [join_append hd hs]; simp

/-- An exclusion that matches a directory matches what lies below it, as far as
no name below it has a newline. -/
theorem Rule.matchString_below (r : Rule) (hd : d ≠ []) (hs : s ≠ [])
    (hn : Scanner.newline ∉ join s) (h : r.matchString (join d) = true) : r.matchString (join (d ++ s)) = true := by
  rw [Rule.matchString, Regex.accepts_iff] at h ⊢
  rw [join_append hd hs, runes_append_ascii (by decide)]
  exact r.below _ _ h (fun hm => hn (mem_of_runesFrom (b := Scanner.newline) (by decide) hm))

end CodeMemory.Ignore

namespace CodeMemory.Crawl

open Lib Lib.GoString Lib.Path Ignore

theorem mem_walk_iff (m : Matcher) (T : Tree) {p : Rel} {e : Entry}
    (hp : T.listing.lookup p = some (.file e)) :
    (join p, e) ∈ T.walk m.ignored (fun _ => false) ↔
      (∀ d s, d ≠ [] → s ≠ [] → p = d ++ s → m.ignored (join d) true = false) ∧
        m.ignored (join p) false = false := by
  have hne := Listing.ne_nil_of_lookup hp
  have hv := Listing.valid_of_lookup T.wf hp
  have hreach : (join p, e) ∈ T.walk m.ignored (fun _ => false) ↔
      Listing.Reach m.ignored (fun _ => false) [] p := by
    rw [Tree.mem_walk]
    constructor
    · rintro ⟨q, hq, hl, hr⟩
      rwa [join_injective hne (Listing.ne_nil_of_lookup hl) hv (Listing.valid_of_lookup T.wf hl) hq]
    · intro hr; exact ⟨p, rfl, hp, hr⟩
  rw [hreach, Listing.reach_iff hne]
  refine and_congr_left (fun _ => ⟨fun h d s hd hs he => ?_, fun h d hd hd' hpre => ?_⟩)
  · exact h d hd (fun hdp => hs (by simpa [hdp] using he)) ⟨s, he.symm⟩
  · obtain ⟨s, rfl⟩ := hpre
    exact h d s hd (fun hs => hd' (by simp [hs])) rfl

/-- The walk and the point query agree on a file if and only if no directory above
it is excluded while a negation re-includes the file, or while the part of the
path below the directory has a newline and no exclusion matches the whole path. -/
theorem walk_agrees_with_ignored_iff (tooLarge : List Char → Bool) (lines : List GoString) (T : Tree)
    (p : Rel) (e : Entry) (hp : T.listing.lookup p = some (.file e)) :
    ((join p, e) ∈ T.walk (lines.foldl (Matcher.add tooLarge) ⟨[]⟩).ignored (fun _ => false) ↔
        (lines.foldl (Matcher.add tooLarge) ⟨[]⟩).ignored (join p) false = false) ↔
      ∀ d s, d ≠ [] → s ≠ [] → p = d ++ s →
        Excludes (lines.foldl (Matcher.add tooLarge) ⟨[]⟩).rules (join d) →
          ¬ Reincludes (lines.foldl (Matcher.add tooLarge) ⟨[]⟩).rules (join p) ∧
          (Scanner.newline ∈ join s →
            ∃ r ∈ (lines.foldl (Matcher.add tooLarge) ⟨[]⟩).rules,
              r.negated = false ∧ r.matchString (join p) = true) := by
  generalize lines.foldl (Matcher.add tooLarge) ⟨[]⟩ = m
  have hv := Listing.valid_of_lookup T.wf hp
  rw [mem_walk_iff m T hp]
  -- agreement is: an excluded directory above the file excludes the file
  have hagree : (((∀ d s, d ≠ [] → s ≠ [] → p = d ++ s → m.ignored (join d) true = false) ∧
      m.ignored (join p) false = false) ↔ m.ignored (join p) false = false) ↔
      ∀ d s, d ≠ [] → s ≠ [] → p = d ++ s → m.ignored (join d) true = true →
        m.ignored (join p) false = true := by
    constructor
    · intro h d s hd hs he hi
      by_contra hn
      have := (h.mpr (by simpa using hn)).1 d s hd hs he
      rw [hi] at this
      cases this
    · intro h
      refine ⟨And.right, fun hn => ⟨fun d s hd hs he => ?_, hn⟩⟩
      by_contra hi
      rw [h d s hd hs he (by simpa using hi)] at hn
      cases hn
  rw [hagree]
  refine forall_congr' fun d => forall_congr' fun s => forall_congr' fun hd => forall_congr' fun hs =>
    forall_congr' fun he => ?_
  subst he
  have hvd : ∀ c ∈ d, ValidName c := fun c hc => hv c (by simp [hc])
  rw [ignored_iff_excludes m hd hvd (Or.inl rfl),
    ignored_iff_excludes m (by simp [hd]) hv (Or.inr (slash_mem_join hd hs)), excludes_iff m.rules (join (d ++ s))]
  refine forall_congr' fun hex => ?_
  obtain ⟨⟨r, hr, hneg, hm⟩, -⟩ := (excludes_iff _ _).mp hex
  constructor
  · rintro ⟨hr', hre⟩; exact ⟨hre, fun _ => hr'⟩
  · rintro ⟨hre, hnl⟩
    refine ⟨?_, hre⟩
    by_cases hn : Scanner.newline ∈ join s
    · exact hnl hn
    · exact ⟨r, hr, hneg, r.matchString_below hd hs hn hm⟩

def buildTree : Tree where
  rootName := lit "repo"
  listing := .dir (lit "build") (.file (lit "keep.go") (.regular ⟨13, 1⟩ (some (lit "package keep\n"))) .nil) .nil
  wf := by decide
  ignoreFiles := ⟨.absent, .absent, .absent⟩
  outside _ := none

theorem walk_agrees_with_ignored_on_build :
    ((join [lit "build", lit "keep.go"], .regular ⟨13, 1⟩ (some (lit "package keep\n"))) ∈
        buildTree.walk ([lit "*.log"].foldl (Matcher.add (fun _ => false)) ⟨[]⟩).ignored (fun _ => false) ↔
      ([lit "*.log"].foldl (Matcher.add (fun _ => false)) ⟨[]⟩).ignored
        (join [lit "build", lit "keep.go"]) false = false) := by
  refine (walk_agrees_with_ignored_iff (fun _ => false) [lit "*.log"] buildTree
    [lit "build", lit "keep.go"] _ rfl).mpr (fun d s hd hs he hex => ?_)
  obtain rfl : d = [lit "build"] := by
    rcases d with _ | ⟨a, _ | ⟨b, d⟩⟩
    · exact absurd rfl hd
    · simp_all
    · simp_all
  rw [← decision_iff] at hex
  exact absurd hex (by decide)

/-- `build/` followed by `!build/keep.go`: the walk skips the directory, the point
query admits the file. -/
theorem negation_below_excluded_directory :
    ¬ ((join [lit "build", lit "keep.go"], .regular ⟨13, 1⟩ (some (lit "package keep\n"))) ∈
        buildTree.walk ([lit "build/", lit "!build/keep.go"].foldl (Matcher.add (fun _ => false)) ⟨[]⟩).ignored
          (fun _ => false) ↔
      ([lit "build/", lit "!build/keep.go"].foldl (Matcher.add (fun _ => false)) ⟨[]⟩).ignored
        (join [lit "build", lit "keep.go"]) false = false) := by
  decide

end CodeMemory.Crawl
