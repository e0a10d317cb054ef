import CodeMemory.Lib.FileSystem

/-! The path guard. An absolute cleaned path is the list of its elements.
`EvalSymlinks` resolves a path as the kernel does and reports a missing object
as not existing; every other failure of it makes the guard refuse. -/

namespace CodeMemory.PathGuard

open Lib Lib.GoString Lib.Path List

/-- The kernel follows at most forty links. -/
def maxLinks : Nat := 40

/-- `filepath.Abs`, with the working directory. -/
def absElems (cwd path : GoString) : Loc :=
  cleanElems true ((if hasPrefix path [slash] then path else cwd ++ slash :: path).splitOn slash)

inductive Err where
  | emptyPath
  | unresolved
  | escapes
  deriving DecidableEq

variable {α : Type} (fs : FileSystem α) (cwd : GoString)

/-- What opening or creating an absolute path leads to. -/
def openPath (path : Loc) : Walk := fs.walk maxLinks [] path

inductive Eval where
  | ok (path : Loc)
  | notExist
  | failed

def evalSymlinks (path : Loc) : Eval :=
  match openPath fs path with
  | .found loc => .ok loc
  | .missing _ | .noEntry => .notExist
  | .notDir | .tooManyLinks => .failed

/-- The loop of `Resolve`: the elements of `current` in reverse, and the remainder. -/
def resolveUp (current remainder : Loc) : Except Err Loc :=
  match evalSymlinks fs current.reverse with
  | .ok resolved => .ok (resolved ++ remainder)
  | .failed => .error .unresolved
  | .notExist =>
    match current with
    | [] => .ok remainder
    | c :: parent => resolveUp parent (c :: remainder)

def resolve (path : GoString) : Except Err Loc :=
  if trimSpace path = [] then .error .emptyPath else resolveUp fs (absElems cwd path).reverse []

def escapes (rel : Rel) : Bool := rel.any (· = lit "..")

def contain (root candidate : GoString) : Except Err Loc :=
  match resolve fs cwd root with
  | .error e => .error e
  | .ok rootReal =>
    match resolve fs cwd candidate with
    | .error e => .error e
    | .ok candidateReal => if escapes (relElems rootReal candidateReal) then .error .escapes else .ok candidateReal

variable {fs cwd} {loc q : Loc}

theorem evalSymlinks_ok_iff {path : Loc} : evalSymlinks fs path = .ok loc ↔ openPath fs path = .found loc := by
  unfold evalSymlinks
  split <;> simp_all

theorem evalSymlinks_notExist_iff {path : Loc} :
    evalSymlinks fs path = .notExist ↔ FileSystem.NotExist (openPath fs path) := by
  unfold evalSymlinks FileSystem.NotExist
  split <;> simp_all

/-- The longest part of the path that exists is resolved and the rest is put back. -/
theorem resolveUp_cases {current remainder : Loc} (h : resolveUp fs current remainder = .ok q) :
    ∃ pre rest loc, current.reverse = pre ++ rest ∧ openPath fs pre = .found loc ∧ q = loc ++ (rest ++ remainder) ∧
      ∀ c tail, rest = c :: tail → FileSystem.NotExist (openPath fs (pre ++ [c])) := by
  induction current generalizing remainder with
  | nil =>
    have hroot : openPath fs [] = .found [] := rfl
    cases h
    exact ⟨[], [], [], rfl, hroot, by simp, by simp⟩
  | cons c parent ih =>
    rw [resolveUp] at h
    cases he : evalSymlinks fs (c :: parent).reverse with
    | ok loc =>
      rw [he] at h
      cases h
      exact ⟨(c :: parent).reverse, [], loc, by simp, evalSymlinks_ok_iff.mp he, by simp, by simp⟩
    | failed =>
      rw [he] at h
      cases h
    | notExist =>
      rw [he] at h
      obtain ⟨pre, rest, loc, hpar, hpre, rfl, hrest⟩ := ih h
      refine ⟨pre, rest ++ [c], loc, by simp [hpar], hpre, by simp, ?_⟩
      intro d tail hd
      cases rest with
      | nil =>
        obtain ⟨rfl, -⟩ := hd
        rw [append_nil] at hpar
        rw [reverse_cons, hpar] at he
        exact evalSymlinks_notExist_iff.mp he
      | cons d' rest =>
        simp only [cons_append, List.cons.injEq] at hd
        exact hrest d rest (by rw [hd.1])

variable {path : GoString}

theorem resolve_cases (h : resolve fs cwd path = .ok q) :
    ∃ pre rest loc, absElems cwd path = pre ++ rest ∧ openPath fs pre = .found loc ∧ q = loc ++ rest ∧
      ∀ c tail, rest = c :: tail → FileSystem.NotExist (openPath fs (pre ++ [c])) := by
  unfold resolve at h
  split_ifs at h
  obtain ⟨pre, rest, loc, hcs, hpre, hq, hrest⟩ := resolveUp_cases h
  rw [reverse_reverse] at hcs
  exact ⟨pre, rest, loc, hcs, hpre, by simpa using hq, hrest⟩

theorem real_of_found {path : Loc} (h : openPath fs path = .found loc) : fs.Real loc :=
  FileSystem.walk_found_real (FileSystem.real_of_isDir FileSystem.isDir_nil) h

/-- Opening the resolved path reaches what opening the path itself reaches. -/
theorem openPath_resolve (h : resolve fs cwd path = .ok q) : openPath fs q = openPath fs (absElems cwd path) := by
  obtain ⟨pre, rest, loc, hcs, hpre, rfl, hrest⟩ := resolve_cases h
  obtain ⟨m, hm, hwalk⟩ := FileSystem.walk_append_found hpre
  have hloc : openPath fs (loc ++ rest) = fs.walk maxLinks loc rest :=
    FileSystem.walk_real_append (real_of_found hpre) rest
  have hpath : openPath fs (absElems cwd path) = fs.walk m loc rest := by
    rw [hcs]
    exact hwalk rest
  rw [hloc, hpath]
  refine FileSystem.walk_mono ?_ hm
  -- the first component that is not there ends the walk before the links do
  cases rest with
  | nil =>
    rw [FileSystem.walk_done rfl]
    exact fun h => by cases h
  | cons c tail =>
    have hc : FileSystem.NotExist (fs.walk m loc [c]) := by
      rw [← hwalk]
      exact hrest c tail rfl
    by_cases htail : tail = []
    · subst htail
      rcases hc with hc | ⟨l, hc⟩ <;> rw [hc] <;> exact fun h => by cases h
    · have := FileSystem.walk_append_notExist hc htail
      rw [singleton_append] at this
      rw [this]
      exact fun h => by cases h

theorem valid_absElems {c : GoString} (h : c ∈ absElems cwd path) : ValidName c := validName_cleanElems h

/-- The names of an object that is there are ordinary ones. -/
theorem valid_of_real (h : fs.Real loc) : ∀ c ∈ loc, ValidName c := by
  induction loc using List.reverseRecOn with
  | nil => simp
  | append_singleton p c ih =>
    obtain ⟨e, he, -⟩ := h
    have hp : fs.Real p := FileSystem.real_of_isDir (FileSystem.isDir_iff.mpr (fs.parent p c e he))
    intro d hd
    rcases mem_append.mp hd with hd | hd
    · exact ih hp d hd
    · rw [mem_singleton.mp hd]
      exact fs.valid p c e he

theorem valid_resolve (h : resolve fs cwd path = .ok q) : ∀ c ∈ q, ValidName c := by
  obtain ⟨pre, rest, loc, hcs, hpre, rfl, -⟩ := resolve_cases h
  intro c hc
  rcases mem_append.mp hc with hc | hc
  · exact valid_of_real (real_of_found hpre) c hc
  · exact valid_absElems (by rw [hcs]; exact mem_append_right _ hc)

theorem contain_eq_ok_iff {root candidate : GoString} : contain fs cwd root candidate = .ok q ↔
      ∃ rootReal, resolve fs cwd root = .ok rootReal ∧ resolve fs cwd candidate = .ok q ∧ rootReal <+: q := by
  unfold contain
  cases hr : resolve fs cwd root with
  | error e => simp
  | ok rootReal =>
    cases hc : resolve fs cwd candidate with
    | error e => simp
    | ok c =>
      have hescapes : escapes (relElems rootReal c) = true ↔ ¬ rootReal <+: c := by
        rw [← mem_relElems_iff (fun d hd => (valid_resolve hc d hd).2.2.2)]
        simp [escapes]
      by_cases hin : rootReal <+: c
      · have hno : escapes (relElems rootReal c) = false := by
          rw [← Bool.not_eq_true, hescapes]
          exact not_not_intro hin
        simp only [hno, Bool.false_eq_true, if_false, Except.ok.injEq, exists_eq_left']
        exact ⟨fun h => ⟨h, h ▸ hin⟩, fun h => h.1⟩
      · simp only [hescapes.mpr hin, if_true, reduceCtorEq, Except.ok.injEq, exists_eq_left', false_iff, not_and]
        rintro rfl
        exact hin

/-- The object reached lies at or below a location. -/
def ReachesInside (w : Walk) (root : Loc) : Prop := ∀ loc, w = .found loc ∨ w = .missing loc → root <+: loc

/-- The candidate is a link in an existing directory, and following it ends at a missing object outside the root. -/
def DanglesOutside (fs : FileSystem α) (path root : Loc) : Prop :=
  ∃ parent name dir target loc, path = parent ++ [name] ∧ openPath fs parent = .found dir ∧
    fs.entry (dir ++ [name]) = some (.link target) ∧ openPath fs path = .missing loc ∧ ¬ root <+: loc

/-- A path that is there resolves to its object. -/
theorem resolve_found (h : resolve fs cwd path = .ok q)
    (hloc : openPath fs (absElems cwd path) = .found loc) : q = loc := by
  unfold resolve at h
  split_ifs at h
  unfold resolveUp at h
  rw [reverse_reverse, evalSymlinks_ok_iff.mpr hloc] at h
  cases h
  exact append_nil loc

/-- What is not there itself, without a link, is missing where the guard puts it. -/
theorem dangles_of_missing (h : resolve fs cwd path = .ok q)
    (hmiss : openPath fs (absElems cwd path) = .missing loc) (hne : loc ≠ q) :
    ∃ parent name dir target, absElems cwd path = parent ++ [name] ∧ openPath fs parent = .found dir ∧
      fs.entry (dir ++ [name]) = some (.link target) := by
  obtain ⟨pre, rest, d, hcs, hpre, rfl, hrest⟩ := resolve_cases h
  cases rest with
  | nil =>
    rw [hcs, append_nil, hpre] at hmiss
    cases hmiss
  | cons c tail =>
    have htail : tail = [] := by
      by_contra htail
      have hno := FileSystem.walk_append_notExist (hrest c tail rfl) htail
      rw [append_assoc, singleton_append, ← hcs] at hno
      rw [openPath, hno] at hmiss
      cases hmiss
    subst htail
    refine ⟨pre, c, d, ?_⟩
    have hvalid : ValidName c := valid_absElems (by rw [hcs]; simp)
    obtain ⟨m, -, hwalk⟩ := FileSystem.walk_append_found hpre
    have hlast : fs.walk m d [c] = .missing loc := by
      rw [← hwalk, ← hcs]
      exact hmiss
    have hdir : fs.isDir d = true := by
      refine FileSystem.component_isDir (c := c) fun hn => ?_
      have hscan : fs.scan d [c] = .done .notDir := by rw [FileSystem.scan, hn]
      rw [FileSystem.walk_done hscan] at hlast
      cases hlast
    have hscan : ∀ w, fs.scan d [c] = .done w → w = .missing loc :=
      fun w hw => (FileSystem.walk_done hw).symm.trans hlast
    rw [FileSystem.scan, FileSystem.component_valid hdir hvalid] at hscan
    cases he : fs.entry (d ++ [c]) with
    | none =>
      rw [he] at hscan
      cases hscan _ rfl
      exact absurd rfl hne
    | some e =>
      cases e with
      | link t => exact ⟨t, hcs, hpre, rfl⟩
      | dir | file a =>
        rw [he] at hscan
        cases hscan _ rfl

/-- A contained path leads inside the root exactly if the candidate is not a link that dangles outside it. -/
theorem contain_confines_iff (fs : FileSystem α) (cwd root candidate : GoString) (q rootReal : Loc)
    (hq : contain fs cwd root candidate = .ok q) (hroot : resolve fs cwd root = .ok rootReal) :
    ReachesInside (openPath fs q) rootReal ↔ ¬ DanglesOutside fs (absElems cwd candidate) rootReal := by
  obtain ⟨r, hr, hc, hin⟩ := contain_eq_ok_iff.mp hq
  rw [hroot] at hr
  cases hr
  rw [openPath_resolve hc]
  constructor
  · rintro h ⟨parent, name, dir, target, loc, -, -, -, hmiss, hout⟩
    exact hout (h loc (.inr hmiss))
  · intro h loc hloc
    by_cases hsame : loc = q
    · rw [hsame]
      exact hin
    rcases hloc with hloc | hloc
    · exact absurd (resolve_found hc hloc).symm hsame
    · by_contra hout
      obtain ⟨parent, name, dir, target, hpath, hdir, hlink⟩ := dangles_of_missing hc hloc hsame
      exact h ⟨parent, name, dir, target, loc, hpath, hdir, hlink, hloc, hout⟩

/-- A root `/r` with a link to the missing `/o/n`, and a directory `/o`. -/
def exampleFs : FileSystem Unit :=
  FileSystem.ofList [([lit "r"], .dir), ([lit "o"], .dir), ([lit "r", lit "l"], .link (lit "/o/n"))] (by decide)

theorem contain_confines_new_file :
    contain exampleFs (lit "/") (lit "/r") (lit "/r/n") = .ok [lit "r", lit "n"] ∧
      ReachesInside (openPath exampleFs [lit "r", lit "n"]) [lit "r"] := by
  have hq : contain exampleFs (lit "/") (lit "/r") (lit "/r/n") = .ok [lit "r", lit "n"] := by decide +kernel
  have hroot : resolve exampleFs (lit "/") (lit "/r") = .ok [lit "r"] := by decide +kernel
  refine ⟨hq, (contain_confines_iff exampleFs (lit "/") (lit "/r") (lit "/r/n") _ _ hq hroot).mpr ?_⟩
  rintro ⟨parent, name, dir, target, loc, -, -, -, hmiss, hout⟩
  have hloc : openPath exampleFs (absElems (lit "/") (lit "/r/n")) = .missing [lit "r", lit "n"] := by decide +kernel
  cases hmiss
  exact hout ⟨[lit "n"], rfl⟩

/-- The guard admits the link `/r/l`; creating it creates `/o/n`. -/
theorem dangling_link_escapes :
    contain exampleFs (lit "/") (lit "/r") (lit "/r/l") = .ok [lit "r", lit "l"] ∧
      resolve exampleFs (lit "/") (lit "/r") = .ok [lit "r"] ∧
      ¬ ReachesInside (openPath exampleFs [lit "r", lit "l"]) [lit "r"] := by
  refine ⟨by decide +kernel, by decide +kernel, fun h => ?_⟩
  have hloc : openPath exampleFs [lit "r", lit "l"] = .missing [lit "o", lit "n"] := by decide +kernel
  have hin := h _ (.inr hloc)
  revert hin
  decide +kernel

end CodeMemory.PathGuard
