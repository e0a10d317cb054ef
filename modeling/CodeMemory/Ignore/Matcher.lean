import CodeMemory.Lib.Path
import CodeMemory.Lib.Regexp
import CodeMemory.Lib.Scanner

/-! The repository ignore policy: how a line of an ignore file becomes a rule, the
regular expression a pattern compiles to, and the decision for a path. A rule
carries the fact that its expression matches everything below what it matches. -/

namespace CodeMemory.Ignore

open Lib Lib.GoString Lib.Path

def backslash : UInt8 := 0x5C

def bang : UInt8 := 0x21

def bracketOpen : UInt8 := 0x5B

def bracketClose : UInt8 := 0x5D

/-- The text of one byte written through `string(c)`, which is the code point of
that number. -/
def byteText (c : UInt8) : List Char := Regexp.quoteMeta [Char.ofNat c.toNat]

/-- A bracket expression's body, with `!` for negation. -/
def classBody (body : GoString) : GoString :=
  match body with
  | c :: t => if c = bang then 0x5E :: t else body
  | [] => body

/-- The expression text of the pattern from a position `skip` bytes ahead; none
if a bracket expression's body is not valid UTF-8. -/
def textFrom : Nat → GoString → Option (List Char)
  | _, [] => some []
  | skip + 1, _ :: t => textFrom skip t
  | 0, c :: t =>
    if hasPrefix (c :: t) (lit "**/") then (textFrom 2 t).map (Regexp.upText ++ ·)
    else if hasPrefix (c :: t) (lit "**") then (textFrom 1 t).map (Regexp.anyText ++ ·)
    else if c = 0x2A then (textFrom 0 t).map (['[', '^', '/', ']', '*'] ++ ·)
    else if c = 0x3F then (textFrom 0 t).map (['[', '^', '/', ']'] ++ ·)
    else if c = bracketOpen then
      if bracketClose ∈ t then
        match strictRunes (classBody (t.take (t.idxOf bracketClose))) with
        | none => none
        | some rs =>
          (textFrom (t.idxOf bracketClose + 1) t).map ('[' :: rs.map Char.ofNat ++ [']'] ++ ·)
      else (textFrom 0 t).map (['\\', '['] ++ ·)
    else (textFrom 0 t).map (byteText c ++ ·)

/-- An expression after its leading `^`: an optional run of directories, a body,
and everything below. -/
def wrap (anchored : Bool) (body : List Char) : List Char :=
  (if anchored then [] else Regexp.upText) ++ body ++ Regexp.belowText

variable (tooLarge : List Char → Bool)

/-- `regexp.Compile`, where `tooLarge` is the package's limit on the size of an
expression. -/
def regexpCompile (anchored : Bool) (body : Option (List Char)) :
    Option (Regex Rune) :=
  match body with
  | none => none
  | some b => if tooLarge (wrap anchored b) then none else Regexp.parse (wrap anchored b)

/-- The expression for a pattern: the pattern read as a glob, else the pattern
read literally, else an expression that matches nothing. -/
def compile (pattern : GoString) (rooted : Bool) : Regex Rune :=
  let anchored := rooted || pattern.contains slash
  match regexpCompile tooLarge anchored (textFrom 0 pattern) with
  | some re => re
  | none =>
    match regexpCompile tooLarge rooted
        ((strictRunes pattern).map (fun rs => Regexp.quoteMeta (rs.map Char.ofNat))) with
    | some re => re
    | none => Regex.fail

theorem below_fail : Regexp.Below Regex.fail := fun _ _ h => h.elim

theorem quoteMeta_getLast? {cs : List Char} (h : '\\' ∉ cs) :
    (Regexp.quoteMeta cs).getLast? ≠ some '\\' := by
  induction cs using List.reverseRecOn with
  | nil => simp [Regexp.quoteMeta]
  | append_singleton cs c _ =>
    have hc : c ≠ '\\' := by rintro rfl; exact h (by simp)
    simp only [Regexp.quoteMeta, List.flatMap_append, List.flatMap_singleton]
    split_ifs <;> simpa using hc

variable {b : List Char} {s p : GoString}

theorem getLast?_append_ne {u : List Char} (hu : u.getLast? ≠ some '\\')
    (hb : b.getLast? ≠ some '\\') : (u ++ b).getLast? ≠ some '\\' := by
  rw [List.getLast?_append]
  cases h : b.getLast? with
  | none => simpa using hu
  | some c => rw [h] at hb; simpa using hb

theorem eq_of_ofNat_eq_backslash {n : Nat} (h : Char.ofNat n = '\\') : n = backslash.toNat := by
  have hn : (Char.ofNat n).toNat = 0x5C := by rw [h]; rfl
  unfold Char.ofNat at hn
  split_ifs at hn with hv
  · exact hn
  · cases hn

theorem byteText_getLast? {c : UInt8} (h : c ≠ backslash) :
    (byteText c).getLast? ≠ some '\\' := by
  refine quoteMeta_getLast? (fun hm => ?_)
  rw [List.mem_singleton] at hm
  exact h (UInt8.toNat_inj.mp (eq_of_ofNat_eq_backslash hm.symm))

theorem textFrom_getLast? (hs : backslash ∉ s) (skip : Nat)
    (h : textFrom skip s = some b) : b.getLast? ≠ some '\\' := by
  induction s generalizing skip b with
  | nil => obtain rfl : [] = b := by simpa [textFrom] using h
           simp
  | cons c t ih =>
    have ht : backslash ∉ t := fun hm => hs (by simp [hm])
    have hc : c ≠ backslash := fun hm => hs (by simp [hm])
    -- each piece of text ends in a character other than a backslash
    have piece : ∀ {n : Nat} {u : List Char}, u.getLast? ≠ some '\\' →
        (textFrom n t).map (u ++ ·) = some b → b.getLast? ≠ some '\\' := by
      intro n u hu hm
      obtain ⟨r, hr, rfl⟩ := Option.map_eq_some_iff.mp hm
      exact getLast?_append_ne hu (ih ht n hr)
    cases skip with
    | succ skip => exact ih ht skip h
    | zero =>
      rw [textFrom] at h
      split_ifs at h
      · exact piece (by decide) h
      · exact piece (by decide) h
      · exact piece (by decide) h
      · exact piece (by decide) h
      · split at h
        · cases h
        · rename_i rs _
          exact piece (by rw [List.getLast?_concat]; decide) h
      · exact piece (by decide) h
      · exact piece (byteText_getLast? hc) h

theorem regexpCompile_below {tooLarge : List Char → Bool} {anchored : Bool}
    {body : Option (List Char)} {re : Regex Rune}
    (hb : ∀ b, body = some b → b.getLast? ≠ some '\\')
    (h : regexpCompile tooLarge anchored body = some re) : Regexp.Below re := by
  unfold regexpCompile at h
  split at h
  · cases h
  · rename_i b
    split_ifs at h
    refine Regexp.parse_below (b := (if anchored then [] else Regexp.upText) ++ b) ?_ h
    refine getLast?_append_ne ?_ (hb b rfl)
    split_ifs <;> decide

theorem quoteMeta_runes_getLast? (hs : backslash ∉ s) {rs : List Rune} (h : strictRunes s = some rs) :
    (Regexp.quoteMeta (rs.map Char.ofNat)).getLast? ≠ some '\\' := by
  refine quoteMeta_getLast? (fun hm => ?_)
  obtain ⟨r, hr, he⟩ := List.mem_map.mp hm
  rw [eq_of_ofNat_eq_backslash he] at hr
  exact hs (mem_of_runesFrom (by decide) (runesFrom_of_strict h ▸ hr))

theorem compile_below {pattern : GoString}
    (hp : backslash ∉ pattern) (rooted : Bool) : Regexp.Below (compile tooLarge pattern rooted) := by
  simp only [compile]
  split
  · rename_i re h
    exact regexpCompile_below (fun b hb => textFrom_getLast? hp 0 hb) h
  · split
    · rename_i re h
      refine regexpCompile_below (fun b hb => ?_) h
      obtain ⟨rs, hrs, rfl⟩ := Option.map_eq_some_iff.mp hb
      exact quoteMeta_runes_getLast? hp hrs
    · exact below_fail

structure Rule where
  pattern : Regex Rune
  negated : Bool
  dirOnly : Bool
  below : Regexp.Below pattern

/-- `rule.pattern.MatchString`. -/
def Rule.matchString (r : Rule) (path : GoString) : Bool := r.pattern.accepts (runes path)

structure Matcher where
  rules : List Rule

/-- A pattern after its negation mark, with slashes for backslashes. -/
def slashed (pattern : GoString) : GoString :=
  (trimPrefix pattern (lit "!")).map (fun b => if b = backslash then slash else b)

/-- A slashed pattern without its leading and trailing marks. -/
def bare (pattern : GoString) : GoString :=
  trimSuffix (trimPrefix (trimPrefix pattern (lit "./")) (lit "/")) (lit "/")

theorem mem_of_mem_trimPrefix {b : UInt8} (h : b ∈ trimPrefix s p) : b ∈ s := by
  unfold trimPrefix at h
  split_ifs at h
  · exact List.mem_of_mem_drop h
  · exact h

theorem mem_of_mem_trimSuffix {b : UInt8} (h : b ∈ trimSuffix s p) : b ∈ s := by
  unfold trimSuffix at h
  split_ifs at h
  · exact List.mem_of_mem_take h
  · exact h

theorem backslash_notMem_bare (pattern : GoString) : backslash ∉ bare (slashed pattern) := by
  intro h
  have h := mem_of_mem_trimPrefix (mem_of_mem_trimPrefix (mem_of_mem_trimSuffix h))
  obtain ⟨b, -, hb⟩ := List.mem_map.mp h
  split_ifs at hb with hc
  · exact absurd hb (by decide)
  · exact hc hb

def lineRule (raw : GoString) : Option Rule :=
  let pattern := trimSpace raw
  if pattern = [] ∨ hasPrefix pattern (lit "#") then none
  else if bare (slashed pattern) = [] then none
  else some {
    pattern := compile tooLarge (bare (slashed pattern)) (hasPrefix (slashed pattern) (lit "/"))
    negated := hasPrefix pattern (lit "!")
    dirOnly := hasSuffix (slashed pattern) (lit "/")
    below := compile_below tooLarge (backslash_notMem_bare pattern) _ }

def Matcher.add (m : Matcher) (raw : GoString) : Matcher :=
  ⟨m.rules ++ (lineRule tooLarge raw).toList⟩

/-- Whether repository-relative `path` is excluded: the last matching rule decides. -/
def Matcher.ignored (m : Matcher) (path : GoString) (isDir : Bool) : Bool :=
  let path := clean path
  if path = lit "." ∨ path = [] then false
  else m.rules.foldl (fun ignored r =>
    if r.dirOnly && !isDir && !path.contains slash then ignored
    else if r.matchString path then !r.negated
    else ignored) false

def defaultPatterns : List GoString :=
  [".git/", ".sentra/", ".ouroboros/", ".idea/", ".vscode/",
    "node_modules/", "vendor/", "target/", "dist/", "build/", "out/",
    "coverage/", "__pycache__/", ".cache/", ".pytest_cache/", ".mypy_cache/",
    ".ruff_cache/", ".next/", ".nuxt/", ".turbo/", ".nx/", ".venv/", "venv/",
    "bazel-*/", ".DS_Store", ".env", ".env.*", "*.pyc", "*.pyo", "*.log",
    "*.map"].map lit

def maxIgnoreLineBytes : Nat := 8 * 2 ^ 20

inductive IgnoreFile where
  | absent
  | unreadable
  | content (bytes : GoString)
  deriving DecidableEq

/-- The rules of an ignore file added in order; none if the file cannot be read
or has a line past the bound. -/
def Matcher.addFile (m : Matcher) : IgnoreFile → Option Matcher
  | .absent => some m
  | .unreadable => none
  | .content bytes =>
    let (lines, ok) := Scanner.scan maxIgnoreLineBytes bytes
    if ok then some (lines.foldl (Matcher.add tooLarge) m) else none

structure IgnoreFiles where
  gitignore : IgnoreFile
  dockerignore : IgnoreFile
  exclude : IgnoreFile
  deriving DecidableEq

/-- The policy of a repository; none is a load error. -/
def load (files : IgnoreFiles) : Option Matcher :=
  let base := defaultPatterns.foldl (Matcher.add tooLarge) ⟨[]⟩
  ((base.addFile tooLarge files.gitignore).bind (·.addFile tooLarge files.dockerignore)).bind
    (·.addFile tooLarge files.exclude)

end CodeMemory.Ignore
