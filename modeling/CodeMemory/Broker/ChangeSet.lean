import CodeMemory.Capability.Grant
import CodeMemory.Lib.Utf8

/-! The atomic edit set of a candidate: the shape of paths, edits and edit lists.
Contents are byte strings; `sha256` is the hexadecimal digest. -/

namespace CodeMemory.Broker

open Lib Lib.GoString Lib.Path Capability Lib.Result List

/-- An `Operation`; any other text is refused. -/
inductive Operation where
  | add
  | modify
  | delete
  | rename
  | other (text : GoString)
  deriving DecidableEq

inductive Language where
  | go
  | typescript
  | python
  | rust
  | java
  | other (text : GoString)
  deriving DecidableEq

structure Edit where
  path : GoString
  oldPath : GoString
  op : Operation
  lang : Language
  beforeDigest : Digest
  afterDigest : Digest
  newContent : GoString
  deriving DecidableEq

/-- Which check of an edit set failed; each has a text of its own. -/
inductive Invalid where
  | editCount (n : ℕ)
  | path (value : GoString)
  | segment (value : GoString)
  | controlCharacter (value : GoString)
  | carriesOldPath (op : Operation)
  | renameOldPath
  | operation (op : Operation)
  | language (lang : Language)
  | digestShape (op : Operation)
  | beforeDigest
  | afterDigest
  | deleteContent
  | contentDigest
  | duplicatePostImage (path : GoString)
  | duplicatePreImage (path : GoString)
  deriving DecidableEq

def maxEdits : ℕ := 64

def maxPathBytes : ℕ := 4096

def digestBytes (sha256 : GoString → GoString) (content : GoString) : Digest := ⟨lit "sha256", sha256 content⟩

def validatePath (value : GoString) : Except Invalid Unit :=
  if value = [] ∨ maxPathBytes < value.length ∨ validString value = false ∨ hasPrefix value [slash] ∨
      0x5C ∈ value ∨ clean value ≠ value then .error (.path value)
  else if ∃ seg ∈ value.splitOn slash, seg = [] ∨ seg = lit "." ∨ seg = lit ".." then .error (.segment value)
  else if ∃ r ∈ runes value, r < 0x20 ∨ r = 0x7F then .error (.controlCharacter value)
  else .ok ()

def validLanguage : Language → Bool
  | .other _ => false
  | _ => true

/-- The check of the capability package, written a second time in the source. -/
def validDigest (d : Digest) : Bool := validPolicyDigest d

def validateOldPath (e : Edit) : Except Invalid Unit :=
  match e.op with
  | .add | .modify | .delete => if e.oldPath ≠ [] then .error (.carriesOldPath e.op) else .ok ()
  | .rename => if e.oldPath = [] ∨ e.oldPath = e.path then .error .renameOldPath else validatePath e.oldPath
  | .other text => .error (.operation (.other text))

def hasBefore (e : Edit) : Bool := e.beforeDigest.hex ≠ []

def hasAfter (e : Edit) : Bool := e.afterDigest.hex ≠ []

/-- Which of the two digests an operation carries. -/
def digestShape (e : Edit) : Bool :=
  match e.op with
  | .add => !hasBefore e && hasAfter e
  | .delete => hasBefore e && !hasAfter e
  | .modify | .rename => hasBefore e && hasAfter e
  | .other _ => true

def validateContent (sha256 : GoString → GoString) (e : Edit) : Except Invalid Unit :=
  if e.op = .delete then
    if e.newContent ≠ [] then .error .deleteContent else .ok ()
  else if digestBytes sha256 e.newContent ≠ e.afterDigest then .error .contentDigest
  else .ok ()

def validateEdit (sha256 : GoString → GoString) (e : Edit) : Except Invalid Unit := do
  validatePath e.path
  validateOldPath e
  if ¬ validLanguage e.lang then .error (.language e.lang)
  else if ¬ digestShape e then .error (.digestShape e.op)
  else if hasBefore e ∧ ¬ validDigest e.beforeDigest then .error .beforeDigest
  else if hasAfter e ∧ ¬ validDigest e.afterDigest then .error .afterDigest
  else validateContent sha256 e

def preImage (e : Edit) : GoString := if e.op = .rename then e.oldPath else e.path

/-- The loop over the edits, with the post-images and the pre-images seen before. -/
def validateFrom (sha256 : GoString → GoString) :
    List Edit → List GoString → List GoString → Except Invalid Unit
  | [], _, _ => .ok ()
  | e :: rest, post, pre => do
    validateEdit sha256 e
    if e.path ∈ post then .error (.duplicatePostImage e.path)
    else if e.op = .add then validateFrom sha256 rest (e.path :: post) pre
    else if preImage e ∈ pre then .error (.duplicatePreImage (preImage e))
    else validateFrom sha256 rest (e.path :: post) (preImage e :: pre)

def validate (sha256 : GoString → GoString) (edits : List Edit) : Except Invalid Unit :=
  if edits = [] ∨ maxEdits < edits.length then .error (.editCount edits.length)
  else validateFrom sha256 edits [] []

def elems (path : GoString) : Rel := path.splitOn slash

theorem join_elems (path : GoString) : join (elems path) = path := intercalate_splitOn slash

/-- An accepted path is a list of names without control characters. -/
theorem validatePath_eq_ok {value : GoString} (h : validatePath value = .ok ()) :
    (∀ c ∈ elems value, ValidName c) ∧ validString value = true ∧ ∀ r ∈ runes value, ¬ (r < 0x20 ∨ r = 0x7F) := by
  simp only [validatePath, guard_eq_ok_iff, not_or, not_exists, not_and, Bool.not_eq_false] at h
  obtain ⟨⟨-, -, hvalid, -, -, -⟩, hseg, hrune, -⟩ := h
  refine ⟨fun c hc => ?_, hvalid, fun r hr => ?_⟩
  · obtain ⟨hnil, hdot, hdots⟩ := hseg c hc
    exact ⟨hnil, notMem_of_mem_splitOn hc, hdot, hdots⟩
  · exact not_or.mpr (hrune r hr)

variable {sha256 : GoString → GoString}

theorem validateEdit_eq_ok {e : Edit} (h : validateEdit sha256 e = .ok ()) :
    validatePath e.path = .ok () ∧ validateOldPath e = .ok () ∧ digestShape e = true ∧
      validateContent sha256 e = .ok () := by
  simp only [validateEdit, bind_eq_ok_iff, guard_eq_ok_iff, not_not] at h
  obtain ⟨_, hpath, _, hold, -, hshape, -, -, hcont⟩ := h
  exact ⟨hpath, hold, hshape, hcont⟩

end CodeMemory.Broker
