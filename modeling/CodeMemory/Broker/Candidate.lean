import CodeMemory.Broker.Effects
import CodeMemory.Lib.Disk

/-! Edits of a candidate worktree. `candidate.Path` is the location of a directory; a
repository path that was accepted is the list of its elements below it. Every access
notes the location the kernel reached. -/

namespace CodeMemory.Broker

open Lib Lib.GoString Lib.Path Capability List

inductive CandidateError where
  | invalidInput
  | git
  | base
  | apply
  | denied (reason : Reason)
  | conflict
  | limit
  deriving DecidableEq

abbrev Action (β : Type) := Command (Disk GoString) CandidateError β

section

variable (root : Loc)

def candidatePath (path : GoString) : Loc := root ++ elems path

/-- The loop over the segments; the call after the loop looks at the last of them again. -/
def lstatFrom : Loc → List GoString → Disk.Call GoString (FsNode GoString)
  | current, [] => Disk.lstat current
  | current, segment :: rest => do
    match ← Disk.lstat (current ++ [segment]) with
    | .link _ => throw .other
    | .file _ => if rest ≠ [] then throw .other else lstatFrom (current ++ [segment]) rest
    | .dir => lstatFrom (current ++ [segment]) rest

def lstatNoSymlink (path : GoString) : Disk.Call GoString (FsNode GoString) := lstatFrom root (elems path)

def readCandidateFile (path : GoString) (maxBytes : Nat) : Action GoString := do
  match ← (lstatNoSymlink root path).orElse .apply with
  | .file _ => do
    let content ← (Disk.readFile (candidatePath root path)).orElse .apply
    if maxBytes < content.length then throw .apply else pure content
  | _ => throw .apply

/-- The check of the directory above a path with more than one segment: a missing one is made later. -/
def checkParent (segments : List GoString) : Action PUnit :=
  if 1 < segments.length then do
    match ← (lstatNoSymlink root (join segments.dropLast)).attempt with
    | .error .other => throw .apply
    | _ => pure ⟨⟩
  else pure ⟨⟩

def writeCandidateFile (path content : GoString) (maxBytes : Nat) : Action PUnit :=
  if maxBytes < content.length then throw .apply
  else do
    checkParent root (elems path)
    (Disk.mkdirAll (candidatePath root path).dropLast.reverse).orElse .apply
    (Disk.writeFile (candidatePath root path) content).orElse .apply

def requireAbsent (path : GoString) : Action PUnit := do
  match ← (lstatNoSymlink root path).attempt with
  | .error .notExist => pure ⟨⟩
  | _ => throw .apply

end

def verifyPreimage (sha256 : GoString → GoString) (root : Loc) (path : GoString) (before : Digest) (maxBytes : Nat) :
    Action PUnit := do
  let content ← readCandidateFile root path maxBytes
  if digestBytes sha256 content ≠ before then throw .apply else pure ⟨⟩

def applyOne (sha256 : GoString → GoString) (root : Loc) (maxBytes : Nat) (e : Edit) : Action PUnit :=
  match e.op with
  | .add => do
    requireAbsent root e.path
    writeCandidateFile root e.path e.newContent maxBytes
  | .modify => do
    verifyPreimage sha256 root e.path e.beforeDigest maxBytes
    writeCandidateFile root e.path e.newContent maxBytes
  | .delete => do
    verifyPreimage sha256 root e.path e.beforeDigest maxBytes
    (Disk.remove (candidatePath root e.path)).orElse .apply
  | .rename => do
    verifyPreimage sha256 root e.oldPath e.beforeDigest maxBytes
    requireAbsent root e.path
    (Disk.mkdirAll (candidatePath root e.path).dropLast.reverse).orElse .apply
    (Disk.rename (candidatePath root e.oldPath) (candidatePath root e.path)).orElse .apply
    writeCandidateFile root e.path e.newContent maxBytes
  | .other _ => throw .apply

open Command Disk FileSystem

theorem elems_ne_nil (path : GoString) : elems path ≠ [] := splitOn_ne_nil slash path

section Files

variable {disk : Disk GoString} {root current : Loc} {segs : List GoString} {path content : GoString} {maxBytes : Nat}

section

variable (hd : disk.fs.isDir current = true)
include hd

theorem clear_cons_none {c : GoString} (h : disk.fs.entry (current ++ [c]) = none)
    (rest : List GoString) : disk.fs.Clear current (c :: rest) ∧ disk.fs.entry (current ++ c :: rest) = none := by
  have hbelow : ∀ q, disk.fs.entry (current ++ c :: q) = none := by
    intro q
    by_cases hq : q = []
    · rw [hq, h]
    · rw [← Option.not_isSome_iff_eq_none, Option.isSome_iff_exists]
      rintro ⟨e, he⟩
      have happ : current ++ c :: q = current ++ [c] ++ q := by simp
      rw [happ] at he
      rw [isDir_iff.mp (entry_of_append he hq)] at h
      cases h
  refine ⟨fun p hp => ?_, hbelow rest⟩
  cases p with
  | nil => exact .inl (by rw [append_nil]; exact isDir_iff.mp hd)
  | cons c' q =>
    obtain ⟨rfl, -⟩ := cons_prefix_cons.mp hp
    exact .inr (hbelow q)

theorem clear_cons_dir {c : GoString} (hc : disk.fs.isDir (current ++ [c]) = true)
    {rest : List GoString} : disk.fs.Clear current (c :: rest) ↔ disk.fs.Clear (current ++ [c]) rest := by
  constructor
  · intro h p hp
    rw [append_assoc]
    exact h (c :: p) (cons_prefix_cons.mpr ⟨rfl, hp⟩)
  · intro h p hp
    cases p with
    | nil => exact .inl (by rw [append_nil]; exact isDir_iff.mp hd)
    | cons c' q =>
      obtain ⟨rfl, hq⟩ := cons_prefix_cons.mp hp
      have := h q hq
      rwa [append_assoc] at this

/-- The walk finds an object that is no link, a place where nothing is, or something in the way. -/
theorem ends_lstatFrom (hne : segs ≠ []) :
    Ends (lstatFrom current segs) (fun e t => t = disk ∧ disk.fs.entry (current ++ segs) = some e ∧ ∀ s, e ≠ .link s)
      (fun err t => t = disk ∧
        (err = .notExist → disk.fs.Clear current segs ∧ disk.fs.entry (current ++ segs) = none) ∧
        (err = .other → ¬ disk.fs.Clear current segs)) disk := by
  induction segs generalizing current with
  | nil => exact absurd rfl hne
  | cons c rest ih =>
    simp only [lstatFrom, ends_bind, ends_lstat hd]
    have hlast : ∀ e, rest = [] → disk.fs.entry (current ++ [c]) = some e → (∀ s, e ≠ .link s) →
        Ends (lstatFrom (current ++ [c]) rest)
          (fun e t => t = disk ∧ disk.fs.entry (current ++ c :: rest) = some e ∧ ∀ s, e ≠ .link s)
          (fun err t => t = disk ∧
            (err = .notExist → disk.fs.Clear current (c :: rest) ∧ disk.fs.entry (current ++ c :: rest) = none) ∧
            (err = .other → ¬ disk.fs.Clear current (c :: rest))) disk := by
      rintro e rfl he hlink
      rw [lstatFrom, ends_lstat hd]
      refine ⟨fun e' he' => ⟨rfl, he', ?_⟩, fun hnone => ?_⟩
      · rw [he] at he'
        cases he'
        exact hlink
      · rw [he] at hnone
        cases hnone
    refine ⟨fun e he => ?_, fun hnone => ⟨trivial, fun _ => clear_cons_none hd hnone rest, by simp⟩⟩
    cases e with
    | link s =>
      refine ⟨rfl, by simp, fun _ hclear => ?_⟩
      have := hclear [c] (prefix_append [c] rest)
      simp [he] at this
    | file a =>
      split_ifs with hrest
      · refine ⟨rfl, by simp, fun _ hclear => ?_⟩
        have := hclear [c] (prefix_append [c] rest)
        simp [he] at this
      · exact hlast _ (not_not.mp hrest) he (by simp)
    | dir =>
      by_cases hrest : rest = []
      · exact hlast _ hrest he (by simp)
      · have hdir := isDir_iff.mpr he
        refine (ih hdir hrest).mono ?_ ?_
        · intro e t h
          simpa using h
        · intro err t h
          rw [clear_cons_dir hd hdir]
          simpa using h

end

theorem ends_readCandidateFile (hd : disk.fs.isDir root = true) :
    Ends (readCandidateFile root path maxBytes)
      (fun content t => t = disk.note (.read (candidatePath root path)) ∧
        disk.fs.entry (candidatePath root path) = some (.file content))
      (fun _ t => t = disk ∨ t = disk.note (.read (candidatePath root path))) disk := by
  simp only [readCandidateFile, ends_bind, ends_orElse]
  refine (ends_lstatFrom hd (elems_ne_nil path)).mono ?_ (fun _ t h => .inl h.1)
  rintro e t ⟨rfl, he, -⟩
  cases e with
  | dir | link s => exact .inl rfl
  | file a =>
    simp only [ends_bind, ends_orElse, ends_readFile (show t.fs.entry (candidatePath root path) = _ from he)]
    split_ifs
    · exact .inr rfl
    · exact ⟨rfl, he⟩

/-- What a write leaves: the file, and the directories above it. -/
structure Written (root : Loc) (path content : GoString) (disk t : Disk GoString) : Prop where
  entry : ∃ mid, Deepened root (elems path).dropLast disk mid ∧ mid.fs.isDir (root ++ (elems path).dropLast) = true ∧
    t.log = mid.log ++ [.write (candidatePath root path)] ∧
    ∀ l, t.fs.entry l = if l = candidatePath root path then some (.file content) else mid.fs.entry l

theorem candidatePath_eq (root : Loc) (path : GoString) :
    ∃ c ∈ elems path, candidatePath root path = root ++ (elems path).dropLast ++ [c] := by
  obtain ⟨p, c, hp⟩ := (eq_nil_or_concat' (elems path)).resolve_left (elems_ne_nil path)
  exact ⟨c, by simp [hp], by simp [candidatePath, hp]⟩

theorem entry_candidatePath_of_deepened {mid : Disk GoString} (h : Deepened root (elems path).dropLast disk mid) :
    mid.fs.entry (candidatePath root path) = disk.fs.entry (candidatePath root path) := by
  rcases h.entry (candidatePath root path) with heq | ⟨-, -, p, -, hp, heq⟩
  · exact heq
  · have hlen := congrArg List.length (append_cancel_left heq)
    have hle := hp.length_le
    have hpos := length_pos_iff.mpr (elems_ne_nil path)
    rw [length_dropLast] at hle
    omega

section

variable (hd : disk.fs.isDir root = true)
include hd

theorem ends_mkdirAll_parent (hnames : ∀ c ∈ elems path, ValidName c)
    (hclear : disk.fs.Clear root (elems path).dropLast) :
    Ends (mkdirAll (candidatePath root path).dropLast.reverse)
      (fun _ mid => mid.fs.isDir (root ++ (elems path).dropLast) = true ∧ Deepened root (elems path).dropLast disk mid)
      (fun _ _ => False) disk := by
  have hpar : (candidatePath root path).dropLast = root ++ (elems path).dropLast :=
    dropLast_append_of_ne_nil (elems_ne_nil path)
  rw [hpar]
  exact ends_mkdirAll hd (fun c hc => hnames c (dropLast_subset _ hc)) hclear

theorem ends_checkParent (hnames : ∀ c ∈ elems path, ValidName c)
    (hclear : disk.fs.Clear root (elems path).dropLast) {Q : PUnit → Disk GoString → Prop}
    {E : CandidateError → Disk GoString → Prop} (h : Q ⟨⟩ disk) : Ends (checkParent root (elems path)) Q E disk := by
  unfold checkParent
  split_ifs with hlen
  · have hne : (elems path).dropLast ≠ [] := by
      rw [← length_pos_iff, length_dropLast]
      omega
    have helems : elems (join (elems path).dropLast) = (elems path).dropLast :=
      splitOn_join hne fun c hc => hnames c (dropLast_subset _ hc)
    simp only [ends_bind, ends_attempt, lstatNoSymlink, helems]
    refine (ends_lstatFrom hd hne).mono ?_ ?_
    · rintro e t ⟨rfl, -⟩
      exact h
    · rintro err t ⟨rfl, -, hother⟩
      cases err with
      | notExist => exact h
      | other => exact absurd hclear (hother rfl)
  · exact h

theorem ends_writeCandidateFile (hnames : ∀ c ∈ elems path, ValidName c)
    (hclear : disk.fs.Clear root (elems path).dropLast)
    (hfree : disk.fs.entry (candidatePath root path) = none ∨
      ∃ b, disk.fs.entry (candidatePath root path) = some (.file b)) :
    Ends (writeCandidateFile root path content maxBytes) (fun _ t => Written root path content disk t)
      (fun _ t => t = disk) disk := by
  unfold writeCandidateFile
  split_ifs with hsize
  · rfl
  · simp only [ends_bind, ends_orElse]
    refine ends_checkParent hd hnames hclear ?_
    refine (ends_mkdirAll_parent hd hnames hclear).mono ?_ (fun _ _ h => h.elim)
    rintro ⟨⟩ mid ⟨hmid, hdeep⟩
    obtain ⟨c, hc, hpath⟩ := candidatePath_eq root path
    rw [← entry_candidatePath_of_deepened hdeep] at hfree
    rcases hfree with hnone | ⟨b, hb⟩
    · rw [hpath] at hnone
      rw [hpath, ends_writeFile_new hmid (hnames c hc) hnone]
      refine ⟨fits_of_creatable ((creatable_iff hmid (hnames c hc)).mpr hnone) (by simp), mid, hdeep, hmid, ?_, ?_⟩
      · rw [hpath]
        rfl
      · rw [hpath]
        exact fun l => rfl
    · rw [ends_writeFile_over hb]
      exact ⟨fits_of_isFile (isFile_iff.mpr ⟨b, hb⟩) content, mid, hdeep, hmid, rfl, fun l => rfl⟩

end

end Files

/-- The access is to objects on the way to a path of the edit. -/
def Edit.Reaches (root : Loc) (e : Edit) (a : Access) : Prop :=
  ∀ l ∈ a.locs, ∃ q ∈ e.paths, ∃ p, p ≠ [] ∧ p <+: elems q ∧ l = root ++ p

def changes (l : Loc) : Access → Prop
  | .read _ => False
  | a => l ∈ a.locs

/-- What an edit does on the way to its end, and where it fails. -/
structure Edit.Worked (root : Loc) (e : Edit) (disk t : Disk GoString) (more : List Access) : Prop where
  dir : t.fs.isDir root = true
  log : t.log = disk.log ++ more
  reaches : ∀ a ∈ more, e.Reaches root a

/-- The files and links of a file system. -/
def leafAt (fs : FileSystem GoString) (l : Loc) : Option (FsNode GoString) :=
  match fs.entry l with
  | some .dir => none
  | o => o

def Edit.applyTo (root : Loc) (e : Edit) (leaves : Loc → Option (FsNode GoString)) (l : Loc) :
    Option (FsNode GoString) :=
  if l = candidatePath root e.path then
    if e.op = .delete then none else some (.file e.newContent)
  else if e.op = .rename ∧ l = candidatePath root e.oldPath then none
  else leaves l

section Edit

variable {disk t u : Disk GoString} {root : Loc} {e : Edit} {q content : GoString} {more more' : List Access}
  {rel : Rel} {sha256 : GoString → GoString} {before : Digest} {maxBytes : Nat} {b old new : GoString}

theorem Edit.Worked.refl (hd : disk.fs.isDir root = true) : e.Worked root disk disk [] := ⟨hd, by simp, by simp⟩

theorem Edit.Worked.trans (h : e.Worked root disk t more) (h' : e.Worked root t u more') :
    e.Worked root disk u (more ++ more') :=
  ⟨h'.dir, by rw [h'.log, h.log, append_assoc], forall_mem_append.mpr ⟨h.reaches, h'.reaches⟩⟩

/-- One access to the objects at paths of the edit. -/
theorem worked_access {a : Access} (hd : t.fs.isDir root = true) (hlog : t.log = disk.log ++ [a])
    (ha : ∀ l ∈ a.locs, ∃ q ∈ e.paths, l = candidatePath root q) : e.Worked root disk t [a] := by
  refine ⟨hd, hlog, fun a' ha' l hl => ?_⟩
  rw [mem_singleton.mp ha'] at hl
  obtain ⟨q, hq, rfl⟩ := ha l hl
  exact ⟨q, hq, elems q, elems_ne_nil q, prefix_rfl, rfl⟩

theorem worked_note (hd : disk.fs.isDir root = true) (hq : q ∈ e.paths) :
    e.Worked root disk (disk.note (.read (candidatePath root q))) [.read (candidatePath root q)] :=
  worked_access hd rfl (by simpa [Access.locs] using ⟨q, hq, rfl⟩)

theorem isDir_of_deepened (h : Deepened root rel disk t) {l : Loc} (hl : disk.fs.isDir l = true) :
    t.fs.isDir l = true := by
  rcases h.entry l with heq | ⟨hnone, -⟩
  · rw [isDir_iff, heq]
    exact isDir_iff.mp hl
  · rw [isDir_iff.mp hl] at hnone
    cases hnone

theorem leafAt_deepened (h : Deepened root rel disk t) (l : Loc) : leafAt t.fs l = leafAt disk.fs l := by
  unfold leafAt
  rcases h.entry l with heq | ⟨hnone, hdir, -⟩
  · rw [heq]
  · rw [hnone, hdir]

theorem worked_deepened (hd : disk.fs.isDir root = true) (hq : q ∈ e.paths)
    (h : Deepened root (elems q).dropLast disk t) : ∃ more, e.Worked root disk t more := by
  obtain ⟨made, hlog, hmade⟩ := h.log
  refine ⟨made.map .mkdir, isDir_of_deepened h hd, hlog, fun a ha l hl => ?_⟩
  obtain ⟨l', hl', rfl⟩ := mem_map.mp ha
  rw [mem_singleton.mp hl]
  obtain ⟨p, hne, hp, heq⟩ := hmade l' hl'
  exact ⟨q, hq, p, hne, hp.trans <| dropLast_prefix _, heq⟩

theorem root_ne_candidatePath (root : Loc) (q : GoString) : root ≠ candidatePath root q := by
  intro h
  have hlen := congrArg List.length h
  have hpos := length_pos_iff.mpr (elems_ne_nil q)
  simp only [candidatePath, length_append] at hlen
  omega

theorem worked_written (hd : disk.fs.isDir root = true) (hq : q ∈ e.paths) (h : Written root q content disk t) :
    ∃ more, e.Worked root disk t more ∧ .write (candidatePath root q) ∈ more := by
  obtain ⟨mid, hdeep, -, hlog, hentry⟩ := h.entry
  obtain ⟨more, hworked⟩ := worked_deepened hd hq hdeep
  refine ⟨_, hworked.trans (worked_access ?_ hlog (by simpa [Access.locs] using ⟨q, hq, rfl⟩)), by simp⟩
  rw [isDir_iff, hentry, if_neg (root_ne_candidatePath root q)]
  exact isDir_iff.mp hworked.dir

theorem leafAt_written (h : Written root q content disk t) (l : Loc) :
    leafAt t.fs l = if l = candidatePath root q then some (.file content) else leafAt disk.fs l := by
  obtain ⟨mid, hdeep, -, -, hentry⟩ := h.entry
  split_ifs with hl
  · simp [leafAt, hentry, hl]
  · rw [← leafAt_deepened hdeep l]
    simp [leafAt, hentry, hl]

/-- An edit that succeeded: its effect on the leaves, with a change noted for each of its paths. -/
structure Edit.Done (root : Loc) (e : Edit) (disk t : Disk GoString) : Prop where
  worked : ∃ more, e.Worked root disk t more ∧ ∀ q ∈ e.paths, ∃ a ∈ more, changes (candidatePath root q) a
  leaves : ∀ l, leafAt t.fs l = e.applyTo root (leafAt disk.fs) l

/-- The edit is done, or fails on its way. -/
def Edit.Applies (root : Loc) (e : Edit) (x : Action PUnit) (disk : Disk GoString) : Prop :=
  Ends x (fun _ t => e.Done root disk t) (fun _ t => ∃ more, e.Worked root disk t more) disk

/-- An edit that is done after it has worked without an effect. -/
theorem Edit.Worked.done (h : e.Worked root disk t more) (hleaves : ∀ l, leafAt t.fs l = leafAt disk.fs l)
    (hdone : e.Done root t u) : e.Done root disk u := by
  obtain ⟨more', hmore, hch⟩ := hdone.worked
  refine ⟨⟨_, h.trans hmore, fun q hq => ?_⟩, fun l => ?_⟩
  · obtain ⟨a, ha, hq⟩ := hch q hq
    exact ⟨a, mem_append_right _ ha, hq⟩
  · rw [hdone.leaves, show leafAt t.fs = leafAt disk.fs from funext hleaves]

theorem ends_requireAbsent (hd : disk.fs.isDir root = true) :
    Ends (requireAbsent root q) (fun _ t => t = disk ∧ disk.fs.Clear root (elems q).dropLast ∧
      disk.fs.entry (candidatePath root q) = none) (fun _ t => t = disk) disk := by
  simp only [requireAbsent, ends_bind, ends_attempt]
  refine (ends_lstatFrom hd (elems_ne_nil q)).mono (fun _ _ h => h.1) ?_
  rintro err t ⟨rfl, hnone, -⟩
  cases err with
  | notExist =>
    obtain ⟨hclear, hnone⟩ := hnone rfl
    exact ⟨rfl, fun p hp => hclear p (hp.trans <| dropLast_prefix _), hnone⟩
  | other => rfl

theorem ends_verifyPreimage (hd : disk.fs.isDir root = true) :
    Ends (verifyPreimage sha256 root q before maxBytes)
      (fun _ t => t = disk.note (.read (candidatePath root q)) ∧
        ∃ b, disk.fs.entry (candidatePath root q) = some (.file b) ∧ digestBytes sha256 b = before)
      (fun _ t => t = disk ∨ t = disk.note (.read (candidatePath root q))) disk := by
  simp only [verifyPreimage, ends_bind]
  refine (ends_readCandidateFile hd).mono ?_ (fun _ _ h => h)
  rintro b t ⟨rfl, hb⟩
  split_ifs with hbef
  · exact .inr rfl
  · exact ⟨rfl, b, hb, not_not.mp hbef⟩

theorem worked_of_read (hd : disk.fs.isDir root = true) (hq : q ∈ e.paths)
    (h : t = disk ∨ t = disk.note (.read (candidatePath root q))) : ∃ more, e.Worked root disk t more := by
  rcases h with rfl | rfl
  · exact ⟨[], .refl hd⟩
  · exact ⟨_, worked_note hd hq⟩

section

variable (h : disk.fs.entry (candidatePath root q) = some (.file b))
include h

theorem clear_of_file :
    disk.fs.Clear root (elems q).dropLast := by
  obtain ⟨c, -, hpath⟩ := candidatePath_eq root q
  rw [hpath, append_assoc] at h
  exact clear_of_entry h

theorem isDir_parent_of_file :
    disk.fs.isDir (root ++ (elems q).dropLast) = true := by
  obtain ⟨c, -, hpath⟩ := candidatePath_eq root q
  rw [hpath] at h
  exact entry_of_append h (by simp)

end

section

variable (hd : disk.fs.isDir root = true)
include hd

theorem done_of_written (hop : e.op = .add ∨ e.op = .modify)
    (h : Written root e.path e.newContent disk t) : e.Done root disk t := by
  have hpaths : e.paths = [e.path] := by rcases hop with hop | hop <;> simp [Edit.paths, hop]
  obtain ⟨more, hworked, hmem⟩ := worked_written hd (show e.path ∈ e.paths by simp [hpaths]) h
  refine ⟨⟨more, hworked, fun q hq => ?_⟩, fun l => ?_⟩
  · rw [hpaths, mem_singleton] at hq
    exact ⟨_, hmem, by simp [hq, changes, Access.locs]⟩
  · rw [leafAt_written h, Edit.applyTo]
    rcases hop with hop | hop <;> simp [hop]

theorem ends_applyOne_add (hnames : ∀ c ∈ elems e.path, ValidName c) (hop : e.op = .add) :
    e.Applies root (applyOne sha256 root maxBytes e) disk := by
  simp only [Edit.Applies, applyOne, hop, ends_bind]
  refine (ends_requireAbsent hd).mono ?_ ?_
  · rintro ⟨⟩ t ⟨rfl, hclear, hnone⟩
    refine (ends_writeCandidateFile hd hnames hclear (.inl hnone)).mono ?_ ?_
    · exact fun _ u hw => done_of_written hd (.inl hop) hw
    · rintro _ u rfl
      exact ⟨[], .refl hd⟩
  · rintro _ t rfl
    exact ⟨[], .refl hd⟩

theorem ends_applyOne_modify (hnames : ∀ c ∈ elems e.path, ValidName c)
    (hop : e.op = .modify) :
    e.Applies root (applyOne sha256 root maxBytes e) disk := by
  have hmem : e.path ∈ e.paths := by simp [Edit.paths, hop]
  simp only [Edit.Applies, applyOne, hop, ends_bind]
  refine (ends_verifyPreimage hd).mono ?_ (fun _ t h => worked_of_read hd hmem h)
  rintro ⟨⟩ t ⟨rfl, b, hb, -⟩
  have hnote := worked_note hd hmem
  refine (ends_writeCandidateFile hnote.dir hnames (clear_of_file hb) (.inr ⟨b, hb⟩)).mono ?_ ?_
  · exact fun _ u hw => hnote.done (fun _ => rfl) (done_of_written hnote.dir (.inr hop) hw)
  · rintro _ u rfl
    exact ⟨_, hnote⟩

end

theorem leafAt_put_none {a : Access} {loc : Loc} (h : disk.fs.Fits loc none) (l : Loc) :
    leafAt (disk.put a loc none h).fs l = if l = loc then none else leafAt disk.fs l := by
  unfold leafAt
  simp only [Disk.put, entry_replace]
  split_ifs <;> rfl

theorem ends_remove_file {Q : PUnit → Disk GoString → Prop} {E : FsError → Disk GoString → Prop}
    (h : disk.fs.entry (candidatePath root q) = some (.file b)) :
    Ends (remove (candidatePath root q)) Q E disk ↔
      ∃ hfits, Q ⟨⟩ (disk.put (.remove (candidatePath root q)) (candidatePath root q) none hfits) := by
  have hdir := isDir_parent_of_file h
  obtain ⟨c, -, hpath⟩ := candidatePath_eq root q
  rw [hpath] at h ⊢
  exact ends_remove hdir h

theorem ends_applyOne_delete (hd : disk.fs.isDir root = true) (hop : e.op = .delete) :
    e.Applies root (applyOne sha256 root maxBytes e) disk := by
  have hpaths : e.paths = [e.path] := by simp [Edit.paths, hop]
  have hmem : e.path ∈ e.paths := by simp [hpaths]
  simp only [Edit.Applies, applyOne, hop, ends_bind, ends_orElse]
  refine (ends_verifyPreimage hd).mono ?_ (fun _ t h => worked_of_read hd hmem h)
  rintro ⟨⟩ t ⟨rfl, b, hb, -⟩
  have hb' : (disk.note (.read (candidatePath root e.path))).fs.entry (candidatePath root e.path) = some (.file b) := hb
  have hfits : (disk.note (.read (candidatePath root e.path))).fs.Fits (candidatePath root e.path) none :=
    fits_of_isLeaf (isLeaf_iff.mpr ⟨.file b, hb', by simp⟩) (by simp)
  rw [ends_remove_file hb']
  refine ⟨hfits, ⟨_, (worked_note hd hmem).trans (worked_access ?_ rfl ?_), ?_⟩, fun l => ?_⟩
  · rw [isDir_iff]
    exact (if_neg (root_ne_candidatePath root e.path)).trans (isDir_iff.mp hd)
  · simpa [Access.locs] using ⟨_, hmem, rfl⟩
  · intro q hq
    rw [hpaths, mem_singleton] at hq
    exact ⟨_, .tail _ (.head _), by simp [hq, changes, Access.locs]⟩
  · rw [leafAt_put_none, Edit.applyTo]
    simp only [hop, reduceCtorEq, false_and, if_true, if_false]
    rfl

theorem clear_of_isDir (h : disk.fs.isDir (root ++ rel) = true) : disk.fs.Clear root rel := by
  rintro p ⟨r, rfl⟩
  left
  by_cases hr : r = []
  · rw [hr, append_nil] at h
    exact isDir_iff.mp h
  · rw [← append_assoc] at h
    exact isDir_iff.mp (entry_of_append (isDir_iff.mp h) hr)

/-- The file at the old path is moved to the new one, where nothing is, after its directories were made. -/
structure Moved (root : Loc) (old new : GoString) (b : GoString) (disk t : Disk GoString) : Prop where
  log : t.log = disk.log ++ [.rename (candidatePath root old) (candidatePath root new)]
  entry : ∀ l, t.fs.entry l = if l = candidatePath root new then some (.file b)
    else if l = candidatePath root old then none else disk.fs.entry l

theorem ends_rename_file (hold : disk.fs.entry (candidatePath root old) = some (.file b))
    (hdir : disk.fs.isDir (root ++ (elems new).dropLast) = true) (hnames : ∀ c ∈ elems new, ValidName c)
    (hnew : disk.fs.entry (candidatePath root new) = none) :
    Ends (rename (candidatePath root old) (candidatePath root new)) (fun _ t => Moved root old new b disk t)
      (fun _ _ => False) disk := by
  have hpar := isDir_parent_of_file hold
  obtain ⟨c, -, hpath⟩ := candidatePath_eq root old
  obtain ⟨c', hc', hpath'⟩ := candidatePath_eq root new
  rw [hpath] at hold
  rw [hpath'] at hnew
  rw [hpath, hpath']
  refine (ends_rename hpar hold hdir (hnames c' hc') hnew).mono ?_ (fun _ _ h => h)
  rintro ⟨⟩ t ⟨hlog, hentry⟩
  exact ⟨by rw [hpath, hpath']; exact hlog, by rw [hpath, hpath']; exact hentry⟩

/-- The directory of the new path is still one after the move. -/
theorem Moved.isDir (h : Moved root old new b disk t)
    (hold : disk.fs.entry (candidatePath root old) = some (.file b)) {l : Loc} (hl : disk.fs.isDir l = true)
    (hne : l ≠ candidatePath root new) : t.fs.isDir l = true := by
  have hne' : l ≠ candidatePath root old := by
    rintro rfl
    rw [isDir_iff, hold] at hl
    cases hl
  rw [isDir_iff, h.entry, if_neg hne, if_neg hne']
  exact isDir_iff.mp hl

theorem worked_moved (hd : disk.fs.isDir root = true)
    (hold : disk.fs.entry (candidatePath root e.oldPath) = some (.file b)) (hop : e.op = .rename)
    (h : Moved root e.oldPath e.path b disk t) :
    e.Worked root disk t [.rename (candidatePath root e.oldPath) (candidatePath root e.path)] := by
  refine worked_access (h.isDir hold hd (root_ne_candidatePath root e.path)) h.log fun l hl => ?_
  rcases mem_pair.mp hl with rfl | rfl
  · exact ⟨_, by simp [Edit.paths, hop], rfl⟩
  · exact ⟨_, by simp [Edit.paths, hop], rfl⟩

theorem leafAt_moved (h : Moved root old new b disk t) (l : Loc) :
    leafAt t.fs l = if l = candidatePath root new then some (.file b) else if l = candidatePath root old then none
      else leafAt disk.fs l := by
  unfold leafAt
  rw [h.entry]
  split_ifs <;> rfl

section

variable (hd : disk.fs.isDir root = true)
include hd

/-- The rename proper: the state after the two checks is `disk`. -/
theorem ends_move (hnames : ∀ c ∈ elems e.path, ValidName c)
    (hold : disk.fs.entry (candidatePath root e.oldPath) = some (.file b))
    (hclear : disk.fs.Clear root (elems e.path).dropLast) (hnew : disk.fs.entry (candidatePath root e.path) = none)
    (hop : e.op = .rename) :
    e.Applies root (do
      (Disk.mkdirAll (candidatePath root e.path).dropLast.reverse).orElse .apply
      (Disk.rename (candidatePath root e.oldPath) (candidatePath root e.path)).orElse .apply
      writeCandidateFile root e.path e.newContent maxBytes) disk := by
  have hmem : e.path ∈ e.paths := by simp [Edit.paths, hop]
  simp only [Edit.Applies, ends_bind, ends_orElse]
  refine (ends_mkdirAll_parent hd hnames hclear).mono ?_ (fun _ _ h => h.elim)
  rintro ⟨⟩ mid ⟨hmid, hdeep⟩
  obtain ⟨made, hmade⟩ := worked_deepened hd hmem hdeep
  have hold' : mid.fs.entry (candidatePath root e.oldPath) = some (.file b) := by
    rcases hdeep.entry (candidatePath root e.oldPath) with heq | ⟨hnone, -⟩
    · rw [heq, hold]
    · rw [hold] at hnone
      cases hnone
  rw [← entry_candidatePath_of_deepened hdeep] at hnew
  refine (ends_rename_file hold' hmid hnames hnew).mono ?_ (fun _ _ h => h.elim)
  rintro ⟨⟩ t hmoved
  have hworked := hmade.trans (worked_moved hmade.dir hold' hop hmoved)
  have hne : root ++ (elems e.path).dropLast ≠ candidatePath root e.path := by
    obtain ⟨c, -, hpath⟩ := candidatePath_eq root e.path
    rw [hpath]
    exact fun heq => by simpa using congrArg List.length heq
  have hclear' : t.fs.Clear root (elems e.path).dropLast := clear_of_isDir (hmoved.isDir hold' hmid hne)
  have hfile : t.fs.entry (candidatePath root e.path) = some (.file b) := by rw [hmoved.entry, if_pos rfl]
  refine (ends_writeCandidateFile hworked.dir hnames hclear' (.inr ⟨b, hfile⟩)).mono ?_ ?_
  · rintro ⟨⟩ u hw
    obtain ⟨more, hmore, hwrite⟩ := worked_written hworked.dir hmem hw
    refine ⟨⟨_, hworked.trans hmore, fun q hq => ?_⟩, fun l => ?_⟩
    · refine ⟨_, mem_append_left _ (mem_append_right _ (.head _)), ?_⟩
      simp only [Edit.paths, hop, if_true, mem_cons, not_mem_nil, or_false] at hq
      rcases hq with rfl | rfl <;> simp [changes, Access.locs]
    · rw [leafAt_written hw, leafAt_moved hmoved, leafAt_deepened hdeep, Edit.applyTo]
      simp only [hop, reduceCtorEq, if_false, true_and]
      split_ifs <;> rfl
  · rintro _ u rfl
    exact ⟨_, hworked⟩

theorem ends_applyOne_rename (hnames : ∀ c ∈ elems e.path, ValidName c)
    (hop : e.op = .rename) :
    e.Applies root (applyOne sha256 root maxBytes e) disk := by
  have hmem : e.oldPath ∈ e.paths := by simp [Edit.paths, hop]
  have hnote := worked_note hd hmem
  simp only [Edit.Applies, applyOne, hop]
  rw [ends_bind]
  refine (ends_verifyPreimage hd).mono ?_ (fun _ t h => worked_of_read hd hmem h)
  rintro ⟨⟩ t ⟨rfl, b, hb, -⟩
  rw [ends_bind]
  refine (ends_requireAbsent hnote.dir).mono ?_ ?_
  · rintro ⟨⟩ t ⟨rfl, hclear, hnone⟩
    refine (ends_move hnote.dir hnames hb hclear hnone hop).mono ?_ ?_
    · exact fun _ u hu => hnote.done (fun _ => rfl) hu
    · rintro _ u ⟨more, hu⟩
      exact ⟨_, hnote.trans hu⟩
  · rintro _ t rfl
    exact ⟨_, hnote⟩

/-- An accepted edit has its effect, or fails having touched only what is on the way to its paths. -/
theorem ends_applyOne (hvalid : validateEdit sha256 e = .ok ()) :
    e.Applies root (applyOne sha256 root maxBytes e) disk := by
  have hnames := (validatePath_eq_ok (validateEdit_eq_ok hvalid).1).1
  cases hop : e.op with
  | add => exact ends_applyOne_add hd hnames hop
  | modify => exact ends_applyOne_modify hd hnames hop
  | delete => exact ends_applyOne_delete hd hop
  | rename => exact ends_applyOne_rename hd hnames hop
  | other text =>
    simp only [applyOne, hop]
    exact ⟨[], .refl hd⟩

end

end Edit

/-- A call of the edit code: an edit, or the read of a file (of a leaf, or of the check after the edits). -/
inductive EditCall where
  | edit (e : Edit)
  | read (path : GoString)

section

variable (sha256 : GoString → GoString)

def EditCall.Accepted : EditCall → Prop
  | .edit e => validateEdit sha256 e = .ok ()
  | .read path => validatePath path = .ok ()

def EditCall.perform (root : Loc) (maxBytes : Nat) : EditCall → Action PUnit
  | .edit e => applyOne sha256 root maxBytes e
  | .read path => do
    let _ ← readCandidateFile root path maxBytes
    pure ⟨⟩

def performAll (root : Loc) (maxBytes : Nat) (calls : List EditCall)
    (disk : Disk GoString) : Disk GoString :=
  calls.foldl (fun disk c => ((c.perform sha256 root maxBytes).run.run disk).2) disk

end

/-- The candidate is there and all accesses were to objects below it. -/
structure Confined (root : Loc) (disk : Disk GoString) : Prop where
  dir : disk.fs.isDir root = true
  log : ∀ a ∈ disk.log, ∀ l ∈ a.locs, ∃ p, p ≠ [] ∧ l = root ++ p

section Confined

variable {disk t : Disk GoString} {root : Loc} {sha256 : GoString → GoString} {maxBytes : Nat}

section

variable (h : Confined root disk)
include h

theorem Confined.worked {e : Edit} {more : List Access} (hw : e.Worked root disk t more) :
    Confined root t := by
  refine ⟨hw.dir, ?_⟩
  rw [hw.log]
  refine forall_mem_append.mpr ⟨h.log, fun a ha l hl => ?_⟩
  obtain ⟨q, -, p, hne, -, heq⟩ := hw.reaches a ha l hl
  exact ⟨p, hne, heq⟩

theorem Confined.note {path : GoString} :
    Confined root (disk.note (.read (candidatePath root path))) := by
  refine ⟨h.dir, forall_mem_append.mpr ⟨h.log, fun a ha l hl => ?_⟩⟩
  rw [mem_singleton.mp ha] at hl
  exact ⟨elems path, elems_ne_nil path, mem_singleton.mp hl⟩

theorem Confined.perform {c : EditCall} (hc : c.Accepted sha256) :
    Confined root ((c.perform sha256 root maxBytes).run.run disk).2 := by
  refine Command.Ends.state (P := Confined root) ?_
  cases c with
  | edit e =>
    refine (ends_applyOne h.dir hc).mono ?_ ?_
    · rintro ⟨⟩ t hdone
      obtain ⟨more, hworked, -⟩ := hdone.worked
      exact h.worked hworked
    · rintro _ t ⟨more, hworked⟩
      exact h.worked hworked
  | read path =>
    rw [EditCall.perform, ends_bind]
    refine (ends_readCandidateFile h.dir).mono ?_ ?_
    · rintro content t ⟨rfl, -⟩
      exact h.note
    · rintro _ t (rfl | rfl)
      · exact h
      · exact h.note

end

end Confined

/-- Whatever links the worktree holds, every object that accepted edits read, create, write, move or remove, one after
the other and failing or not, lies strictly below the candidate. -/
theorem candidate_edits_stay_beneath (sha256 : GoString → GoString) (fs : FileSystem GoString) (root : Loc)
    (hroot : fs.isDir root = true) (maxBytes : Nat) (calls : List EditCall) (hcalls : ∀ c ∈ calls, c.Accepted sha256) :
    ∀ a ∈ (performAll sha256 root maxBytes calls ⟨fs, []⟩).log, ∀ l ∈ a.locs, ∃ p, p ≠ [] ∧ l = root ++ p := by
  have h : Confined root (performAll sha256 root maxBytes calls ⟨fs, []⟩) := by
    refine List.foldlRecOn calls _ ⟨hroot, by simp⟩ fun disk hdisk c hc => ?_
    exact hdisk.perform (hcalls c hc)
  exact h.log

def zeroDigest : Digest := ⟨lit "sha256", List.replicate 64 0x30⟩

def additionOf (path : GoString) : Edit := ⟨path, [], .add, .go, ⟨[], []⟩, zeroDigest, lit "x"⟩

def moveOf (source target : GoString) : Edit := ⟨target, source, .rename, .go, zeroDigest, zeroDigest, lit "y"⟩

/-- The directory `c` with a file `a` and a link `l` to the directory `o` outside. -/
def linkedWorktree : FileSystem GoString :=
  .ofList [([lit "c"], .dir), ([lit "o"], .dir), ([lit "c", lit "a"], .file (lit "1")),
    ([lit "c", lit "l"], .link (lit "/o"))] (by decide +kernel)

/-- The edit through the link fails; the file moves to a new directory. -/
theorem candidate_edits_stay_beneath_linked :
    let calls := [EditCall.edit (additionOf (lit "l/x")), .edit (moveOf (lit "a") (lit "d/b")), .read (lit "d/b")]
    let log := (performAll (fun _ => List.replicate 64 0x30) [lit "c"] 10 calls ⟨linkedWorktree, []⟩).log
    log.length = 5 ∧ ∀ a ∈ log, ∀ l ∈ a.locs, ∃ p, p ≠ [] ∧ l = [lit "c"] ++ p := by
  refine ⟨by decide +kernel, candidate_edits_stay_beneath _ linkedWorktree _ (by decide +kernel) _ _ ?_⟩
  intro c hc
  rcases mem_cons.mp hc with rfl | hc
  · unfold EditCall.Accepted
    decide +kernel
  · rcases mem_pair.mp hc with rfl | rfl <;>
    · unfold EditCall.Accepted
      decide +kernel

end CodeMemory.Broker
