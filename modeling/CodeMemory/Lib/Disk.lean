import CodeMemory.Lib.Command
import CodeMemory.Lib.FileSystem

/-! A file system under system calls. Every call resolves its path as the kernel does
and notes the location it then reads or changes. -/

namespace CodeMemory.Lib

open GoString Lib.Path List

namespace FileSystem

variable {α : Type}

/-- What may stand at a location: the directory above is there, the name is an ordinary one, no link is empty, and
nothing lies below anything but a directory. -/
structure Fits (fs : FileSystem α) (loc : Loc) (o : Option (FsNode α)) : Prop where
  parent : fs.isDir loc.dropLast = true
  name : ∃ c, loc.getLast? = some c ∧ ValidName c
  target : ∀ t, o = some (.link t) → t ≠ []
  childless : o ≠ some .dir → ∀ c, fs.entry (loc ++ [c]) = none

def replace (fs : FileSystem α) (loc : Loc) (o : Option (FsNode α)) (h : fs.Fits loc o) : FileSystem α where
  entry := fun l => if l = loc then o else fs.entry l
  root := by
    obtain ⟨c, hc, -⟩ := h.name
    have hne : ([] : Loc) ≠ loc := by
      rintro rfl
      cases hc
    rw [if_neg hne, fs.root]
  parent := by
    intro p c e he
    split_ifs at he with hloc
    · subst hloc
      have hne : p ≠ p ++ [c] := fun heq => by simpa using congrArg List.length heq
      rw [if_neg hne]
      simpa using isDir_iff.mp h.parent
    · split_ifs with hp
      · subst hp
        by_contra ho
        rw [h.childless ho c] at he
        cases he
      · exact fs.parent p c e he
  valid := by
    intro p c e he
    split_ifs at he with hloc
    · obtain ⟨c', hc', hvalid⟩ := h.name
      rw [← hloc, List.getLast?_concat, Option.some_inj] at hc'
      exact hc' ▸ hvalid
    · exact fs.valid p c e he
  target := by
    intro p t he
    split_ifs at he with hloc
    · exact h.target t he
    · exact fs.target p t he

variable {fs : FileSystem α} {loc : Loc} {o : Option (FsNode α)} {e : FsNode α} {rel : Rel} {c : GoString}

theorem entry_replace (h : fs.Fits loc o) (l : Loc) :
    (fs.replace loc o h).entry l = if l = loc then o else fs.entry l := rfl

theorem entry_child_eq_none (h : fs.entry loc ≠ some .dir) (c : GoString) : fs.entry (loc ++ [c]) = none := by
  cases he : fs.entry (loc ++ [c]) with
  | none => rfl
  | some e => exact absurd (fs.parent loc c e he) h

def creatable (fs : FileSystem α) (loc : Loc) : Bool :=
  fs.isDir loc.dropLast && (loc.getLast?.any fun c => decide (ValidName c)) && (fs.entry loc).isNone

theorem fits_of_creatable (h : fs.creatable loc = true) (ht : ∀ t, e = .link t → t ≠ []) : fs.Fits loc (some e) := by
  simp only [creatable, Bool.and_eq_true, Option.isNone_iff_eq_none] at h
  obtain ⟨⟨hpar, hname⟩, hnone⟩ := h
  obtain ⟨c, hc, hvalid⟩ := (Option.any_eq_true _ _).mp hname
  refine ⟨hpar, ⟨c, hc, of_decide_eq_true hvalid⟩, fun t h => ht t (Option.some.inj h), fun _ c => ?_⟩
  exact entry_child_eq_none (by rw [hnone]; exact fun h => by cases h) c

def isLeaf (fs : FileSystem α) (loc : Loc) : Bool :=
  match fs.entry loc with
  | none | some .dir => false
  | some _ => true

theorem isLeaf_iff : fs.isLeaf loc = true ↔ ∃ e, fs.entry loc = some e ∧ e ≠ .dir := by
  unfold isLeaf
  split <;> simp_all

theorem fits_of_isLeaf (h : fs.isLeaf loc = true) (ht : ∀ t, o = some (.link t) → t ≠ []) : fs.Fits loc o := by
  obtain ⟨e, he, hdir⟩ := isLeaf_iff.mp h
  have hno : fs.entry loc ≠ some .dir := by
    rw [he]
    exact fun heq => hdir (Option.some.inj heq)
  induction loc using List.reverseRecOn with
  | nil => exact absurd fs.root hno
  | append_singleton p c =>
    refine ⟨?_, ⟨c, by simp, fs.valid p c e he⟩, ht, fun _ => entry_child_eq_none hno⟩
    rw [dropLast_concat]
    exact isDir_iff.mpr (fs.parent p c e he)

def isFile (fs : FileSystem α) (loc : Loc) : Bool :=
  match fs.entry loc with
  | some (.file _) => true
  | _ => false

theorem isFile_iff : fs.isFile loc = true ↔ ∃ a, fs.entry loc = some (.file a) := by
  unfold isFile
  split <;> simp_all

theorem fits_of_isFile (h : fs.isFile loc = true) (a : α) : fs.Fits loc (some (.file a)) := by
  obtain ⟨b, hb⟩ := isFile_iff.mp h
  exact fits_of_isLeaf (isLeaf_iff.mpr ⟨_, hb, fun h => by cases h⟩) fun t h => by cases h

/-- The file system without an object and all that lies below it. -/
def without (fs : FileSystem α) (loc : Loc) (h : loc ≠ []) : FileSystem α where
  entry := fun l => if loc <+: l then none else fs.entry l
  root := by
    rw [if_neg (fun hp => h (List.prefix_nil.mp hp)), fs.root]
  parent := by
    intro p c e he
    split_ifs at he with hp
    rw [if_neg (fun hpre => hp (hpre.trans (List.prefix_append p [c])))]
    exact fs.parent p c e he
  valid := by
    intro p c e he
    split_ifs at he
    exact fs.valid p c e he
  target := by
    intro p t he
    split_ifs at he
    exact fs.target p t he

/-- Below `loc` the path meets only directories, as far as it is there. -/
def Clear (fs : FileSystem α) (loc : Loc) (rel : Rel) : Prop :=
  ∀ p, p <+: rel → fs.entry (loc ++ p) = some .dir ∨ fs.entry (loc ++ p) = none

theorem Clear.of_concat (h : fs.Clear loc (rel ++ [c])) : fs.Clear loc rel :=
  fun p hp => h p (hp.trans (prefix_append _ _))

theorem clear_of_entry (h : fs.entry (loc ++ (rel ++ [c])) = some e) : fs.Clear loc rel := by
  rintro p ⟨q, rfl⟩
  left
  rw [append_assoc, ← append_assoc] at h
  exact isDir_iff.mp (entry_of_append h (by simp))

/-- A clear path to nothing is found not to exist. -/
theorem scan_clear (hd : fs.isDir loc = true) (hnames : ∀ c ∈ rel, ValidName c) (hclear : fs.Clear loc rel)
    (hnone : fs.entry (loc ++ rel) = none) :
    fs.scan loc rel = .done .noEntry ∨ fs.scan loc rel = .done (.missing (loc ++ rel)) := by
  induction rel generalizing loc with
  | nil =>
    rw [append_nil, isDir_iff.mp hd] at hnone
    cases hnone
  | cons c rest ih =>
    rw [forall_mem_cons] at hnames
    rw [scan, component_valid hd hnames.1]
    rcases hclear [c] (prefix_append [c] rest) with hc | hc
    · rw [hc]
      have happ : loc ++ c :: rest = loc ++ [c] ++ rest := by simp
      rw [happ] at hnone ⊢
      refine ih (isDir_iff.mpr hc) hnames.2 (fun p hp => ?_) hnone
      rw [append_assoc]
      exact hclear (c :: p) (cons_prefix_cons.mpr ⟨rfl, hp⟩)
    · rw [hc]
      by_cases hrest : rest = []
      · subst hrest
        exact .inr rfl
      · exact .inl (by simp [hrest])

end FileSystem

inductive Access where
  | read (loc : Loc)
  | write (loc : Loc)
  | mkdir (loc : Loc)
  | remove (loc : Loc)
  | rename (source target : Loc)
  deriving DecidableEq

def Access.locs : Access → List Loc
  | .read loc | .write loc | .mkdir loc | .remove loc => [loc]
  | .rename source target => [source, target]

/-- A file system and what was done to it, oldest first. -/
structure Disk (α : Type) where
  fs : FileSystem α
  log : List Access

inductive FsError where
  | notExist
  | other
  deriving DecidableEq

namespace Disk

variable {α : Type}

def note (disk : Disk α) (a : Access) : Disk α := { disk with log := disk.log ++ [a] }

def put (disk : Disk α) (a : Access) (loc : Loc) (o : Option (FsNode α)) (h : disk.fs.Fits loc o) : Disk α :=
  ⟨disk.fs.replace loc o h, disk.log ++ [a]⟩

/-- The kernel follows at most forty links. -/
def linkLimit : Nat := 40

abbrev Call (α β : Type) := Command (Disk α) FsError β

/-- The location of the last name of a path, which is not followed if it is a link. -/
def entryLoc (fs : FileSystem α) (path : Loc) : Except FsError Loc :=
  match path.getLast? with
  | none => .ok []
  | some c =>
    match fs.walk linkLimit [] path.dropLast with
    | .found d => if fs.isDir d then .ok (d ++ [c]) else .error .other
    | .missing _ | .noEntry => .error .notExist
    | .notDir | .tooManyLinks => .error .other

/-- The location a path leads to when it is opened; the flag says that it is still to be created. -/
def openLoc (fs : FileSystem α) (path : Loc) : Except FsError (Loc × Bool) :=
  match fs.walk linkLimit [] path with
  | .found loc => .ok (loc, false)
  | .missing loc => .ok (loc, true)
  | .noEntry => .error .notExist
  | .notDir | .tooManyLinks => .error .other

def check {β : Type} : Except FsError β → Call α β
  | .ok b => pure b
  | .error e => throw e

def node : Option (FsNode α) → Call α (FsNode α)
  | some e => pure e
  | none => throw .notExist

def lstat (path : Loc) : Call α (FsNode α) := do
  let disk ← get
  let loc ← check (entryLoc disk.fs path)
  node (disk.fs.entry loc)

def stat (path : Loc) : Call α (FsNode α) := do
  let disk ← get
  let found ← check (openLoc disk.fs path)
  node (disk.fs.entry found.1)

def readFile (path : Loc) : Call α α := do
  let disk ← get
  let found ← check (openLoc disk.fs path)
  match disk.fs.entry found.1 with
  | some (.file a) => do
    set (disk.note (.read found.1))
    pure a
  | some _ => throw .other
  | none => throw .notExist

/-- Open for writing, create if missing, truncate and write. -/
def writeFile (path : Loc) (a : α) : Call α PUnit := do
  let disk ← get
  let found ← check (openLoc disk.fs path)
  let loc := found.1
  if h : disk.fs.isFile loc = true then
    set (disk.put (.write loc) loc _ (FileSystem.fits_of_isFile h a))
  else if h : disk.fs.creatable loc = true then
    set (disk.put (.write loc) loc (some (.file a)) (FileSystem.fits_of_creatable h fun t h => by cases h))
  else throw .other

def mkdir (path : Loc) : Call α PUnit := do
  let disk ← get
  let loc ← check (entryLoc disk.fs path)
  if h : disk.fs.creatable loc = true then
    set (disk.put (.mkdir loc) loc (some .dir) (FileSystem.fits_of_creatable h fun t h => by cases h))
  else throw .other

/-- `os.MkdirAll` on the path with the given elements, last first. -/
def mkdirAll : List GoString → Call α PUnit
  | [] => pure ⟨⟩
  | c :: above => do
    let path := (c :: above).reverse
    match ← (stat path).attempt with
    | .ok .dir => pure ⟨⟩
    | .ok _ => throw .other
    | .error _ => do
      mkdirAll above
      match ← (mkdir path).attempt with
      | .ok _ => pure ⟨⟩
      | .error e =>
        match ← (lstat path).attempt with
        | .ok .dir => pure ⟨⟩
        | _ => throw e

/-- `os.Remove` on anything but a directory. -/
def remove (path : Loc) : Call α PUnit := do
  let disk ← get
  let loc ← check (entryLoc disk.fs path)
  if h : disk.fs.isLeaf loc = true then
    set (disk.put (.remove loc) loc none (FileSystem.fits_of_isLeaf h fun t h => by cases h))
  else do
    let _ ← node (disk.fs.entry loc)
    throw .other

/-- `os.RemoveAll`: what is not there counts as removed. -/
def removeAll (path : Loc) : Call α PUnit := do
  let disk ← get
  match entryLoc disk.fs path with
  | .error .notExist => pure ⟨⟩
  | .error .other => throw .other
  | .ok loc =>
    if h : loc ≠ [] then set (⟨disk.fs.without loc h, disk.log ++ [.remove loc]⟩ : Disk α)
    else throw .other

/-- `os.Rename` of anything but a directory; a file or link at the target is replaced. -/
def rename (source target : Loc) : Call α PUnit := do
  let disk ← get
  let src ← check (entryLoc disk.fs source)
  let dst ← check (entryLoc disk.fs target)
  match hsrc : disk.fs.entry src with
  | none => throw .notExist
  | some e =>
    if hleaf : disk.fs.isLeaf src = true then
      if src = dst then set (disk.note (.rename src dst))
      else
        let gone := disk.put (.rename src dst) src none (FileSystem.fits_of_isLeaf hleaf fun t h => by cases h)
        have hlink : ∀ t, e = .link t → t ≠ [] := fun t ht => disk.fs.target src t (ht ▸ hsrc)
        if h : gone.fs.creatable dst = true then
          set (⟨gone.fs.replace dst (some e) (FileSystem.fits_of_creatable h hlink), gone.log⟩ : Disk α)
        else if h : gone.fs.isLeaf dst = true then
          set (⟨gone.fs.replace dst (some e) (FileSystem.fits_of_isLeaf h fun t ht => hlink t (Option.some.inj ht)),
            gone.log⟩ : Disk α)
        else throw .other
    else throw .other

section Ends

variable {β : Type} {disk : Disk α} {d loc root : Loc} {c : GoString} {rel : Rel}

open Command FileSystem

variable {fs : FileSystem α} {Q : FsNode α → Disk α → Prop} {E : FsError → Disk α → Prop} {a : α}

theorem entryLoc_below (hd : fs.isDir d = true) (c : GoString) : entryLoc fs (d ++ [c]) = .ok (d ++ [c]) := by
  rw [entryLoc, List.getLast?_concat, dropLast_concat, walk_real (real_of_isDir hd)]
  exact if_pos hd

theorem openLoc_real (h : fs.Real loc) : openLoc fs loc = .ok (loc, false) := by
  rw [openLoc, walk_real h]

theorem openLoc_clear (hd : fs.isDir root = true) (hnames : ∀ c ∈ rel, ValidName c)
    (hclear : fs.Clear root rel) (hnone : fs.entry (root ++ rel) = none) :
    openLoc fs (root ++ rel) = .error .notExist ∨ openLoc fs (root ++ rel) = .ok (root ++ rel, true) := by
  rw [openLoc, walk_real_append (real_of_isDir hd)]
  rcases scan_clear hd hnames hclear hnone with h | h
  · left
    rw [walk_done h]
  · right
    rw [walk_done h]

theorem ends_lstat (hd : disk.fs.isDir d = true) :
    Ends (lstat (d ++ [c])) Q E disk ↔ (∀ e, disk.fs.entry (d ++ [c]) = some e → Q e disk) ∧
      (disk.fs.entry (d ++ [c]) = none → E .notExist disk) := by
  simp only [lstat, ends_bind, ends_get, entryLoc_below hd, check, ends_pure]
  cases disk.fs.entry (d ++ [c]) with
  | none | some e => simp [node]

theorem ends_stat_dir (h : disk.fs.isDir loc = true) : Ends (stat loc) Q E disk ↔ Q .dir disk := by
  simp only [stat, ends_bind, ends_get, openLoc_real (real_of_isDir h), check, ends_pure, isDir_iff.mp h, node]

theorem ends_stat_clear (hd : disk.fs.isDir root = true)
    (hnames : ∀ c ∈ rel, ValidName c) (hclear : disk.fs.Clear root rel) (hnone : disk.fs.entry (root ++ rel) = none) :
    Ends (stat (root ++ rel)) Q E disk ↔ E .notExist disk := by
  simp only [stat, ends_bind, ends_get]
  rcases openLoc_clear hd hnames hclear hnone with h | h
  · simp only [h, check, ends_throw]
  · simp only [h, check, ends_pure, hnone, node, ends_throw]

theorem ends_readFile {Q : α → Disk α → Prop}
    (h : disk.fs.entry loc = some (.file a)) : Ends (readFile loc) Q E disk ↔ Q a (disk.note (.read loc)) := by
  have hreal : disk.fs.Real loc := ⟨_, h, fun t ht => by cases ht⟩
  simp only [readFile, ends_bind, ends_get, openLoc_real hreal, check, ends_pure, h, ends_set]

theorem creatable_iff (hd : fs.isDir d = true) (hc : ValidName c) :
    fs.creatable (d ++ [c]) = true ↔ fs.entry (d ++ [c]) = none := by
  simp [creatable, hd, hc]

theorem ends_writeFile_over {Q : PUnit → Disk α → Prop} {b : α} (h : disk.fs.entry loc = some (.file b)) :
    Ends (writeFile loc a) Q E disk ↔ ∃ hfits, Q ⟨⟩ (disk.put (.write loc) loc (some (.file a)) hfits) := by
  have hreal : disk.fs.Real loc := ⟨_, h, fun t ht => by cases ht⟩
  have hfile : disk.fs.isFile loc = true := isFile_iff.mpr ⟨b, h⟩
  simp only [writeFile, ends_bind, ends_get, openLoc_real hreal, check, ends_pure, dif_pos hfile, ends_set]
  exact ⟨fun hq => ⟨_, hq⟩, fun hq => hq.2⟩

section

variable (hd : disk.fs.isDir d = true)
include hd

variable {Q : PUnit → Disk α → Prop} {E : FsError → Disk α → Prop} {a : α}

theorem ends_writeFile_new (hc : ValidName c) (h : disk.fs.entry (d ++ [c]) = none) :
    Ends (writeFile (d ++ [c]) a) Q E disk ↔
      ∃ hfits, Q ⟨⟩ (disk.put (.write (d ++ [c])) (d ++ [c]) (some (.file a)) hfits) := by
  have hopen : openLoc disk.fs (d ++ [c]) = .ok (d ++ [c], true) := by
    have hscan : disk.fs.scan d [c] = .done (.missing (d ++ [c])) := by
      rw [scan, component_valid hd hc, h]
      rfl
    rw [openLoc, walk_real_append (real_of_isDir hd), walk_done hscan]
  have hfile : ¬ disk.fs.isFile (d ++ [c]) = true := by
    rw [isFile_iff, h]
    simp
  simp only [writeFile, ends_bind, ends_get, hopen, check, ends_pure, dif_neg hfile,
    dif_pos ((creatable_iff hd hc).mpr h), ends_set]
  exact ⟨fun hq => ⟨_, hq⟩, fun hq => hq.2⟩

theorem ends_mkdir (hc : ValidName c) (h : disk.fs.entry (d ++ [c]) = none) :
    Ends (mkdir (d ++ [c])) Q E disk ↔ ∃ hfits, Q ⟨⟩ (disk.put (.mkdir (d ++ [c])) (d ++ [c]) (some .dir) hfits) := by
  simp only [mkdir, ends_bind, ends_get, entryLoc_below hd, check, ends_pure, dif_pos ((creatable_iff hd hc).mpr h),
    ends_set]
  exact ⟨fun hq => ⟨_, hq⟩, fun hq => hq.2⟩

theorem ends_remove (h : disk.fs.entry (d ++ [c]) = some (.file a)) :
    Ends (remove (d ++ [c])) Q E disk ↔ ∃ hfits, Q ⟨⟩ (disk.put (.remove (d ++ [c])) (d ++ [c]) none hfits) := by
  have hleaf : disk.fs.isLeaf (d ++ [c]) = true := isLeaf_iff.mpr ⟨_, h, fun h => by cases h⟩
  simp only [remove, ends_bind, ends_get, entryLoc_below hd, check, ends_pure, dif_pos hleaf, ends_set]
  exact ⟨fun hq => ⟨_, hq⟩, fun hq => hq.2⟩

/-- A file goes to a place where nothing is. -/
theorem ends_rename {d' : Loc} {c' : GoString}
    (hsrc : disk.fs.entry (d ++ [c]) = some (.file a)) (hd' : disk.fs.isDir d' = true) (hc' : ValidName c')
    (hdst : disk.fs.entry (d' ++ [c']) = none) :
    Ends (rename (d ++ [c]) (d' ++ [c'])) (fun _ t => t.log = disk.log ++ [.rename (d ++ [c]) (d' ++ [c'])] ∧
      ∀ l, t.fs.entry l = if l = d' ++ [c'] then some (.file a) else if l = d ++ [c] then none else disk.fs.entry l)
      (fun _ _ => False) disk := by
  have hleaf : disk.fs.isLeaf (d ++ [c]) = true := isLeaf_iff.mpr ⟨_, hsrc, by simp⟩
  have hne : d ++ [c] ≠ d' ++ [c'] := by
    intro heq
    rw [heq, hdst] at hsrc
    cases hsrc
  have hdir : d' ≠ d ++ [c] := by
    rintro rfl
    rw [isDir_iff, hsrc] at hd'
    cases hd'
  simp only [rename, ends_bind, ends_get, entryLoc_below hd, entryLoc_below hd', check, ends_pure]
  split
  · next hnone =>
    rw [hsrc] at hnone
    cases hnone
  · next e he =>
    rw [hsrc] at he
    cases he
    have hcreatable : (disk.put (.rename (d ++ [c]) (d' ++ [c'])) (d ++ [c]) none
        (fits_of_isLeaf hleaf (by simp))).fs.creatable (d' ++ [c']) = true := by
      refine (creatable_iff (isDir_iff.mpr ?_) hc').mpr ?_
      · exact (if_neg hdir).trans (isDir_iff.mp hd')
      · exact (if_neg hne.symm).trans hdst
    rw [dif_pos hleaf, if_neg hne, dif_pos hcreatable, ends_set]
    exact ⟨rfl, fun l => rfl⟩

end

/-- Some missing directories between `root` and `root ++ rel` were made, and nothing else changed. -/
structure Deepened (root : Loc) (rel : Rel) (disk disk' : Disk α) : Prop where
  entry : ∀ l, disk'.fs.entry l = disk.fs.entry l ∨
    disk.fs.entry l = none ∧ disk'.fs.entry l = some .dir ∧ ∃ p, p ≠ [] ∧ p <+: rel ∧ l = root ++ p
  log : ∃ made : List Loc, disk'.log = disk.log ++ made.map Access.mkdir ∧ ∀ l ∈ made, ∃ p, p ≠ [] ∧ p <+: rel ∧
    l = root ++ p

theorem Deepened.refl (root : Loc) (rel : Rel) (disk : Disk α) : Deepened root rel disk disk where
  entry := fun _ => .inl rfl
  log := ⟨[], by simp, by simp⟩

theorem mkdirAll_dir {Q : PUnit → Disk α → Prop} (h : disk.fs.isDir loc = true) :
    Ends (mkdirAll loc.reverse) Q E disk ↔ Q ⟨⟩ disk := by
  cases hrev : loc.reverse with
  | nil => rfl
  | cons c above =>
    have hpath : (c :: above).reverse = loc := by rw [← hrev, reverse_reverse]
    simp only [mkdirAll, ends_bind, ends_attempt, hpath, ends_stat_dir h, ends_pure]

/-- A clear path is made without failing. -/
theorem ends_mkdirAll (hd : disk.fs.isDir root = true) (hnames : ∀ c ∈ rel, ValidName c)
    (hclear : disk.fs.Clear root rel) :
    Ends (mkdirAll (root ++ rel).reverse) (fun _ t => t.fs.isDir (root ++ rel) = true ∧ Deepened root rel disk t)
      (fun _ _ => False) disk := by
  induction rel using List.reverseRecOn with
  | nil =>
    rw [append_nil, mkdirAll_dir hd]
    exact ⟨hd, .refl root [] disk⟩
  | append_singleton rel c ih =>
    rcases hclear (rel ++ [c]) prefix_rfl with hdir | hnone
    · rw [mkdirAll_dir (isDir_iff.mpr hdir)]
      exact ⟨isDir_iff.mpr hdir, .refl root _ disk⟩
    · have hrev : (root ++ (rel ++ [c])).reverse = c :: (root ++ rel).reverse := by simp
      have hpath : (c :: (root ++ rel).reverse).reverse = root ++ (rel ++ [c]) := by simp
      rw [hrev]
      simp only [mkdirAll, ends_bind, ends_attempt, hpath, ends_stat_clear hd hnames hclear hnone]
      refine (ih (fun c hc => hnames c (mem_append_left _ hc)) hclear.of_concat).mono ?_ (fun _ _ h => h.elim)
      rintro ⟨⟩ t ⟨ht, hdeep⟩
      have hvalid : ValidName c := hnames c (by simp)
      rw [← append_assoc] at hnone ⊢
      have hnone' : t.fs.entry (root ++ rel ++ [c]) = none := by
        rcases hdeep.entry (root ++ rel ++ [c]) with h | ⟨-, -, p, -, hp, heq⟩
        · rw [h, hnone]
        · have hlen := congrArg List.length heq
          have := hp.length_le
          simp only [length_append, length_singleton] at hlen
          omega
      rw [ends_mkdir ht hvalid hnone']
      refine ⟨fits_of_creatable ((creatable_iff ht hvalid).mpr hnone') (by simp), isDir_iff.mpr ?_, fun l => ?_, ?_⟩
      · exact if_pos rfl
      · change (if l = root ++ rel ++ [c] then some FsNode.dir else t.fs.entry l) = _ ∨ _ ∧ (if _ then _ else _) = _ ∧ _
        split_ifs with hl
        · exact .inr ⟨hl ▸ hnone, rfl, rel ++ [c], by simp, prefix_rfl, by rw [hl, append_assoc]⟩
        · rcases hdeep.entry l with h | ⟨hl, hl', p, hne, hp, heq⟩
          · exact .inl h
          · exact .inr ⟨hl, hl', p, hne, hp.trans (prefix_append _ _), heq⟩
      · obtain ⟨made, hlog, hmade⟩ := hdeep.log
        refine ⟨made ++ [root ++ rel ++ [c]], ?_, fun l hl => ?_⟩
        · change t.log ++ [Access.mkdir _] = _
          simp [hlog]
        · rcases mem_append.mp hl with hl | hl
          · obtain ⟨p, hne, hp, heq⟩ := hmade l hl
            exact ⟨p, hne, hp.trans (prefix_append _ _), heq⟩
          · exact ⟨rel ++ [c], by simp, prefix_rfl, by rw [mem_singleton.mp hl, append_assoc]⟩

end Ends

end Disk

end CodeMemory.Lib
