import CodeMemory.Lib.Path

/-! A tree of directories, files and symbolic links, and how the kernel resolves
a path in it: links are followed in every component, `..` leaves the directory
that was really reached, and the number of links is bounded. A location is the
list of names that leads to an object through directories only. -/

namespace CodeMemory.Lib

open GoString Lib.Path List

/-- The names that lead from the root directory to an object. -/
abbrev Loc := List GoString

inductive FsNode (α : Type) where
  | dir
  | file (content : α)
  | link (target : GoString)
  deriving DecidableEq

structure FileSystem (α : Type) where
  entry : Loc → Option (FsNode α)
  root : entry [] = some .dir
  parent : ∀ p c e, entry (p ++ [c]) = some e → entry p = some .dir
  valid : ∀ p c e, entry (p ++ [c]) = some e → ValidName c
  target : ∀ p t, entry p = some (.link t) → t ≠ []

/-- Where the resolution of a path ends. A `missing` object is one that can be created: only the last component is
not there. -/
inductive Walk where
  | found (loc : Loc)
  | missing (loc : Loc)
  | noEntry
  | notDir
  | tooManyLinks
  deriving DecidableEq

inductive Component where
  | notDir
  | move (loc : Loc)
  | absent
  | link (target : GoString)

/-- A resolution up to its end or to the next link. -/
inductive Scan where
  | done (w : Walk)
  | link (loc : Loc) (target : GoString) (rest : Rel)

namespace FileSystem

variable {α : Type} (fs : FileSystem α)

def isDir (loc : Loc) : Bool :=
  match fs.entry loc with
  | some .dir => true
  | _ => false

def component (loc : Loc) (c : GoString) : Component :=
  if !fs.isDir loc then .notDir
  else if c = [] ∨ c = lit "." then .move loc
  else if c = lit ".." then .move loc.dropLast
  else match fs.entry (loc ++ [c]) with
    | none => .absent
    | some (.link t) => .link t
    | some _ => .move (loc ++ [c])

def scan : Loc → Rel → Scan
  | loc, [] => .done (.found loc)
  | loc, c :: rest =>
    match fs.component loc c with
    | .notDir => .done .notDir
    | .move loc' => scan loc' rest
    | .absent => .done (if rest = [] then .missing (loc ++ [c]) else .noEntry)
    | .link t => .link loc t rest

/-- The place where the text of a link starts. -/
def linkStart (loc : Loc) (t : GoString) : Loc := if hasPrefix t [slash] then [] else loc

/-- The resolution of the components `cs` from `loc` on, with at most `links` links. -/
def walk (links : Nat) (loc : Loc) (cs : Rel) : Walk :=
  match fs.scan loc cs with
  | .done w => w
  | .link loc t rest =>
    match links with
    | 0 => .tooManyLinks
    | links + 1 => walk links (linkStart loc t) (t.splitOn slash ++ rest)

/-- The object at a location is there and is no link. -/
def Real (loc : Loc) : Prop := ∃ e, fs.entry loc = some e ∧ ∀ t, e ≠ .link t

variable {fs} {loc p d l : Loc} {c t : GoString} {xs rest : Rel} {links n : Nat}

theorem isDir_iff : fs.isDir loc = true ↔ fs.entry loc = some .dir := by
  unfold isDir
  split <;> simp_all

theorem real_of_isDir (h : fs.isDir loc = true) : fs.Real loc :=
  ⟨.dir, isDir_iff.mp h, fun _ h => by cases h⟩

theorem isDir_nil : fs.isDir [] = true := isDir_iff.mpr fs.root

theorem isDir_dropLast (h : fs.isDir loc = true) : fs.isDir loc.dropLast = true := by
  induction loc using List.reverseRecOn with
  | nil => exact h
  | append_singleton p c =>
    rw [dropLast_concat]
    exact isDir_iff.mpr (fs.parent p c _ (isDir_iff.mp h))

theorem entry_of_append {q : Loc} {e : FsNode α} (h : fs.entry (p ++ q) = some e) (hq : q ≠ []) :
    fs.isDir p = true := by
  induction q using List.reverseRecOn generalizing e with
  | nil => exact absurd rfl hq
  | append_singleton q c ih =>
    rw [← append_assoc] at h
    have hpar := fs.parent _ _ _ h
    cases q with
    | nil =>
      rw [append_nil] at hpar
      exact isDir_iff.mpr hpar
    | cons c' q => exact ih hpar (by simp)

theorem component_valid (hd : fs.isDir loc = true) (hc : ValidName c) :
    fs.component loc c = match fs.entry (loc ++ [c]) with
      | none => .absent
      | some (.link t) => .link t
      | some _ => .move (loc ++ [c]) := by
  obtain ⟨h₁, -, h₃, h₄⟩ := hc
  rw [component, hd, if_neg (by simp), if_neg (by simp [h₁, h₃]), if_neg h₄]

theorem component_isDir (h : fs.component loc c ≠ .notDir) : fs.isDir loc = true := by
  by_contra hd
  simp [component, hd] at h

theorem component_move {loc' : Loc} (h : fs.component loc c = .move loc') : fs.Real loc' := by
  have hd : fs.isDir loc = true := component_isDir (by rw [h]; exact fun h => by cases h)
  unfold component at h
  split_ifs at h with h₁ h₂ h₃
  · cases h
    exact real_of_isDir hd
  · cases h
    exact real_of_isDir (isDir_dropLast hd)
  · split at h
    · cases h
    · cases h
    · next e hlink he =>
      cases h
      exact ⟨e, he, fun t ht => hlink t ht⟩

/-- A location is resolved to itself. -/
theorem scan_real {q : Loc} (h : fs.Real (p ++ q)) : fs.scan p q = .done (.found (p ++ q)) := by
  induction q generalizing p with
  | nil => rw [append_nil]; rfl
  | cons c q ih =>
    obtain ⟨e, he, hlink⟩ := h
    have happ : p ++ c :: q = (p ++ [c]) ++ q := by simp
    rw [happ] at he ⊢
    have hreal : fs.Real ((p ++ [c]) ++ q) := ⟨e, he, hlink⟩
    -- the first name is that of a directory, or it is the last one
    obtain ⟨e', he', hlink'⟩ : fs.Real (p ++ [c]) := by
      by_cases hq : q = []
      · rw [hq, append_nil] at hreal
        exact hreal
      · exact real_of_isDir (entry_of_append he hq)
    have hvalid := fs.valid p c e' he'
    rw [scan, component_valid (entry_of_append he' (by simp)) hvalid, he']
    cases e' with
    | link t => exact absurd rfl (hlink' t)
    | dir | file a => exact ih hreal

/-- A scan goes on where the first part of the path led. -/
theorem scan_append (loc : Loc) (xs ys : Rel) :
    fs.scan loc (xs ++ ys) = match fs.scan loc xs with
      | .done (.found d) => fs.scan d ys
      | .done (.missing l) => .done (if ys = [] then .missing l else .noEntry)
      | .done w => .done w
      | .link l t rest => .link l t (rest ++ ys) := by
  induction xs generalizing loc with
  | nil => rfl
  | cons c xs ih =>
    rw [cons_append, scan, scan]
    cases fs.component loc c with
    | notDir => rfl
    | move loc' => exact ih loc'
    | absent =>
      by_cases hxs : xs = []
      · simp [hxs]
      · simp [hxs]
    | link t => rfl

theorem scan_found_real (hl : fs.Real loc) (h : fs.scan loc xs = .done (.found d)) : fs.Real d := by
  induction xs generalizing loc with
  | nil =>
    cases h
    exact hl
  | cons c xs ih =>
    rw [scan] at h
    cases hc : fs.component loc c with
    | notDir => rw [hc] at h; cases h
    | move loc' => rw [hc] at h; exact ih (component_move hc) h
    | absent =>
      rw [hc] at h
      split_ifs at h
      · cases h
      · cases h
    | link t => rw [hc] at h; cases h

/-- A link is met in a directory. -/
theorem scan_link_isDir (h : fs.scan loc xs = .link l t rest) : fs.isDir l = true := by
  induction xs generalizing loc with
  | nil => cases h
  | cons c xs ih =>
    rw [scan] at h
    cases hc : fs.component loc c with
    | notDir => rw [hc] at h; cases h
    | move loc' => rw [hc] at h; exact ih h
    | absent => rw [hc] at h; cases h
    | link t' =>
      rw [hc] at h
      cases h
      exact component_isDir (by rw [hc]; exact fun h => by cases h)

theorem walk_done {w : Walk} (h : fs.scan loc xs = .done w) : fs.walk links loc xs = w := by
  unfold walk
  rw [h]

theorem walk_link (h : fs.scan loc xs = .link l t rest) :
    fs.walk (links + 1) loc xs = fs.walk links (linkStart l t) (t.splitOn slash ++ rest) := by
  rw [walk, h]

theorem walk_link_zero (h : fs.scan loc xs = .link l t rest) : fs.walk 0 loc xs = .tooManyLinks := by
  rw [walk, h]

/-- The walk to a location uses no links. -/
theorem walk_real_append (h : fs.Real loc) (ys : Rel) : fs.walk links [] (loc ++ ys) = fs.walk links loc ys := by
  have hscan : fs.scan [] (loc ++ ys) = fs.scan loc ys := by
    rw [scan_append, scan_real (p := []) h]
    rfl
  unfold walk
  rw [hscan]

theorem walk_real (h : fs.Real loc) : fs.walk links [] loc = .found loc :=
  walk_done (scan_real (p := []) h)

theorem isDir_linkStart (h : fs.isDir l = true) : fs.isDir (linkStart l t) = true := by
  unfold linkStart
  split_ifs
  · exact isDir_nil
  · exact h

theorem walk_found_real (hl : fs.Real loc) (h : fs.walk links loc xs = .found d) : fs.Real d := by
  induction links, loc, xs using walk.induct fs with
  | case1 links loc xs w hs =>
    rw [walk_done hs] at h
    exact scan_found_real hl (h ▸ hs)
  | case2 loc xs l t rest hs =>
    rw [walk_link_zero hs] at h
    cases h
  | case3 loc xs l t rest hs links ih =>
    rw [walk_link hs] at h
    exact ih (real_of_isDir (isDir_linkStart (scan_link_isDir hs))) h

/-- More links than needed change nothing. -/
theorem walk_mono {m : Nat} (h : fs.walk m loc xs ≠ .tooManyLinks) (hmn : m ≤ n) :
    fs.walk n loc xs = fs.walk m loc xs := by
  induction m, loc, xs using walk.induct fs generalizing n with
  | case1 m loc xs w hs => rw [walk_done hs, walk_done hs]
  | case2 loc xs l t rest hs => exact absurd (walk_link_zero hs) h
  | case3 loc xs l t rest hs m ih =>
    obtain ⟨n, rfl⟩ : ∃ k, n = k + 1 := ⟨n - 1, by omega⟩
    rw [walk_link hs] at h
    rw [walk_link hs, walk_link hs]
    exact ih h (by omega)

/-- A walk goes on from the object that the first part of the path reached, with the links that are left. -/
theorem walk_append_found (h : fs.walk n loc xs = .found d) :
    ∃ m, m ≤ n ∧ ∀ ys, fs.walk n loc (xs ++ ys) = fs.walk m d ys := by
  induction n, loc, xs using walk.induct fs with
  | case1 n loc xs w hs =>
    rw [walk_done hs] at h
    subst h
    refine ⟨n, le_rfl, fun ys => ?_⟩
    rw [walk, walk, scan_append, hs]
  | case2 loc xs l t rest hs =>
    rw [walk_link_zero hs] at h
    cases h
  | case3 loc xs l t rest hs n ih =>
    rw [walk_link hs] at h
    obtain ⟨m, hm, hwalk⟩ := ih h
    refine ⟨m, by omega, fun ys => ?_⟩
    have hs' : fs.scan loc (xs ++ ys) = .link l t (rest ++ ys) := by rw [scan_append, hs]
    rw [walk_link hs', ← append_assoc]
    exact hwalk ys

/-- The outcomes that report a missing object. -/
def NotExist (w : Walk) : Prop := w = .noEntry ∨ ∃ l, w = .missing l

theorem walk_append_notExist {ys : Rel} (h : NotExist (fs.walk n loc xs)) (hys : ys ≠ []) :
    fs.walk n loc (xs ++ ys) = .noEntry := by
  induction n, loc, xs using walk.induct fs with
  | case1 n loc xs w hs =>
    rw [walk_done hs] at h
    refine walk_done ?_
    rw [scan_append, hs]
    rcases h with rfl | ⟨l, rfl⟩
    · rfl
    · simp [hys]
  | case2 loc xs l t rest hs =>
    rw [walk_link_zero hs] at h
    rcases h with h | ⟨l, h⟩ <;> cases h
  | case3 loc xs l t rest hs n ih =>
    rw [walk_link hs] at h
    have hs' : fs.scan loc (xs ++ ys) = .link l t (rest ++ ys) := by rw [scan_append, hs]
    rw [walk_link hs', ← append_assoc]
    exact ih h

def lookupNode (xs : List (Loc × FsNode α)) (p : Loc) : Option (FsNode α) := (xs.find? (·.1 = p)).map (·.2)

/-- Every listed entry has an ordinary name and a listed parent, no link is empty. -/
def listable (xs : List (Loc × FsNode α)) : Bool :=
  xs.all (fun x => x.1 ≠ [] && x.1.all (fun c => decide (ValidName c)) &&
    (match x.2 with
      | .link t => t ≠ []
      | _ => true) &&
    (x.1.dropLast = [] || (match lookupNode xs x.1.dropLast with
      | some .dir => true
      | _ => false)))

def ofList (xs : List (Loc × FsNode α)) (h : listable xs = true) : FileSystem α where
  entry := fun p => if p = [] then some .dir else lookupNode xs p
  root := rfl
  parent := by
    intro p c e he
    rw [if_neg (by simp), lookupNode, Option.map_eq_some_iff] at he
    obtain ⟨x, hx, -⟩ := he
    have hmem := List.mem_of_find?_eq_some hx
    have hkey : x.1 = p ++ [c] := of_decide_eq_true (List.find?_some hx :)
    have hok := List.all_eq_true.mp h x hmem
    simp only [Bool.and_eq_true, Bool.or_eq_true, decide_eq_true_eq, hkey, List.dropLast_concat] at hok
    split_ifs with hp
    · rfl
    · have hdir := hok.2.resolve_left hp
      split at hdir
      · next hd => exact hd
      · cases hdir
  valid := by
    intro p c e he
    rw [if_neg (by simp), lookupNode, Option.map_eq_some_iff] at he
    obtain ⟨x, hx, -⟩ := he
    have hkey : x.1 = p ++ [c] := of_decide_eq_true (List.find?_some hx :)
    have hok := List.all_eq_true.mp h x (List.mem_of_find?_eq_some hx)
    simp only [Bool.and_eq_true, decide_eq_true_eq, hkey, List.all_append] at hok
    simpa using hok.1.1.2.2
  target := by
    intro p t he
    split_ifs at he with hp
    · cases he
    · rw [lookupNode, Option.map_eq_some_iff] at he
      obtain ⟨x, hx, hxt⟩ := he
      have hok := List.all_eq_true.mp h x (List.mem_of_find?_eq_some hx)
      simp only [Bool.and_eq_true, hxt] at hok
      simpa using hok.1.2

end FileSystem

end CodeMemory.Lib
