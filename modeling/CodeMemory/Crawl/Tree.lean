import CodeMemory.Crawl.Types
import CodeMemory.Ignore.Matcher

/-! The working tree as the crawler sees it: directory listings, what `lstat`,
`stat` and a read say about an entry, and the top-down walk under an ignore
policy. A directory that cannot be listed appears with an empty listing; what a
path below it or below a link to a directory resolves to is `Tree.outside`. -/

namespace CodeMemory.Crawl

open Lib Lib.GoString Lib.Path List

structure StatInfo where
  isDir : Bool
  regular : Bool
  stamp : FileStamp
  deriving DecidableEq

/-- A directory entry that is not a directory. A regular file without a body
cannot be read; a link without a target is dangling. -/
inductive Entry where
  | regular (stamp : FileStamp) (body : Option GoString)
  | symlink (stamp : FileStamp) (target : Option StatInfo)
  | irregular (stamp : FileStamp)
  deriving DecidableEq

namespace Entry

def lstat : Entry → StatInfo
  | regular s _ => ⟨false, true, s⟩
  | symlink s _ => ⟨false, false, s⟩
  | irregular s => ⟨false, false, s⟩

def stat : Entry → Option StatInfo
  | regular s _ => some ⟨false, true, s⟩
  | symlink _ t => t
  | irregular s => some ⟨false, false, s⟩

/-- What a read returns. Only regular files are ever read. -/
def read : Entry → Option GoString
  | regular _ body => body
  | symlink _ _ => none
  | irregular _ => none

end Entry

def indexableFile (info : StatInfo) : Bool :=
  info.regular && decide (info.stamp.size ≤ maxIndexableFileBytes)

def extensions : List GoString := [".go", ".md", ".py", ".ts", ".tsx", ".js", ".rs"].map lit

def Toolchain.extOK (tc : Toolchain) (path : GoString) : Bool :=
  decide (tc.toLower (ext path) ∈ extensions)

theorem Entry.stat_of_indexable {e : Entry} (h : indexableFile e.lstat = true) :
    e.stat = some e.lstat := by
  cases e with
  | regular s b => rfl
  | symlink s t => simp [indexableFile, Entry.lstat] at h
  | irregular s => rfl

/-- The entries of a directory, in the order of the walk. -/
inductive Listing where
  | nil
  | file (name : GoString) (entry : Entry) (rest : Listing)
  | dir (name : GoString) (sub : Listing) (rest : Listing)
  deriving DecidableEq

namespace Listing

def names : Listing → List GoString
  | nil => []
  | file n _ r => n :: names r
  | dir n _ r => n :: names r

/-- Names are valid, and distinct within a directory. -/
def WF : Listing → Prop
  | nil => True
  | file n _ r => ValidName n ∧ n ∉ names r ∧ WF r
  | dir n s r => ValidName n ∧ n ∉ names r ∧ WF s ∧ WF r

instance decidableWF : (l : Listing) → Decidable l.WF
  | nil => isTrue trivial
  | file _ _ r => @instDecidableAnd _ _ _ (@instDecidableAnd _ _ _ (decidableWF r))
  | dir _ s r => @instDecidableAnd _ _ _ (@instDecidableAnd _ _ _
      (@instDecidableAnd _ _ (decidableWF s) (decidableWF r)))

inductive Node where
  | file (entry : Entry)
  | dir (sub : Listing)

def find? : Listing → GoString → Option Node
  | nil, _ => none
  | file n e r, x => if x = n then some (.file e) else find? r x
  | dir n s r, x => if x = n then some (.dir s) else find? r x

def lookup (l : Listing) : Rel → Option Node
  | [] => some (.dir l)
  | [c] => l.find? c
  | c :: c' :: cs =>
    match l.find? c with
    | some (.dir s) => s.lookup (c' :: cs)
    | _ => none

variable {l : Listing} {x n : GoString} {nd : Node} {e : Entry} {r : Listing} {pre q : Rel}

theorem mem_names_of_find? (h : l.find? x = some nd) : x ∈ l.names := by
  induction l with
  | nil => cases h
  | file n e r ih | dir n s r _ ih =>
    rw [find?] at h
    split_ifs at h with hx
    · simp [names, hx]
    · simp [names, ih h]

theorem find?_eq_none (h : x ∉ l.names) : l.find? x = none := by
  cases hf : l.find? x with
  | none => rfl
  | some nd => exact absurd (mem_names_of_find? hf) h

theorem lookup_file_iff {e' : Entry} (hn : n ∉ r.names) (q : Rel) : (file n e' r).lookup q = some (.file e) ↔
      (q = [n] ∧ e' = e) ∨ r.lookup q = some (.file e) := by
  have hr := find?_eq_none hn
  match q with
  | [] => simp [lookup]
  | [c] | c :: c' :: cs =>
    by_cases hc : c = n
    · subst hc; simp [lookup, find?, hr]
    · simp [lookup, find?, hc]

theorem lookup_dir_iff {s : Listing} (hn : n ∉ r.names) (q : Rel) : (dir n s r).lookup q = some (.file e) ↔
      (∃ c cs, q = n :: c :: cs ∧ s.lookup (c :: cs) = some (.file e)) ∨ r.lookup q = some (.file e) := by
  have hr := find?_eq_none hn
  match q with
  | [] => simp [lookup]
  | [c] | c :: c' :: cs =>
    by_cases hc : c = n
    · subst hc; simp [lookup, find?, hr]
    · simp [lookup, find?, hc]

/-- The non-directories a top-down walk reaches, with their paths: `ign` decides
by path and kind, and `skip` skips directories by name. -/
def walk (ign : GoString → Bool → Bool) (skip : GoString → Bool) : Rel → Listing → List (Rel × Entry)
  | _, nil => []
  | pre, file n e r =>
    (if ign (join (pre ++ [n])) false then [] else [(pre ++ [n], e)]) ++ walk ign skip pre r
  | pre, dir n s r =>
    (if ign (join (pre ++ [n])) true || skip n then [] else walk ign skip (pre ++ [n]) s) ++
      walk ign skip pre r

def Reach (ign : GoString → Bool → Bool) (skip : GoString → Bool) : Rel → Rel → Prop
  | _, [] => False
  | pre, [c] => ign (join (pre ++ [c])) false = false
  | pre, c :: c' :: cs =>
    (ign (join (pre ++ [c])) true = false ∧ skip c = false) ∧ Reach ign skip (pre ++ [c]) (c' :: cs)

variable {ign : GoString → Bool → Bool} {skip : GoString → Bool}

theorem exists_name_of_mem_walk {p : Rel}
    (h : (p, e) ∈ walk ign skip pre l) : ∃ c ∈ l.names, ∃ q, p = pre ++ c :: q := by
  induction l generalizing pre with
  | nil => cases h
  | file n e' r ih =>
    rw [walk, mem_append] at h
    rcases h with h | h
    · split_ifs at h
      · cases h
      · obtain ⟨rfl, rfl⟩ := Prod.mk.inj (mem_singleton.mp h)
        exact ⟨n, by simp [names], [], rfl⟩
    · obtain ⟨c, hc, q, rfl⟩ := ih h
      exact ⟨c, by simp [names, hc], q, rfl⟩
  | dir n s r ihs ih =>
    rw [walk, mem_append] at h
    rcases h with h | h
    · split_ifs at h
      · cases h
      · obtain ⟨c, -, q, rfl⟩ := ihs h
        exact ⟨n, by simp [names], c :: q, by simp⟩
    · obtain ⟨c, hc, q, rfl⟩ := ih h
      exact ⟨c, by simp [names, hc], q, rfl⟩

/-- What the walk reaches: the entries on whose way no decision excludes them. -/
theorem mem_walk (pre : Rel) (hl : l.WF) : (pre ++ q, e) ∈ walk ign skip pre l ↔
      l.lookup q = some (.file e) ∧ Reach ign skip pre q := by
  induction l generalizing pre q with
  | nil =>
    match q with
    | [] => simp [walk, lookup]
    | [c] | c :: c' :: cs => simp [walk, lookup, find?]
  | file n e' r ih =>
    obtain ⟨-, hn, hr⟩ := hl
    rw [walk, mem_append, ih pre hr, lookup_file_iff hn]
    have hhead : ((pre ++ q, e) ∈ if ign (join (pre ++ [n])) false = true then [] else
        [(pre ++ [n], e')]) ↔ (q = [n] ∧ e' = e) ∧ Reach ign skip pre q := by
      split_ifs with hi
      · simp only [not_mem_nil, false_iff, not_and]
        rintro ⟨rfl, rfl⟩
        simp [Reach, hi]
      · simp only [mem_singleton, Prod.mk.injEq, append_cancel_left_eq]
        constructor
        · rintro ⟨rfl, rfl⟩; exact ⟨⟨rfl, rfl⟩, by simpa [Reach] using hi⟩
        · rintro ⟨⟨rfl, rfl⟩, -⟩; exact ⟨rfl, rfl⟩
    rw [hhead, or_and_right]
  | dir n s r ihs ih =>
    obtain ⟨-, hn, hs, hr⟩ := hl
    rw [walk, mem_append, ih pre hr, lookup_dir_iff hn, or_and_right]
    refine or_congr ?_ Iff.rfl
    constructor
    · intro h
      split_ifs at h with hi
      · cases h
      · obtain ⟨c, -, cs, hq⟩ := exists_name_of_mem_walk h
        obtain rfl : q = n :: c :: cs := by simpa using hq
        have h' : ((pre ++ [n]) ++ (c :: cs), e) ∈ walk ign skip (pre ++ [n]) s := by simpa using h
        obtain ⟨hl, hreach⟩ := (ihs (pre ++ [n]) hs).mp h'
        exact ⟨⟨c, cs, rfl, hl⟩, by simpa using hi, hreach⟩
    · rintro ⟨⟨c, cs, rfl, hl⟩, ⟨hi, hk⟩, hreach⟩
      rw [hi, hk]
      have h' := (ihs (pre ++ [n]) hs).mpr ⟨hl, hreach⟩
      simpa using h'

/-- A walk visits no path twice. -/
theorem walk_nodup (pre : Rel) (hl : l.WF) : ((walk ign skip pre l).map Prod.fst).Nodup := by
  induction l generalizing pre with
  | nil => simp [walk]
  | file n e r ih =>
    obtain ⟨-, hn, hr⟩ := hl
    rw [walk, map_append, nodup_append]
    refine ⟨by split_ifs <;> simp, ih pre hr, ?_⟩
    intro p hp q hq
    split_ifs at hp
    · cases hp
    · obtain rfl : p = pre ++ [n] := by simpa using hp
      obtain ⟨⟨q', e'⟩, hq', rfl⟩ := mem_map.mp hq
      obtain ⟨c, hc, cs, rfl⟩ := exists_name_of_mem_walk hq'
      intro he
      obtain ⟨rfl, -⟩ : n = c ∧ cs = [] := by simpa using he
      exact hn hc
  | dir n s r ihs ih =>
    obtain ⟨-, hn, hs, hr⟩ := hl
    rw [walk, map_append, nodup_append]
    refine ⟨?_, ih pre hr, ?_⟩
    · split_ifs
      · simp
      · exact ihs (pre ++ [n]) hs
    · intro p hp q hq
      split_ifs at hp
      · cases hp
      · obtain ⟨⟨p', e₁⟩, hp', rfl⟩ := mem_map.mp hp
        obtain ⟨⟨q', e₂⟩, hq', rfl⟩ := mem_map.mp hq
        obtain ⟨c₁, -, cs₁, rfl⟩ := exists_name_of_mem_walk hp'
        obtain ⟨c₂, hc, cs₂, rfl⟩ := exists_name_of_mem_walk hq'
        intro he
        obtain ⟨rfl, -⟩ : n = c₂ ∧ c₁ :: cs₁ = cs₂ := by simpa using he
        exact hn hc

theorem valid_of_find? (hl : l.WF) (h : l.find? x = some nd) : ValidName x ∧ ∀ s, nd = .dir s → s.WF := by
  induction l with
  | nil => cases h
  | file n e r ih =>
    rw [find?] at h
    split_ifs at h with hx
    · cases h
      exact ⟨hx ▸ hl.1, fun s hs => by cases hs⟩
    · exact ih hl.2.2 h
  | dir n s r _ ih =>
    rw [find?] at h
    split_ifs at h with hx
    · cases h
      exact ⟨hx ▸ hl.1, fun s' hs => by cases hs; exact hl.2.2.1⟩
    · exact ih hl.2.2.2 h

/-- The elements of a path to an entry are valid names. -/
theorem valid_of_lookup (hl : l.WF) (h : l.lookup q = some (.file e)) : ∀ c ∈ q, ValidName c := by
  induction q generalizing l with
  | nil => simp
  | cons c cs ih =>
    cases cs with
    | nil =>
      simpa using (valid_of_find? hl h).1
    | cons c' cs =>
      rw [lookup] at h
      split at h
      · rename_i s hs
        obtain ⟨hc, hs'⟩ := valid_of_find? hl hs
        intro x hx
        rcases mem_cons.mp hx with rfl | hx
        · exact hc
        · exact ih (hs' s rfl) h x hx
      · cases h

theorem ne_nil_of_lookup (h : l.lookup q = some (.file e)) : q ≠ [] := by
  rintro rfl; cases h

/-- With no directory skipped by name, a path is reached exactly if no directory
above it is excluded and it is not excluded itself. -/
theorem reach_iff (hq : q ≠ []) : Reach ign (fun _ => false) pre q ↔
      (∀ d, d ≠ [] → d ≠ q → d <+: q → ign (join (pre ++ d)) true = false) ∧ ign (join (pre ++ q)) false = false := by
  induction q generalizing pre with
  | nil => exact absurd rfl hq
  | cons c cs ih =>
    cases cs with
    | nil =>
      simp only [Reach, iff_and_self]
      intro _ d hd hd' hp
      obtain ⟨x, d, rfl⟩ := exists_cons_of_ne_nil hd
      obtain ⟨rfl, hd0⟩ := cons_prefix_cons.mp hp
      exact absurd (by rw [prefix_nil.mp hd0]) hd'
    | cons c' cs =>
      have hsplit : pre ++ c :: c' :: cs = (pre ++ [c]) ++ c' :: cs := by simp
      rw [Reach, ih (by simp), hsplit, ← and_assoc]
      refine and_congr_left (fun _ => ?_)
      simp only [and_true]
      constructor
      · rintro ⟨hc, h⟩ d hd hd' hp
        cases d with
        | nil => exact absurd rfl hd
        | cons x d =>
          obtain ⟨rfl, hp'⟩ := cons_prefix_cons.mp hp
          by_cases hd0 : d = []
          · subst hd0; exact hc
          · have := h d hd0 (fun e => hd' (by rw [e])) hp'
            simpa using this
      · intro h
        refine ⟨h [c] (by simp) (by simp) (by simp), fun d hd hd' hp => ?_⟩
        have := h (c :: d) (by simp) (by simpa using hd') (by simpa using hp)
        simpa using this

end Listing

/-- What a path that is not in the listings resolves to. -/
inductive Found where
  | dir
  | file (entry : Entry)

structure Tree where
  rootName : GoString
  listing : Listing
  wf : listing.WF
  ignoreFiles : Ignore.IgnoreFiles
  outside : Rel → Option Found

namespace Tree

/-- The ignore policy of the tree; none is a load error. -/
def ignores (tc : Toolchain) (T : Tree) : Option Ignore.Matcher :=
  Ignore.load tc.regexpTooLarge T.ignoreFiles

variable (ign : GoString → Bool → Bool)

/-- The non-directories a walk from the root reaches, by their keys. -/
def walk (skip : GoString → Bool) (T : Tree) : List (GoString × Entry) :=
  (T.listing.walk ign skip []).map (fun pe => (join pe.1, pe.2))

theorem walk_keys_nodup (skip : GoString → Bool) (T : Tree) : ((T.walk ign skip).map Prod.fst).Nodup := by
  have hmap : (T.walk ign skip).map Prod.fst = ((T.listing.walk ign skip []).map Prod.fst).map join := by
    simp [walk, Function.comp_def]
  rw [hmap]
  refine List.Nodup.map_on ?_ (Listing.walk_nodup [] T.wf)
  intro p hp q hq he
  obtain ⟨⟨p', e₁⟩, hp', rfl⟩ := mem_map.mp hp
  obtain ⟨⟨q', e₂⟩, hq', rfl⟩ := mem_map.mp hq
  have h₁ := ((Listing.mem_walk [] T.wf).mp (by simpa using hp')).1
  have h₂ := ((Listing.mem_walk [] T.wf).mp (by simpa using hq')).1
  exact join_injective (Listing.ne_nil_of_lookup h₁) (Listing.ne_nil_of_lookup h₂)
    (Listing.valid_of_lookup T.wf h₁) (Listing.valid_of_lookup T.wf h₂) he

theorem mem_walk {ign : GoString → Bool → Bool} {skip : GoString → Bool} {T : Tree} {k : GoString}
    {e : Entry} : (k, e) ∈ T.walk ign skip ↔
      ∃ p, k = join p ∧ T.listing.lookup p = some (.file e) ∧ Listing.Reach ign skip [] p := by
  simp only [walk, mem_map, Prod.mk.injEq, Prod.exists]
  constructor
  · rintro ⟨p, e', h, rfl, rfl⟩
    exact ⟨p, rfl, (Listing.mem_walk [] T.wf).mp (by simpa using h)⟩
  · rintro ⟨p, rfl, h⟩
    exact ⟨p, e, by simpa using (Listing.mem_walk [] T.wf).mpr h, rfl, rfl⟩

end Tree

end CodeMemory.Crawl
