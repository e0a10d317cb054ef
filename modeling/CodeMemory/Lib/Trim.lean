import CodeMemory.Lib.Utf8

/-! What `strings.TrimSpace` leaves alone: a text is trimmed exactly when no white
space starts or ends it, and trimming twice is trimming once. -/

namespace CodeMemory.Lib.GoString

open List

/-- None of the encodings starts the text. -/
def StartsClean (encodings : List GoString) (s : GoString) : Prop := ∀ w ∈ encodings, ¬ w <+: s

variable {encodings : List GoString} {s : GoString}

theorem find?_eq_none_iff : encodings.find? (fun w => w.isPrefixOf s) = none ↔ StartsClean encodings s := by
  simp [StartsClean, List.find?_eq_none]

theorem dropSpaces_of_clean (h : StartsClean encodings s) (n : Nat) : dropSpaces encodings n s = s := by
  cases n with
  | zero => rfl
  | succ n => rw [dropSpaces, find?_eq_none_iff.mpr h]

theorem dropSpaces_suffix (encodings : List GoString) (n : Nat) (s : GoString) :
    dropSpaces encodings n s <:+ s := by
  induction n generalizing s with
  | zero => exact suffix_rfl
  | succ n ih =>
    rw [dropSpaces]
    split
    · exact (ih _).trans (drop_suffix _ _)
    · exact suffix_rfl

/-- Every encoding takes at least one byte, so the length bounds the steps. -/
theorem startsClean_dropSpaces (he : ∀ w ∈ encodings, w ≠ []) (n : Nat)
    (s : GoString) (hn : s.length ≤ n) : StartsClean encodings (dropSpaces encodings n s) := by
  induction n generalizing s with
  | zero =>
    obtain rfl := length_eq_zero_iff.mp (Nat.le_zero.mp hn)
    intro w hw hp
    exact he w hw (prefix_nil.mp hp)
  | succ n ih =>
    rw [dropSpaces]
    split
    · rename_i w hw
      apply ih
      have hpos := length_pos_iff.mpr (he w (mem_of_find?_eq_some hw))
      rw [length_drop]
      omega
    · rename_i hw
      exact find?_eq_none_iff.mp hw

theorem StartsClean.of_prefix {t : GoString} (h : StartsClean encodings t) (hp : s <+: t) : StartsClean encodings s :=
  fun w hw hs => h w hw (hs.trans hp)

variable {b : UInt8}

/-- A byte that occurs in no encoding protects what stands before it. -/
theorem StartsClean.append_cons (h : StartsClean encodings s)
    (hb : ∀ w ∈ encodings, b ∉ w) (t : GoString) : StartsClean encodings (s ++ b :: t) := by
  intro w hw hp
  rcases prefix_or_prefix_of_prefix hp (prefix_append s (b :: t)) with hs | ⟨r, rfl⟩
  · exact h w hw hs
  · cases r with
    | nil => exact h _ hw (by simp)
    | cons c r =>
      rw [prefix_append_right_inj, cons_prefix_cons] at hp
      exact hb _ hw (by simp [hp.1])

theorem spaces_ne_nil : ∀ w ∈ spaces, w ≠ [] := by decide

theorem reverse_spaces_ne_nil : ∀ w ∈ spaces.map List.reverse, w ≠ [] := by decide

/-- No white space starts or ends the text. -/
structure Trimmed (s : GoString) : Prop where
  left : StartsClean spaces s
  right : StartsClean (spaces.map List.reverse) s.reverse

theorem trimSpace_of_trimmed (h : Trimmed s) : trimSpace s = s := by
  rw [trimSpace, trimLeft, dropSpaces_of_clean h.left, trimRight, dropSpaces_of_clean h.right,
    reverse_reverse]

theorem trimmed_trimSpace (s : GoString) : Trimmed (trimSpace s) := by
  have hleft : StartsClean spaces (trimLeft s) := startsClean_dropSpaces spaces_ne_nil _ s le_rfl
  have hright : StartsClean (spaces.map List.reverse) (trimSpace s).reverse := by
    rw [trimSpace, trimRight, reverse_reverse]
    exact startsClean_dropSpaces reverse_spaces_ne_nil _ _ (by simp)
  refine ⟨hleft.of_prefix ?_, hright⟩
  rw [trimSpace, trimRight, ← reverse_suffix, reverse_reverse]
  exact dropSpaces_suffix _ _ _

@[simp] theorem trimSpace_trimSpace (s : GoString) : trimSpace (trimSpace s) = trimSpace s :=
  trimSpace_of_trimmed (trimmed_trimSpace s)

/-- A trimmed text stays trimmed when it is followed by a text without white space. -/
theorem Trimmed.append (h : Trimmed s) {c : UInt8} (hb : ∀ w ∈ spaces, b ∉ w)
    (hc : ∀ w ∈ spaces, c ∉ w) (t : GoString) : Trimmed (s ++ b :: (t ++ [c])) := by
  refine ⟨h.left.append_cons hb _, ?_⟩
  have hrev : (s ++ b :: (t ++ [c])).reverse = [] ++ c :: (t.reverse ++ b :: s.reverse) := by simp
  rw [hrev]
  refine StartsClean.append_cons (fun w hw hp => ?_) (fun w hw => ?_) _
  · exact reverse_spaces_ne_nil w hw (prefix_nil.mp hp)
  · obtain ⟨v, hv, rfl⟩ := mem_map.mp hw
    simpa using hc v hv

/-- A byte that occurs in no encoding stays. -/
theorem mem_dropSpaces (hb : ∀ w ∈ encodings, b ∉ w) (n : Nat) (h : b ∈ s) : b ∈ dropSpaces encodings n s := by
  induction n generalizing s with
  | zero => exact h
  | succ n ih =>
    rw [dropSpaces]
    split
    · rename_i w hw
      apply ih
      have hprefix : w.isPrefixOf s = true := List.find?_some (p := fun w : GoString => w.isPrefixOf s) hw
      obtain ⟨t, rfl⟩ := isPrefixOf_iff_prefix.mp hprefix
      rw [drop_left]
      exact (mem_append.mp h).resolve_left (hb w (mem_of_find?_eq_some hw))
    · exact h

theorem mem_trimSpace (hb : ∀ w ∈ spaces, b ∉ w) (h : b ∈ s) : b ∈ trimSpace s := by
  have hb' : ∀ w ∈ spaces.map List.reverse, b ∉ w := by
    intro w hw
    obtain ⟨v, hv, rfl⟩ := mem_map.mp hw
    rw [mem_reverse]
    exact hb v hv
  rw [trimSpace, trimRight, mem_reverse]
  exact mem_dropSpaces hb' _ (mem_reverse.mpr (mem_dropSpaces hb _ h))

theorem mem_toValid_of_invalid (h : validString s ≠ true) : 0xEF ∈ toValid s := by
  induction s using chunk_induction with
  | nil => exact absurd rfl h
  | rune e r t he ih =>
    rw [he.validString_append] at h
    rw [he.toValid_append]
    exact mem_append_right _ (ih h)
  | invalid b t hb _ =>
    rw [toValid_invalid hb]
    exact mem_append_left _ (by decide)

/-- A text that is not blank is not blank when its invalid bytes are replaced. -/
theorem trimSpace_toValid_ne_nil (h : trimSpace s ≠ []) : trimSpace (toValid s) ≠ [] := by
  by_cases hv : validString s = true
  · rwa [(toValid_eq_self_iff s).mpr hv]
  · exact ne_nil_of_mem (mem_trimSpace (by decide) (mem_toValid_of_invalid hv))

end CodeMemory.Lib.GoString
