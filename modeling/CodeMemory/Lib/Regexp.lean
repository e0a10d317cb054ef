import CodeMemory.Lib.GoString
import CodeMemory.Lib.Regex

/-! A subset of the syntax of Go's `regexp` package, for expressions anchored at
both ends: literals and escaped punctuation, bracket expressions, a bracket
expression or `.` under `*`, and the two optional groups `(?:.*/)?` and
`(?:/.*)?`. Bracket expressions follow the package's own rules: a first `]` is
literal, `[:name:]` is a POSIX class, a range that runs backwards and a missing
`]` are errors. `parse` reads the text after the leading `^` up to and including
the closing `$`. -/

namespace CodeMemory.Lib.Regexp

open Regex List

def char (c : Char) : Regex Rune := sym (fun r => r == c.toNat)

def newline : Rune := 0x0A

/-- `.` without the `s` flag. -/
def dot : Regex Rune := sym (fun r => r != newline)

def slash : Regex Rune := char '/'

/-- The characters `regexp.QuoteMeta` escapes. -/
def special : List Char := "\\.+*?()|[]{}^$".toList

def quoteMeta (cs : List Char) : List Char :=
  cs.flatMap (fun c => if c ∈ special then ['\\', c] else [c])

def between (lo hi : Char) (r : Rune) : Bool := lo.toNat ≤ r && r ≤ hi.toNat

/-- The ASCII classes that may stand as `[:name:]`. -/
def posixGroup (name : List Char) : Option (Rune → Bool) :=
  let digit := between '0' '9'
  let lower := between 'a' 'z'
  let upper := between 'A' 'Z'
  let alpha := fun r => lower r || upper r
  if name = "alnum".toList then some (fun r => digit r || alpha r)
  else if name = "alpha".toList then some alpha
  else if name = "ascii".toList then some (fun r => r ≤ 0x7F)
  else if name = "blank".toList then some (fun r => r == 0x09 || r == 0x20)
  else if name = "cntrl".toList then some (fun r => r ≤ 0x1F || r == 0x7F)
  else if name = "digit".toList then some digit
  else if name = "graph".toList then some (between '!' '~')
  else if name = "lower".toList then some lower
  else if name = "print".toList then some (between ' ' '~')
  else if name = "punct".toList then
    some (fun r => between '!' '/' r || between ':' '@' r || between '[' '\x60' r || between '\x7b' '~' r)
  else if name = "space".toList then some (fun r => (0x09 ≤ r && r ≤ 0x0D) || r == 0x20)
  else if name = "upper".toList then some upper
  else if name = "word".toList then some (fun r => digit r || alpha r || r == '_'.toNat)
  else if name = "xdigit".toList then some (fun r => digit r || between 'A' 'F' r || between 'a' 'f' r)
  else none

/-- The text up to the first `:]` and the text after it. -/
def untilColon : List Char → Option (List Char × List Char)
  | ':' :: ']' :: t => some ([], t)
  | c :: t => (untilColon t).map (fun nt => (c :: nt.1, nt.2))
  | [] => none

/-- The class named in text that follows `[:`: no class if no `:]` follows, and
an error (`some none`) for an unknown name. -/
def namedClass (t : List Char) : Option (Option ((Rune → Bool) × List Char)) :=
  match untilColon t with
  | none => none
  | some ('^' :: name, rest) => some ((posixGroup name).map (fun p => (fun r => !p r, rest)))
  | some (name, rest) => some ((posixGroup name).map (fun p => (p, rest)))

def classChar : List Char → Option (Char × List Char)
  | [] => none
  | ['\\'] => none
  | '\\' :: c :: t => some (c, t)
  | c :: t => some (c, t)

/-- A single character or a range. -/
def classRange (t : List Char) : Option ((Rune → Bool) × List Char) :=
  match classChar t with
  | none => none
  | some (lo, '-' :: c :: t) =>
    if c = ']' then some (between lo lo, '-' :: c :: t)
    else match classChar (c :: t) with
      | none => none
      | some (hi, t) => if hi.toNat < lo.toNat then none else some (between lo hi, t)
  | some (lo, t) => some (between lo lo, t)

def classItem (t : List Char) : Option ((Rune → Bool) × List Char) :=
  match t with
  | '[' :: ':' :: u => (namedClass u).getD (classRange t)
  | _ => classRange t

/-- The items of a bracket expression up to and including the closing `]`. -/
def classItems : Nat → Bool → List Char → Option ((Rune → Bool) × List Char)
  | 0, _, _ => none
  | n + 1, first, t =>
    if t.head? = some ']' ∧ first = false then some (fun _ => false, t.tail)
    else match classItem t with
      | none => none
      | some (p, t) => (classItems n false t).map (fun qt => (fun r => p r || qt.1 r, qt.2))

/-- A bracket expression, from the text after its `[`. Negation matches a newline too. -/
def bracket (t : List Char) : Option ((Rune → Bool) × List Char) :=
  match t with
  | '^' :: t => (classItems (t.length + 1) true t).map (fun pt => (fun r => !pt.1 r, pt.2))
  | t => classItems (t.length + 1) true t

def upText : List Char := ['(', '?', ':', '.', '*', '/', ')', '?']

def downText : List Char := ['(', '?', ':', '/', '.', '*', ')', '?']

def anyText : List Char := ['.', '*']

/-- The first operand of a concatenation, with its repetition. -/
def operand (t : List Char) : Option (Regex Rune × List Char) :=
  if upText <+: t then some (opt (cat (star dot) slash), t.drop upText.length)
  else if downText <+: t then some (opt (cat slash (star dot)), t.drop downText.length)
  else if anyText <+: t then some (star dot, t.drop anyText.length)
  else match t with
    | '\\' :: c :: t => some (char c, t)
    | '[' :: t =>
      match bracket t with
      | none => none
      | some (p, '*' :: t) => some (star (sym p), t)
      | some (p, t) => some (sym p, t)
    | c :: t => if c ∈ special then none else some (char c, t)
    | [] => none

def parseFrom : Nat → List Char → Option (Regex Rune)
  | 0, _ => none
  | n + 1, t =>
    if t = ['$'] then some eps
    else match operand t with
      | none => none
      | some (a, t) => (parseFrom n t).map (cat a)

/-- The expression whose text follows the leading `^`. -/
def parse (t : List Char) : Option (Regex Rune) := parseFrom t.length t

variable {t rest b : List Char}

theorem untilColon_rest {name : List Char} (h : untilColon t = some (name, rest)) : ∃ u, t = u ++ rest := by
  induction t using untilColon.induct generalizing name with
  | case1 t =>
    simp only [untilColon, Option.some.injEq, Prod.mk.injEq] at h
    exact ⟨[':', ']'], by simp [h.2]⟩
  | case2 c t hc ih =>
    rw [untilColon] at h
    · obtain ⟨⟨n, r⟩, hn, he⟩ := Option.map_eq_some_iff.mp h
      cases he
      obtain ⟨u, rfl⟩ := ih hn
      exact ⟨c :: u, rfl⟩
    · exact hc
  | case3 => simp [untilColon] at h

variable {p : Rune → Bool}

theorem namedClass_rest (h : namedClass t = some (some (p, rest))) : ∃ u, t = u ++ rest := by
  unfold namedClass at h
  split at h
  · cases h
  all_goals
    rename_i hu
    obtain ⟨q, -, he⟩ := Option.map_eq_some_iff.mp (Option.some.inj h)
    cases he
    exact untilColon_rest hu

theorem classChar_rest {c : Char} (h : classChar t = some (c, rest)) : ∃ u, t = u ++ rest := by
  unfold classChar at h
  split at h
  · cases h
  · cases h
  · obtain ⟨-, rfl⟩ := Prod.mk.inj (Option.some.inj h)
    rename_i c t
    exact ⟨['\\', c], rfl⟩
  · obtain ⟨-, rfl⟩ := Prod.mk.inj (Option.some.inj h)
    rename_i c t _ _
    exact ⟨[c], rfl⟩

theorem classRange_rest (h : classRange t = some (p, rest)) : ∃ u, t = u ++ rest := by
  unfold classRange at h
  split at h
  · cases h
  · rename_i lo c t' hc
    obtain ⟨u, rfl⟩ := classChar_rest hc
    split_ifs at h
    · cases h
      exact ⟨u, rfl⟩
    · split at h
      · cases h
      · rename_i hi t'' hc'
        split_ifs at h
        cases h
        obtain ⟨v, hv⟩ := classChar_rest hc'
        exact ⟨u ++ '-' :: v, by simp [hv]⟩
  · rename_i lo t' _ hc
    cases h
    exact classChar_rest hc

theorem classItem_rest (h : classItem t = some (p, rest)) : ∃ u, t = u ++ rest := by
  unfold classItem at h
  split at h
  · rename_i u
    cases hn : namedClass u with
    | none => rw [hn] at h; exact classRange_rest h
    | some o =>
      rw [hn] at h
      subst h
      obtain ⟨v, rfl⟩ := namedClass_rest hn
      exact ⟨'[' :: ':' :: v, rfl⟩
  · exact classRange_rest h

variable {n : Nat} {a r : Regex Rune} {w : List Rune} {u : List Char}

/-- A bracket expression ends with a `]` of its text. -/
theorem classItems_rest {first : Bool} (h : classItems n first t = some (p, rest)) : ∃ u, t = u ++ ']' :: rest := by
  induction n generalizing first t p with
  | zero => cases h
  | succ n ih =>
    rw [classItems] at h
    split_ifs at h with hclose
    · cases h
      exact ⟨[], (cons_head?_tail hclose.1).symm⟩
    · split at h
      · cases h
      · rename_i q t' hi
        obtain ⟨⟨q', r⟩, hr, he⟩ := Option.map_eq_some_iff.mp h
        cases he
        obtain ⟨u, rfl⟩ := classItem_rest hi
        obtain ⟨v, rfl⟩ := ih hr
        exact ⟨u ++ v, by simp⟩

theorem bracket_rest (h : bracket t = some (p, rest)) : ∃ u, t = u ++ ']' :: rest := by
  unfold bracket at h
  split at h
  · obtain ⟨⟨q, r⟩, hr, he⟩ := Option.map_eq_some_iff.mp h
    cases he
    obtain ⟨u, rfl⟩ := classItems_rest hr
    exact ⟨'^' :: u, rfl⟩
  · exact classItems_rest h

/-- The text that lets an expression match everything below what it matches. -/
def belowText : List Char := downText ++ ['$']

/-- A match stays a match when a slash and text without a newline follow it. -/
def Below (r : Regex Rune) : Prop :=
  ∀ s t, Matches r s → newline ∉ t → Matches r (s ++ 0x2F :: t)

theorem Below.cat {b : Regex Rune} (hb : Below b) : Below (cat a b) := by
  rintro s t ⟨u, v, rfl, hu, hv⟩ ht
  exact ⟨u, v ++ 0x2F :: t, by simp, hu, hb v t hv ht⟩

theorem matches_star_dot : Matches (star dot) w ↔ newline ∉ w := by
  rw [dot, matches_star_sym]
  constructor
  · intro h hn; simpa using h newline hn
  · intro h c hc; simp only [bne_iff_ne, ne_eq]; rintro rfl; exact h hc

theorem matches_slash_star_dot : Matches (Regex.cat slash (star dot)) w ↔ ∃ v, w = 0x2F :: v ∧ newline ∉ v := by
  constructor
  · rintro ⟨u, v, rfl, ⟨c, rfl, hc⟩, hv⟩
    have : c = 0x2F := by simpa using hc
    exact ⟨v, by simp [this], matches_star_dot.mp hv⟩
  · rintro ⟨v, rfl, hv⟩
    exact ⟨[0x2F], v, rfl, ⟨0x2F, rfl, by decide⟩, matches_star_dot.mpr hv⟩

theorem below_opt_slash_star_dot :
    Below (Regex.cat (opt (Regex.cat slash (star dot))) eps) := by
  rintro s t ⟨u, v, rfl, hu, rfl⟩ ht
  refine ⟨u ++ 0x2F :: t, [], by simp, Or.inr (matches_slash_star_dot.mpr ?_), rfl⟩
  rcases hu with rfl | hu
  · exact ⟨t, rfl, ht⟩
  · obtain ⟨w, rfl, hw⟩ := matches_slash_star_dot.mp hu
    refine ⟨w ++ 0x2F :: t, rfl, ?_⟩
    rw [mem_append, mem_cons, not_or, not_or]
    exact ⟨hw, by decide, ht⟩

/-- A token of the text that the closing text neither starts nor completes stands
before the closing text. -/
theorem token_before (hb : b ≠ []) (h : b ++ belowText = u ++ t)
    (hu : ∀ i < u.length, i ≠ 0 → ¬ u.drop i <+: belowText) : ∃ c, t = c ++ belowText ∧ b = u ++ c := by
  rcases append_eq_append_iff.mp h with ⟨a, rfl, ha⟩ | ⟨c, rfl, hc⟩
  · cases a with
    | nil => exact ⟨[], by simpa using ha.symm, by simp⟩
    | cons x a =>
      refine absurd ?_ (hu b.length (by simp) (by simpa using hb))
      rw [drop_left]
      exact ⟨t, ha.symm⟩
  · exact ⟨c, hc, rfl⟩

theorem token_before_drop (hb : b ≠ []) (h : u <+: b ++ belowText)
    (hu : ∀ i < u.length, i ≠ 0 → ¬ u.drop i <+: belowText) :
    ∃ c, (b ++ belowText).drop u.length = c ++ belowText ∧ b = u ++ c := by
  obtain ⟨t, ht⟩ := h
  rw [← ht, drop_left]
  exact token_before hb ht.symm hu

/-- No operand reaches into the closing text: no bracket expression or escape can
absorb it. -/
theorem operand_before (hb : b ≠ []) (hesc : b.getLast? ≠ some '\\') (h : operand (b ++ belowText) = some (a, rest)) :
    ∃ u c, rest = c ++ belowText ∧ b = u ++ c := by
  unfold operand at h
  split_ifs at h with h1 h2 h3
  · cases h
    exact ⟨_, token_before_drop hb h1 (by decide)⟩
  · cases h
    exact ⟨_, token_before_drop hb h2 (by decide)⟩
  · cases h
    exact ⟨_, token_before_drop hb h3 (by decide)⟩
  · obtain ⟨x, b, rfl⟩ := exists_cons_of_ne_nil hb
    split at h
    · rename_i c t ht
      obtain ⟨-, rfl⟩ := Prod.mk.inj (Option.some.inj h)
      obtain ⟨rfl, ht⟩ : x = '\\' ∧ b ++ belowText = c :: t := by simpa using ht
      cases b with
      | nil => exact absurd rfl hesc
      | cons y b => exact ⟨['\\', y], b, by simp_all, rfl⟩
    · rename_i t ht
      obtain ⟨rfl, rfl⟩ : x = '[' ∧ b ++ belowText = t := by simpa using ht
      have hclose : ∀ {p rest}, bracket (b ++ belowText) = some (p, rest) →
          ∃ u c, rest = c ++ belowText ∧ b = u ++ ']' :: c := by
        intro p rest hp
        obtain ⟨u, hu⟩ := bracket_rest hp
        rcases append_eq_append_iff.mp hu with ⟨v, -, hv⟩ | ⟨v, rfl, hv⟩
        · exact absurd (hv ▸ (by simp) : ']' ∈ belowText) (by decide)
        · cases v with
          | nil => exact absurd (List.cons.inj hv).1 (by decide)
          | cons y v =>
            obtain ⟨rfl, rfl⟩ := List.cons.inj hv
            exact ⟨u, v, rfl, rfl⟩
      split at h
      · cases h
      · rename_i p t hp
        cases h
        obtain ⟨u, c, hc, rfl⟩ := hclose hp
        cases c with
        | nil => simp [belowText, downText] at hc
        | cons y c => exact ⟨'[' :: u ++ [']', y], c, by simp_all, by simp⟩
      · rename_i p t _ hp
        cases h
        obtain ⟨u, c, rfl, rfl⟩ := hclose hp
        exact ⟨'[' :: u ++ [']'], c, rfl, by simp⟩
    · rename_i c t _ _ ht
      split_ifs at h
      cases h
      exact ⟨[x], b, by simp_all, rfl⟩
    · cases h

/-- An expression whose text ends in `(?:/.*)?$` matches everything below what it
matches. -/
theorem parseFrom_below (hesc : b.getLast? ≠ some '\\') (h : parseFrom n (b ++ belowText) = some r) : Below r := by
  induction n generalizing b r with
  | zero => cases h
  | succ n ih =>
    by_cases hb : b = []
    · subst hb
      cases n with
      | zero => cases h
      | succ n =>
        obtain rfl : _ = r := Option.some.inj h
        exact below_opt_slash_star_dot
    · have hlen : b ++ belowText ≠ ['$'] := by
        intro he
        simpa [belowText, downText] using congrArg List.length he
      rw [parseFrom, if_neg hlen] at h
      split at h
      · cases h
      · rename_i a t ha
        obtain ⟨u, c, rfl, rfl⟩ := operand_before hb hesc ha
        obtain ⟨q, hq, rfl⟩ := Option.map_eq_some_iff.mp h
        refine (ih ?_ hq).cat
        intro hc
        exact hesc (by rw [List.getLast?_append, hc]; rfl)

theorem parse_below (hesc : b.getLast? ≠ some '\\') (h : parse (b ++ belowText) = some r) : Below r :=
  parseFrom_below hesc h

end CodeMemory.Lib.Regexp
