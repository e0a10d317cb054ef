import Mathlib

/-! Go strings: arbitrary byte sequences, read as UTF-8 only where a function
asks for runes. An invalid byte reads as `U+FFFD` of width one, as in a `range`
loop over a string. `trimSpace` removes the code points of `unicode.IsSpace`. -/

namespace CodeMemory.Lib

abbrev GoString := List UInt8

instance : LawfulBEq GoString := inferInstanceAs (LawfulBEq (List UInt8))

abbrev Rune := Nat

namespace GoString

def lit (s : String) : GoString := s.toList.flatMap String.utf8EncodeChar

def hasPrefix (s p : GoString) : Bool := p.isPrefixOf s

def hasSuffix (s p : GoString) : Bool := p.isSuffixOf s

def trimPrefix (s p : GoString) : GoString := if hasPrefix s p then s.drop p.length else s

def trimSuffix (s p : GoString) : GoString :=
  if hasSuffix s p then s.take (s.length - p.length) else s

def cont (b : UInt8) : Bool := 0x80 ≤ b && b ≤ 0xBF

/-- The range of the second byte of a three-byte or four-byte sequence, which
excludes overlong forms, surrogates and code points past `U+10FFFF`. -/
def secondOk (b0 b1 : UInt8) : Bool :=
  if b0 = 0xE0 then 0xA0 ≤ b1 && b1 ≤ 0xBF
  else if b0 = 0xED then 0x80 ≤ b1 && b1 ≤ 0x9F
  else if b0 = 0xF0 then 0x90 ≤ b1 && b1 ≤ 0xBF
  else if b0 = 0xF4 then 0x80 ≤ b1 && b1 ≤ 0x8F
  else cont b1

/-- The code point and width of the valid encoding a string starts with. -/
def validRune? : GoString → Option (Rune × Nat)
  | [] => none
  | b0 :: t =>
    if b0 < 0x80 then some (b0.toNat, 1)
    else if 0xC2 ≤ b0 && b0 ≤ 0xDF then
      match t with
      | b1 :: _ => if cont b1 then some ((b0.toNat - 0xC0) * 64 + (b1.toNat - 0x80), 2) else none
      | _ => none
    else if 0xE0 ≤ b0 && b0 ≤ 0xEF then
      match t with
      | b1 :: b2 :: _ =>
        if secondOk b0 b1 && cont b2 then
          some ((b0.toNat - 0xE0) * 4096 + (b1.toNat - 0x80) * 64 + (b2.toNat - 0x80), 3)
        else none
      | _ => none
    else if 0xF0 ≤ b0 && b0 ≤ 0xF4 then
      match t with
      | b1 :: b2 :: b3 :: _ =>
        if secondOk b0 b1 && cont b2 && cont b3 then
          some ((b0.toNat - 0xF0) * 262144 + (b1.toNat - 0x80) * 4096 +
            (b2.toNat - 0x80) * 64 + (b3.toNat - 0x80), 4)
        else none
      | _ => none
    else none

def runeError : Rune := 0xFFFD

/-- The runes of a string from a position `skip` bytes ahead. -/
def runesFrom : Nat → GoString → List Rune
  | _, [] => []
  | skip + 1, _ :: t => runesFrom skip t
  | 0, b :: t =>
    match validRune? (b :: t) with
    | some (r, w) => r :: runesFrom (w - 1) t
    | none => runeError :: runesFrom 0 t

/-- `for _, r := range s`. -/
def runes (s : GoString) : List Rune := runesFrom 0 s

/-- The code points of a valid UTF-8 string from a position `skip` bytes ahead. -/
def strictRunesFrom : Nat → GoString → Option (List Rune)
  | _, [] => some []
  | skip + 1, _ :: t => strictRunesFrom skip t
  | 0, b :: t =>
    match validRune? (b :: t) with
    | some (r, w) => (strictRunesFrom (w - 1) t).map (r :: ·)
    | none => none

def strictRunes (s : GoString) : Option (List Rune) := strictRunesFrom 0 s

/-- The encoding of a code point that has one. -/
def encodeScalar (c : ℕ) : GoString :=
  if c < 0x80 then [c.toUInt8]
  else if c < 0x800 then [(0xC0 + c / 64).toUInt8, (0x80 + c % 64).toUInt8]
  else if c < 0x10000 then
    [(0xE0 + c / 4096).toUInt8, (0x80 + c / 64 % 64).toUInt8, (0x80 + c % 64).toUInt8]
  else [(0xF0 + c / 262144).toUInt8, (0x80 + c / 4096 % 64).toUInt8, (0x80 + c / 64 % 64).toUInt8,
    (0x80 + c % 64).toUInt8]

/-- `utf8.AppendRune`: surrogates and numbers past `U+10FFFF` are written as `U+FFFD`. -/
def encodeRune (r : Rune) : GoString :=
  let c : ℕ := r
  encodeScalar (if (0xD800 ≤ c ∧ c ≤ 0xDFFF) ∨ 0x10FFFF < c then runeError else c)

def encodeRunes (rs : List Rune) : GoString := rs.flatMap encodeRune

variable {s : GoString} {b : UInt8}

theorem cont_bounds (h : cont b) : 0x80 ≤ b.toNat := by
  simp only [cont, Bool.and_eq_true, decide_eq_true_eq] at h
  exact UInt8.le_iff_toNat_le.mp h.1

/-- The range of second bytes, with the least ones that exclude the overlong forms. -/
theorem secondOk_bounds {b0 : UInt8} (h : secondOk b0 b) : 0x80 ≤ b.toNat ∧ b.toNat ≤ 0xBF ∧
    (b0.toNat = 0xE0 → 0xA0 ≤ b.toNat) ∧ (b0.toNat = 0xF0 → 0x90 ≤ b.toNat) := by
  unfold secondOk at h
  split_ifs at h <;> simp only [cont, Bool.and_eq_true, decide_eq_true_eq, UInt8.le_iff_toNat_le, ← UInt8.toNat_inj,
    UInt8.reduceToNat] at * <;> omega

/-- The forms of a valid encoding at the start of a string, with its width. -/
inductive Encoded : GoString → Rune → Nat → Prop
  | one {b0 : UInt8} (t : GoString) (h1 : b0 < 0x80) : Encoded (b0 :: t) b0.toNat 1
  | two {b0 b1 : UInt8} (t : GoString) (h1 : ¬ b0 < 0x80) (h2 : 0xC2 ≤ b0 && b0 ≤ 0xDF) (tail : cont b1) :
    Encoded (b0 :: b1 :: t) ((b0.toNat - 0xC0) * 64 + (b1.toNat - 0x80)) 2
  | three {b0 b1 b2 : UInt8} (t : GoString) (h1 : ¬ b0 < 0x80) (h2 : ¬ (0xC2 ≤ b0 && b0 ≤ 0xDF))
    (h3 : 0xE0 ≤ b0 && b0 ≤ 0xEF) (tail : secondOk b0 b1 && cont b2) :
    Encoded (b0 :: b1 :: b2 :: t) ((b0.toNat - 0xE0) * 4096 + (b1.toNat - 0x80) * 64 + (b2.toNat - 0x80)) 3
  | four {b0 b1 b2 b3 : UInt8} (t : GoString) (h1 : ¬ b0 < 0x80) (h2 : ¬ (0xC2 ≤ b0 && b0 ≤ 0xDF))
    (h3 : ¬ (0xE0 ≤ b0 && b0 ≤ 0xEF)) (h4 : 0xF0 ≤ b0 && b0 ≤ 0xF4) (tail : secondOk b0 b1 && cont b2 && cont b3) :
    Encoded (b0 :: b1 :: b2 :: b3 :: t) ((b0.toNat - 0xF0) * 262144 + (b1.toNat - 0x80) * 4096 +
      (b2.toNat - 0x80) * 64 + (b3.toNat - 0x80)) 4

variable {r : Rune} {w skip : Nat} {t : GoString}

theorem encoded_of_validRune? (h : validRune? s = some (r, w)) : Encoded s r w := by
  unfold validRune? at h
  split at h
  · cases h
  · split_ifs at h with h1 h2 h3 h4 <;> (try split at h) <;> (try split_ifs at h with h5) <;>
      simp only [Option.some.injEq, Prod.mk.injEq, reduceCtorEq] at h <;> obtain ⟨rfl, rfl⟩ := h
    · exact .one _ h1
    · exact .two _ h1 h2 h5
    · exact .three _ h1 h2 h3 h5
    · exact .four _ h1 h2 h3 h4 h5

/-- An ASCII byte ends every encoding that was open before it. -/
theorem validRune?_append_ascii (hs : s ≠ []) (hb : b < 0x80) : validRune? (s ++ b :: t) = validRune? s := by
  have hb' : ¬ 0x80 ≤ b.toNat := Nat.not_le.mpr (UInt8.lt_iff_toNat_lt.mp hb)
  have hc : ¬ cont b := fun h => hb' (cont_bounds h)
  have hsec : ∀ b0, ¬ secondOk b0 b := fun b0 h => hb' (secondOk_bounds h).1
  match s, hs with
  | [b0], _ => rcases t with _ | ⟨b2, _ | ⟨b3, t⟩⟩ <;> simp [validRune?, hc, hsec]
  | [b0, b1], _ => rcases t with _ | ⟨b3, t⟩ <;> simp [validRune?, hc]
  | [b0, b1, b2], _ => simp [validRune?, hc]
  | b0 :: b1 :: b2 :: b3 :: s, _ => simp [validRune?]

theorem validRune?_width (h : validRune? s = some (r, w)) : 1 ≤ w ∧ w ≤ s.length := by
  cases encoded_of_validRune? h <;> simp

theorem runesFrom_append_ascii (hb : b < 0x80) (t : GoString) : ∀ (s : GoString) (skip : Nat), skip ≤ s.length →
      runesFrom skip (s ++ b :: t) = runesFrom skip s ++ b.toNat :: runes t
  | [], skip, h => by
    obtain rfl : skip = 0 := by simpa using h
    simp [runesFrom, validRune?, hb, runes]
  | c :: s, skip + 1, h => by
    exact runesFrom_append_ascii hb t s skip (by simpa using h)
  | c :: s, 0, _ => by
    have hv := validRune?_append_ascii (s := c :: s) (t := t) (by simp) hb
    simp only [List.cons_append] at hv ⊢
    simp only [runesFrom, hv]
    cases hr : validRune? (c :: s) with
    | none => simp [runesFrom_append_ascii hb t s 0 (Nat.zero_le _)]
    | some rw' =>
      obtain ⟨r, w⟩ := rw'
      have hw := (validRune?_width hr).2
      simp only [List.length_cons] at hw
      simp [runesFrom_append_ascii hb t s (w - 1) (by omega)]

/-- Runes split at an ASCII byte. -/
theorem runes_append_ascii (hb : b < 0x80) (s t : GoString) : runes (s ++ b :: t) = runes s ++ b.toNat :: runes t :=
  runesFrom_append_ascii hb t s 0 (Nat.zero_le _)

/-- Only an ASCII byte encodes an ASCII code point. -/
theorem validRune?_ascii {r : Nat} (h : validRune? (b :: t) = some (r, w)) (hr : r < 0x80) : b.toNat = r := by
  cases encoded_of_validRune? h with
  | one => rfl
  | two t h1 h2 =>
    simp only [Bool.and_eq_true, decide_eq_true_eq, UInt8.le_iff_toNat_le, UInt8.reduceToNat] at h2
    omega
  | three t h1 h2 h3 tail =>
    have hsecond := secondOk_bounds (Bool.and_eq_true_iff.mp tail).1
    simp only [Bool.and_eq_true, decide_eq_true_eq, UInt8.le_iff_toNat_le, UInt8.reduceToNat] at h3
    omega
  | four t h1 h2 h3 h4 tail =>
    simp only [Bool.and_eq_true, decide_eq_true_eq, UInt8.le_iff_toNat_le, UInt8.reduceToNat] at h4 tail
    have hsecond := secondOk_bounds tail.1.1
    omega

theorem mem_of_runesFrom (hb : b < 0x80) (hm : b.toNat ∈ runesFrom skip s) : b ∈ s := by
  have hb' : b.toNat < 0x80 := UInt8.lt_iff_toNat_lt.mp hb
  induction s generalizing skip with
  | nil => simp [runesFrom] at hm
  | cons c t ih =>
    cases skip with
    | succ skip => exact .tail _ (ih hm)
    | zero =>
      rw [runesFrom] at hm
      split at hm
      · rename_i r w hv
        rcases List.mem_cons.mp hm with he | hm
        · have hc : c.toNat = b.toNat := he ▸ validRune?_ascii hv (he ▸ hb')
          rw [UInt8.toNat_inj.mp hc]
          exact (.head _)
        · exact .tail _ (ih hm)
      · rcases List.mem_cons.mp hm with he | hm
        · rw [he] at hb'; exact absurd hb' (by decide)
        · exact .tail _ (ih hm)

theorem runesFrom_of_strict {rs : List Rune} (h : strictRunesFrom skip s = some rs) : runesFrom skip s = rs := by
  induction s generalizing skip rs with
  | nil => simpa [strictRunesFrom, runesFrom] using h
  | cons c t ih =>
    cases skip with
    | succ skip => exact ih h
    | zero =>
      rw [strictRunesFrom] at h
      rw [runesFrom]
      split at h
      · obtain ⟨rs, hrs, rfl⟩ := Option.map_eq_some_iff.mp h
        rw [← ih hrs]
      · cases h

/-- The encodings of the code points of `unicode.IsSpace`. -/
def spaces : List GoString :=
  [[0x09], [0x0A], [0x0B], [0x0C], [0x0D], [0x20], [0xC2, 0x85], [0xC2, 0xA0], [0xE1, 0x9A, 0x80],
    [0xE2, 0x80, 0x80], [0xE2, 0x80, 0x81], [0xE2, 0x80, 0x82], [0xE2, 0x80, 0x83],
    [0xE2, 0x80, 0x84], [0xE2, 0x80, 0x85], [0xE2, 0x80, 0x86], [0xE2, 0x80, 0x87],
    [0xE2, 0x80, 0x88], [0xE2, 0x80, 0x89], [0xE2, 0x80, 0x8A], [0xE2, 0x80, 0xA8],
    [0xE2, 0x80, 0xA9], [0xE2, 0x80, 0xAF], [0xE2, 0x81, 0x9F], [0xE3, 0x80, 0x80]]

/-- Drop up to `n` of the given encodings from the front. -/
def dropSpaces (encodings : List GoString) : Nat → GoString → GoString
  | 0, s => s
  | n + 1, s =>
    match encodings.find? (fun w => w.isPrefixOf s) with
    | some w => dropSpaces encodings n (s.drop w.length)
    | none => s

def trimLeft (s : GoString) : GoString := dropSpaces spaces s.length s

def trimRight (s : GoString) : GoString :=
  (dropSpaces (spaces.map List.reverse) s.length s.reverse).reverse

def trimSpace (s : GoString) : GoString := trimRight (trimLeft s)

theorem dropSpaces_cons {encodings : List GoString} (h : ∀ w ∈ encodings, w.head? ≠ some b ∧ w ≠ [])
    (n : Nat) (t : GoString) : dropSpaces encodings n (b :: t) = b :: t := by
  have hnone : encodings.find? (fun w => w.isPrefixOf (b :: t)) = none := by
    refine List.find?_eq_none.mpr (fun w hw => ?_)
    match w, h w hw with
    | c :: w', hc =>
      have hne : c ≠ b := by simpa using hc.1
      simp [List.isPrefixOf, hne]
  cases n with
  | zero => rfl
  | succ n => rw [dropSpaces, hnone]

/-- A text that starts and ends with bytes that no white space starts or ends with is not trimmed. -/
theorem trimSpace_eq_self {c : UInt8} (hb : ∀ w ∈ spaces, w.head? ≠ some b ∧ w ≠ [])
    (hc : ∀ w ∈ spaces.map List.reverse, w.head? ≠ some c ∧ w ≠ []) (t : GoString) :
    trimSpace (b :: (t ++ [c])) = b :: (t ++ [c]) := by
  have hrev : (b :: (t ++ [c])).reverse = c :: (t.reverse ++ [b]) := by simp
  rw [trimSpace, trimLeft, dropSpaces_cons hb, trimRight, hrev, dropSpaces_cons hc, ← hrev,
    List.reverse_reverse]

end GoString

end CodeMemory.Lib
