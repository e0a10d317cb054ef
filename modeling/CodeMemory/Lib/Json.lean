import CodeMemory.Lib.Decimal
import CodeMemory.Lib.Utf8

/-! JSON text as `encoding/json` writes and reads it. Strings are escaped for HTML,
and an invalid byte is written as `U+FFFD`, so that reading back what was written
gives the value with every string made valid, and the value itself exactly if its
strings are valid. -/

namespace CodeMemory.Lib

inductive Json where
  | null
  | bool (b : Bool)
  | num (text : GoString)
  | str (s : GoString)
  | arr (xs : List Json)
  | obj (fields : List (GoString × Json))

namespace Json

open GoString Decimal List

def quote : UInt8 := 0x22

def backslash : UInt8 := 0x5C

def hexDigit (n : Nat) : UInt8 := if n < 10 then (0x30 + n).toUInt8 else (0x57 + n).toUInt8

def hexValue (b : UInt8) : Option Nat :=
  if 0x30 ≤ b && b ≤ 0x39 then some (b.toNat - 0x30)
  else if 0x61 ≤ b && b ≤ 0x66 then some (b.toNat - 0x57)
  else if 0x41 ≤ b && b ≤ 0x46 then some (b.toNat - 0x37)
  else none

/-- Four hexadecimal digits after a backslash and `u`. -/
def unicodeEscape (n : Nat) : GoString :=
  [backslash, 0x75, hexDigit (n / 4096 % 16), hexDigit (n / 256 % 16), hexDigit (n / 16 % 16),
    hexDigit (n % 16)]

/-- The control characters that have an escape of one letter. -/
def shortEscapes : List (UInt8 × UInt8) :=
  [(0x08, 0x62), (0x0C, 0x66), (0x0A, 0x6E), (0x0D, 0x72), (0x09, 0x74)]

def escapeAscii (b : UInt8) : GoString :=
  if b = quote ∨ b = backslash then [backslash, b]
  else match shortEscapes.find? (fun p => p.1 = b) with
    | some p => [backslash, p.2]
    | none => if b < 0x20 ∨ b = 0x3C ∨ b = 0x3E ∨ b = 0x26 then unicodeEscape b.toNat else [b]

def escapeChunk (c : Option Rune × GoString) : GoString :=
  match c with
  | (none, _) => unicodeEscape runeError
  | (some _, e) =>
    match e with
    | [b] => escapeAscii b
    | e =>
      if e = [0xE2, 0x80, 0xA8] then unicodeEscape 0x2028
      else if e = [0xE2, 0x80, 0xA9] then unicodeEscape 0x2029
      else e

def escape (s : GoString) : GoString := (chunks s).flatMap escapeChunk

def quoted (s : GoString) : GoString := quote :: (escape s ++ [quote])

/-- The byte that an escape of one letter stands for. -/
def shortUnescape (c : UInt8) : Option UInt8 :=
  if c = quote ∨ c = backslash ∨ c = 0x2F then some c
  else (shortEscapes.find? (fun p => p.2 = c)).map Prod.fst

def hex4 (a b c d : UInt8) : Option Nat :=
  match hexValue a, hexValue b, hexValue c, hexValue d with
  | some a, some b, some c, some d => some (((a * 16 + b) * 16 + c) * 16 + d)
  | _, _, _, _ => none

def surrogatePair (hi lo : Nat) : Option Rune :=
  if 0xD800 ≤ hi ∧ hi < 0xDC00 ∧ 0xDC00 ≤ lo ∧ lo < 0xE000 then
    some ((hi - 0xD800) * 1024 + (lo - 0xDC00) + 0x10000)
  else none

/-- The code point of a surrogate `r` and the escape that follows it. -/
def pairAhead (r : Nat) : GoString → Option Rune
  | e₁ :: e₂ :: g₁ :: g₂ :: g₃ :: g₄ :: _ =>
    if e₁ = backslash ∧ e₂ = 0x75 then (hex4 g₁ g₂ g₃ g₄).bind (surrogatePair r) else none
  | _ => none

/-- The text of a string after its opening quote, and what follows its closing one. -/
def unescape : GoString → Option (GoString × GoString)
  | [] => none
  | b :: t =>
    if b = quote then some ([], t)
    else if b = backslash then
      match t with
      | [] => none
      | c :: t =>
        if c = 0x75 then
          match t with
          | h₁ :: h₂ :: h₃ :: h₄ :: t =>
            match hex4 h₁ h₂ h₃ h₄ with
            | none => none
            | some r =>
              match pairAhead r t with
              | none => (unescape t).map (fun x => (encodeRune r ++ x.1, x.2))
              | some r' =>
                match t with
                | _ :: _ :: _ :: _ :: _ :: _ :: t => (unescape t).map (fun x => (encodeRune r' ++ x.1, x.2))
                | _ => none
          | _ => none
        else match shortUnescape c with
          | none => none
          | some x => (unescape t).map (fun y => (x :: y.1, y.2))
    else if b < 0x20 then none
    else (unescape t).map (fun y => (b :: y.1, y.2))

variable {n : Nat} {b : UInt8} {e : GoString} {r : Rune}

theorem hexValue_hexDigit (h : n < 16) : hexValue (hexDigit n) = some n := by
  revert n
  decide

theorem hex4_unicodeEscape (h : n < 0x10000) :
    hex4 (hexDigit (n / 4096 % 16)) (hexDigit (n / 256 % 16)) (hexDigit (n / 16 % 16)) (hexDigit (n % 16)) =
      some n := by
  simp only [hex4, hexValue_hexDigit (Nat.mod_lt _ (by omega : 0 < 16)), Option.some.injEq]
  omega

/-- Reading an escape that is no surrogate. -/
theorem unescape_unicodeEscape (h : n < 0xD800 ∨ 0xDC00 ≤ n) (hn : n < 0x10000) (t : GoString) :
    unescape (unicodeEscape n ++ t) = (unescape t).map (fun x => (encodeRune n ++ x.1, x.2)) := by
  have hpair : ∀ o : Option Nat, o.bind (surrogatePair n) = none := by
    intro o
    cases o with
    | none => rfl
    | some lo => rw [Option.bind_some, surrogatePair, if_neg (by omega)]
  have hahead : pairAhead n t = none := by
    unfold pairAhead
    split
    · simp only [hpair, ite_self]
    · rfl
  have hne : backslash ≠ quote := by decide
  simp only [unicodeEscape, cons_append, nil_append]
  rw [unescape]
  simp only [if_neg hne, if_true, hex4_unicodeEscape hn, hahead]

theorem unescape_quote (t : GoString) : unescape (quote :: t) = some ([], t) := by
  rw [unescape.eq_def]
  simp only [if_true]

theorem unescape_plain (hq : b ≠ quote) (hb : b ≠ backslash) (hc : ¬ b < 0x20) (t : GoString) :
    unescape (b :: t) = (unescape t).map (fun x => (b :: x.1, x.2)) := by
  rw [unescape.eq_def]
  simp only [if_neg hq, if_neg hb, if_neg hc]

theorem unescape_short {c x : UInt8} (hc : c ≠ 0x75) (hx : shortUnescape c = some x) (t : GoString) :
    unescape (backslash :: c :: t) = (unescape t).map (fun y => (x :: y.1, y.2)) := by
  have hne : backslash ≠ quote := by decide
  rw [unescape.eq_def]
  simp only [if_neg hne, if_true, if_neg hc, hx]

theorem unescape_escapeAscii (h : b < 0x80) (t : GoString) :
    unescape (escapeAscii b ++ t) = (unescape t).map (fun x => (b :: x.1, x.2)) := by
  have hb : b.toNat < 0x80 := UInt8.lt_iff_toNat_lt.mp h
  by_cases hqb : b = quote ∨ b = backslash
  · rw [escapeAscii, if_pos hqb]
    refine unescape_short ?_ ?_ t
    · rcases hqb with rfl | rfl <;> decide
    · rcases hqb with rfl | rfl <;> decide
  · rw [escapeAscii, if_neg hqb]
    rw [not_or] at hqb
    cases hp : shortEscapes.find? (fun p => p.1 = b) with
    | some p =>
      have hshort : shortEscapes.all (fun p => p.2 ≠ 0x75 ∧ shortUnescape p.2 = some p.1) = true := by decide
      obtain ⟨h₁, h₂⟩ :=
        of_decide_eq_true (all_eq_true.mp hshort p (mem_of_find?_eq_some hp))
      have hp1 : p.1 = b := by simpa using List.find?_some hp
      exact unescape_short h₁ (hp1 ▸ h₂) t
    | none =>
      by_cases hc : b < 0x20 ∨ b = 0x3C ∨ b = 0x3E ∨ b = 0x26
      · rw [if_pos hc, unescape_unicodeEscape (by omega) (by omega), encodeRune_ascii h]
        rfl
      · rw [if_neg hc]
        exact unescape_plain hqb.1 hqb.2 (fun hlt => hc (.inl hlt)) t

theorem unescape_bytes (h : ∀ b ∈ e, 0x80 ≤ b) (t : GoString) :
    unescape (e ++ t) = (unescape t).map (fun x => (e ++ x.1, x.2)) := by
  induction e with
  | nil => simp
  | cons b e ih =>
    have hb : 0x80 ≤ b.toNat := UInt8.le_iff_toNat_le.mp (h b (by simp))
    have hplain : b ≠ quote ∧ b ≠ backslash ∧ ¬ b < 0x20 := by
      refine ⟨?_, ?_, fun hlt => ?_⟩
      · rintro rfl
        exact absurd hb (by decide)
      · rintro rfl
        exact absurd hb (by decide)
      · have := UInt8.lt_iff_toNat_lt.mp hlt
        simp at this
        omega
    rw [cons_append, unescape_plain hplain.1 hplain.2.1 hplain.2.2,
      ih (fun c hc => h c (by simp [hc])), Option.map_map]
    rfl

theorem unescape_escapeChunk (h : IsRune e r) (t : GoString) :
    unescape (escapeChunk (some r, e) ++ t) = (unescape t).map (fun x => (e ++ x.1, x.2)) := by
  rcases h.bytes with ⟨b, rfl, hb⟩ | ⟨hlen, hbytes⟩
  · exact unescape_escapeAscii hb t
  · simp only [escapeChunk]
    split
    · exact absurd hlen (by simp)
    · split_ifs with h₁ h₂
      · rw [unescape_unicodeEscape (by omega) (by omega), h₁]
        rfl
      · rw [unescape_unicodeEscape (by omega) (by omega), h₂]
        rfl
      · exact unescape_bytes hbytes t

theorem IsRune.escape_append (h : IsRune e r) (t : GoString) :
    escape (e ++ t) = escapeChunk (some r, e) ++ escape t := by
  rw [escape, h.chunks_append, flatMap_cons]
  rfl

theorem escape_invalid {t : GoString} (h : validRune? (b :: t) = none) :
    escape (b :: t) = unicodeEscape runeError ++ escape t := by
  rw [escape, chunks_invalid h, flatMap_cons]
  rfl

/-- Reading back an escaped string. -/
theorem unescape_escape (s rest : GoString) :
    unescape (escape s ++ quote :: rest) = some (toValid s, rest) := by
  induction s using chunk_induction with
  | nil => exact unescape_quote rest
  | rune e r t h ih =>
    rw [IsRune.escape_append h, append_assoc, unescape_escapeChunk h, ih, h.toValid_append]
    rfl
  | invalid b t h ih =>
    rw [escape_invalid h, append_assoc, unescape_unicodeEscape (by decide) (by decide), ih,
      toValid_invalid h]
    rfl

def isSpace (b : UInt8) : Bool := b == 0x20 || b == 0x09 || b == 0x0A || b == 0x0D

def skipSpace (s : GoString) : GoString := s.dropWhile isSpace

def numberByte (b : UInt8) : Bool :=
  isDigit b || b == 0x2D || b == 0x2B || b == 0x2E || b == 0x65 || b == 0x45

/-- What may follow the fraction of a number. -/
def isExponent : GoString → Bool
  | [] => true
  | b :: t =>
    if b = 0x65 ∨ b = 0x45 then
      let t := match t with
        | [] => []
        | c :: t' => if c = 0x2B ∨ c = 0x2D then t' else c :: t'
      !t.isEmpty && t.all isDigit
    else false

/-- What may follow the integer part of a number. -/
def isFraction : GoString → Bool
  | [] => true
  | b :: t =>
    if b = 0x2E then
      match t with
      | [] => false
      | d :: t' => isDigit d && isExponent (t'.dropWhile isDigit)
    else isExponent (b :: t)

def isUnsigned : GoString → Bool
  | [] => false
  | b :: t => if b = 0x30 then isFraction t else isDigit b && isFraction (t.dropWhile isDigit)

def isNumber : GoString → Bool
  | [] => false
  | b :: t => if b = 0x2D then isUnsigned t else isUnsigned (b :: t)

def parseNumber (s : GoString) : Option (Json × GoString) :=
  let text := s.takeWhile numberByte
  if isNumber text then some (.num text, s.dropWhile numberByte) else none

def parseLiteral (word : GoString) (v : Json) (s : GoString) : Option (Json × GoString) :=
  if hasPrefix s word then some (v, s.drop word.length) else none

mutual

/-- A value and the text after it; `fuel` bounds the nesting and the lists. -/
def parseValue : Nat → GoString → Option (Json × GoString)
  | 0, _ => none
  | fuel + 1, s =>
    match skipSpace s with
    | [] => none
    | b :: t =>
      if b = quote then (unescape t).map (fun x => (.str (toValid x.1), x.2))
      else if b = 0x7B then
        match skipSpace t with
        | [] => none
        | c :: t' =>
          if c = 0x7D then some (.obj [], t')
          else (parseMembers fuel (c :: t')).map (fun x => (.obj x.1, x.2))
      else if b = 0x5B then
        match skipSpace t with
        | [] => none
        | c :: t' =>
          if c = 0x5D then some (.arr [], t')
          else (parseElems fuel (c :: t')).map (fun x => (.arr x.1, x.2))
      else if b = 0x6E then parseLiteral (lit "null") .null (b :: t)
      else if b = 0x74 then parseLiteral (lit "true") (.bool true) (b :: t)
      else if b = 0x66 then parseLiteral (lit "false") (.bool false) (b :: t)
      else parseNumber (b :: t)

def parseElems : Nat → GoString → Option (List Json × GoString)
  | 0, _ => none
  | fuel + 1, s =>
    match parseValue fuel s with
    | none => none
    | some (v, s) =>
      match skipSpace s with
      | [] => none
      | b :: t =>
        if b = 0x2C then (parseElems fuel t).map (fun x => (v :: x.1, x.2))
        else if b = 0x5D then some ([v], t)
        else none

def parseMembers : Nat → GoString → Option (List (GoString × Json) × GoString)
  | 0, _ => none
  | fuel + 1, s =>
    match skipSpace s with
    | [] => none
    | q :: s =>
      if q ≠ quote then none
      else match unescape s with
        | none => none
        | some (k, s) =>
          match skipSpace s with
          | [] => none
          | c :: s =>
            if c ≠ 0x3A then none
            else match parseValue fuel s with
              | none => none
              | some (v, s) =>
                match skipSpace s with
                | [] => none
                | b :: t =>
                  if b = 0x2C then (parseMembers fuel t).map (fun x => ((toValid k, v) :: x.1, x.2))
                  else if b = 0x7D then some ([(toValid k, v)], t)
                  else none

end

mutual

def render : Json → GoString
  | .null => lit "null"
  | .bool true => lit "true"
  | .bool false => lit "false"
  | .num text => text
  | .str s => quoted s
  | .arr [] => [0x5B, 0x5D]
  | .arr (x :: xs) => 0x5B :: (render x ++ (renderElems xs ++ [0x5D]))
  | .obj [] => [0x7B, 0x7D]
  | .obj ((k, v) :: fs) => 0x7B :: (quoted k ++ (0x3A :: (render v ++ (renderMembers fs ++ [0x7D]))))

def renderElems : List Json → GoString
  | [] => []
  | x :: xs => 0x2C :: (render x ++ renderElems xs)

def renderMembers : List (GoString × Json) → GoString
  | [] => []
  | (k, v) :: fs => 0x2C :: (quoted k ++ (0x3A :: (render v ++ renderMembers fs)))

end

mutual

/-- The value with valid strings. -/
def clean : Json → Json
  | .null => .null
  | .bool b => .bool b
  | .num text => .num text
  | .str s => .str (toValid s)
  | .arr xs => .arr (cleanElems xs)
  | .obj fs => .obj (cleanMembers fs)

def cleanElems : List Json → List Json
  | [] => []
  | x :: xs => clean x :: cleanElems xs

def cleanMembers : List (GoString × Json) → List (GoString × Json)
  | [] => []
  | (k, v) :: fs => (toValid k, clean v) :: cleanMembers fs

end

end Json

end CodeMemory.Lib
