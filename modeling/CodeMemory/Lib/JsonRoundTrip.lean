import CodeMemory.Lib.Json

/-! The parser reads the text of a value back as the value with valid strings. -/

namespace CodeMemory.Lib.Json

open GoString Decimal List

mutual

/-- Every number in the value is one of the grammar. -/
def Numbers : Json → Prop
  | .num text => isNumber text = true
  | .arr xs => NumbersElems xs
  | .obj fs => NumbersMembers fs
  | _ => True

def NumbersElems : List Json → Prop
  | [] => True
  | x :: xs => Numbers x ∧ NumbersElems xs

def NumbersMembers : List (GoString × Json) → Prop
  | [] => True
  | (_, v) :: fs => Numbers v ∧ NumbersMembers fs

end

mutual

/-- How much fuel the parser needs for the text of a value. -/
def size : Json → Nat
  | .arr xs => 1 + sizeElems xs
  | .obj fs => 1 + sizeMembers fs
  | _ => 1

def sizeElems : List Json → Nat
  | [] => 0
  | x :: xs => 1 + size x + sizeElems xs

def sizeMembers : List (GoString × Json) → Nat
  | [] => 0
  | (_, v) :: fs => 1 + size v + sizeMembers fs

end

variable {s rest sp t : GoString}

theorem all_numberByte_of_isDigit (h : s.all isDigit = true) : s.all numberByte = true := by
  rw [all_eq_true] at h ⊢
  intro b hb
  simp [numberByte, h b hb]

theorem all_numberByte_dropWhile (h : (s.dropWhile isDigit).all numberByte = true) : s.all numberByte = true := by
  rw [← takeWhile_append_dropWhile (p := isDigit) (l := s), all_append, h, Bool.and_true]
  exact all_numberByte_of_isDigit all_takeWhile

theorem all_numberByte_of_isExponent (h : isExponent s = true) : s.all numberByte = true := by
  match s with
  | [] => rfl
  | b :: t =>
    simp only [isExponent] at h
    split_ifs at h with hb
    have hb' : numberByte b = true := by rcases hb with rfl | rfl <;> decide
    rw [all_cons, hb', Bool.true_and]
    match t, h with
    | [], _ => rfl
    | c :: t', h =>
      rw [Bool.and_eq_true] at h
      dsimp only at h
      split_ifs at h with hc
      · have hc' : numberByte c = true := by rcases hc with rfl | rfl <;> decide
        rw [all_cons, hc', Bool.true_and]
        exact all_numberByte_of_isDigit h.2
      · exact all_numberByte_of_isDigit h.2

theorem all_numberByte_of_isFraction (h : isFraction s = true) : s.all numberByte = true := by
  match s with
  | [] => rfl
  | b :: t =>
    simp only [isFraction] at h
    split_ifs at h with hb
    · subst hb
      match t, h with
      | d :: t', h =>
        rw [Bool.and_eq_true] at h
        have hd : numberByte d = true := by simp [numberByte, h.1]
        rw [all_cons, all_cons, hd,
          all_numberByte_dropWhile (all_numberByte_of_isExponent h.2)]
        rfl
    · exact all_numberByte_of_isExponent h

theorem all_numberByte_of_isUnsigned (h : isUnsigned s = true) : s.all numberByte = true := by
  match s with
  | [] => rfl
  | b :: t =>
    simp only [isUnsigned] at h
    split_ifs at h with hb
    · subst hb
      rw [all_cons, all_numberByte_of_isFraction h]
      rfl
    · rw [Bool.and_eq_true] at h
      have hb' : numberByte b = true := by simp [numberByte, h.1]
      rw [all_cons, hb', all_numberByte_dropWhile (all_numberByte_of_isFraction h.2)]
      rfl

theorem all_numberByte_of_isNumber (h : isNumber s = true) : s.all numberByte = true := by
  match s with
  | [] => rfl
  | b :: t =>
    simp only [isNumber] at h
    split_ifs at h with hb
    · subst hb
      rw [all_cons, all_numberByte_of_isUnsigned h]
      rfl
    · exact all_numberByte_of_isUnsigned h

def numberStart (b : UInt8) : Bool := isDigit b || b == 0x2D

theorem isNumber_cons (h : isNumber s = true) : ∃ b t, s = b :: t ∧ numberStart b = true := by
  match s with
  | [] => cases h
  | b :: t =>
    refine ⟨b, t, rfl, ?_⟩
    simp only [isNumber, isUnsigned] at h
    split_ifs at h with h₁ h₂
    · rw [h₁]; decide
    · rw [h₂]; decide
    · rw [Bool.and_eq_true] at h
      rw [numberStart, h.1, Bool.true_or]

variable {b : UInt8}

theorem ne_of_numberStart {c : UInt8} (hb : numberStart b = true) (hc : numberStart c = false) : b ≠ c := by
  rintro rfl
  rw [hb] at hc
  cases hc

theorem digit_ne_minus {d : Nat} (hd : d < 10) : digit d ≠ 0x2D := by
  intro h
  have := congrArg UInt8.toNat h
  rw [toNat_digit hd] at this
  simp at this
  omega

theorem isNumber_natText (n : Nat) : isNumber (natText n) = true := by
  obtain ⟨d, t, hd, ht, hz⟩ := natText_cons n
  have hall : t.all isDigit = true :=
    all_eq_true.mpr (fun b hb => isDigit_of_mem_natText (n := n) (by rw [ht]; simp [hb]))
  have hdrop : t.dropWhile isDigit = [] := dropWhile_eq_nil_iff.mpr (all_eq_true.mp hall)
  rw [ht, isNumber, if_neg (digit_ne_minus hd), isUnsigned]
  split_ifs with h0
  · have hd0 : d = 0 := by
      have := congrArg UInt8.toNat h0
      rw [toNat_digit hd] at this
      simp at this
      omega
    rw [hz hd0]
    rfl
  · rw [isDigit_digit hd, hdrop]
    rfl

theorem isNumber_intText (n : Int) : isNumber (intText n) = true := by
  cases n with
  | ofNat n => exact isNumber_natText n
  | negSucc n =>
    have h := isNumber_natText (n + 1)
    obtain ⟨d, t, hd, ht, -⟩ := natText_cons (n + 1)
    rw [intText, isNumber, if_pos rfl]
    rw [ht, isNumber, if_neg (digit_ne_minus hd)] at h
    rw [ht]
    exact h

theorem skipSpace_cons (h : isSpace b = false) (t : GoString) : skipSpace (b :: t) = b :: t := by
  rw [skipSpace, dropWhile_cons, h]
  rfl

/-- What may come after a value: anything but more bytes of a number. -/
def Ends (rest : GoString) : Prop :=
  ∀ b t, rest = b :: t → numberByte b = false

theorem ends_nil : Ends [] := by
  intro b t h
  cases h

theorem ends_cons (h : numberByte b = false) (t : GoString) : Ends (b :: t) := by
  intro b' t' h'
  cases h'
  exact h

theorem parseNumber_append {text : GoString} (h : isNumber text = true) (hr : Ends rest) :
    parseNumber (text ++ rest) = some (.num text, rest) := by
  have hall : ∀ b ∈ text, numberByte b = true := all_eq_true.mp (all_numberByte_of_isNumber h)
  have htake : rest.takeWhile numberByte = [] ∧ rest.dropWhile numberByte = rest := by
    match rest, hr with
    | [], _ => exact ⟨rfl, rfl⟩
    | b :: t, hr =>
      have hb := hr b t rfl
      simp [hb]
  rw [parseNumber, takeWhile_append_of_pos hall, dropWhile_append_of_pos hall, htake.1,
    htake.2, append_nil, if_pos h]

/-- What a writer puts before an element or a member at a depth and before the bracket that closes it, and what it puts
after a colon. -/
structure Layout where
  pad : Nat → GoString
  gap : GoString
  pad_space : ∀ d, ∀ b ∈ pad d, isSpace b = true
  gap_space : ∀ b ∈ gap, isSpace b = true

/-- `json.Marshal`. -/
def Layout.compact : Layout := ⟨fun _ => [], [], by simp, by simp⟩

/-- `json.MarshalIndent` with two blanks for a depth. -/
def Layout.indented : Layout where
  pad d := 0x0A :: List.replicate (2 * d) 0x20
  gap := [0x20]
  pad_space d b hb := by
    rcases List.mem_cons.mp hb with rfl | hb
    · rfl
    · rw [List.eq_of_mem_replicate hb]
      rfl
  gap_space := by simp [isSpace]

mutual

/-- The text of a value at a depth. -/
def renderWith (l : Layout) : Nat → Json → GoString
  | _, .null => lit "null"
  | _, .bool true => lit "true"
  | _, .bool false => lit "false"
  | _, .num text => text
  | _, .str s => quoted s
  | _, .arr [] => [0x5B, 0x5D]
  | d, .arr (x :: xs) =>
    0x5B :: (l.pad (d + 1) ++ (renderWith l (d + 1) x ++ (renderElemsWith l (d + 1) xs ++ (l.pad d ++ [0x5D]))))
  | _, .obj [] => [0x7B, 0x7D]
  | d, .obj ((k, v) :: fs) =>
    0x7B :: (l.pad (d + 1) ++ (quoted k ++ (0x3A :: (l.gap ++ (renderWith l (d + 1) v ++
      (renderMembersWith l (d + 1) fs ++ (l.pad d ++ [0x7D])))))))

def renderElemsWith (l : Layout) : Nat → List Json → GoString
  | _, [] => []
  | d, x :: xs => 0x2C :: (l.pad d ++ (renderWith l d x ++ renderElemsWith l d xs))

def renderMembersWith (l : Layout) : Nat → List (GoString × Json) → GoString
  | _, [] => []
  | d, (k, v) :: fs =>
    0x2C :: (l.pad d ++ (quoted k ++ (0x3A :: (l.gap ++ (renderWith l d v ++ renderMembersWith l d fs)))))

end

mutual

theorem render_eq : ∀ (d : Nat) (j : Json), render j = renderWith .compact d j
  | _, .null | _, .bool true | _, .bool false | _, .num _ | _, .str _ | _, .arr [] | _, .obj [] => rfl
  | d, .arr (x :: xs) => by
    simp only [render, renderWith, Layout.compact, nil_append]
    rw [render_eq (d + 1) x, renderElems_eq (d + 1) xs]
    rfl
  | d, .obj ((k, v) :: fs) => by
    simp only [render, renderWith, Layout.compact, nil_append]
    rw [render_eq (d + 1) v, renderMembers_eq (d + 1) fs]
    rfl

theorem renderElems_eq : ∀ (d : Nat) (xs : List Json), renderElems xs = renderElemsWith .compact d xs
  | _, [] => rfl
  | d, x :: xs => by
    rw [renderElems, renderElemsWith, render_eq d x, renderElems_eq d xs]
    rfl

theorem renderMembers_eq : ∀ (d : Nat) (fs : List (GoString × Json)), renderMembers fs = renderMembersWith .compact d fs
  | _, [] => rfl
  | d, (k, v) :: fs => by
    rw [renderMembers, renderMembersWith, render_eq d v, renderMembers_eq d fs]
    rfl

end

theorem skipSpace_append (h : ∀ b ∈ sp, isSpace b = true) (t : GoString) : skipSpace (sp ++ t) = skipSpace t :=
  dropWhile_append_of_pos h

theorem ends_space (h : ∀ b ∈ sp, isSpace b = true) (ht : Ends t) : Ends (sp ++ t) := by
  cases sp with
  | nil => exact ht
  | cons b sp =>
    refine ends_cons ?_ _
    have hb := h b (.head _)
    simp only [isSpace, Bool.or_eq_true, beq_iff_eq] at hb
    rcases hb with ((rfl | rfl) | rfl) | rfl <;> decide

variable (l : Layout)

/-- The text of a value starts with a byte that is neither white space nor a closing bracket. -/
theorem renderWith_cons (d : Nat) (j : Json) (h : Numbers j) :
    ∃ b t, renderWith l d j = b :: t ∧ isSpace b = false ∧ b ≠ 0x5D ∧ b ≠ 0x7D := by
  match j, h with
  | .null, _ | .bool true, _ | .bool false, _ | .str _, _ | .arr [], _ | .arr (_ :: _), _ | .obj [], _
  | .obj ((_, _) :: _), _ => exact ⟨_, _, rfl, by decide⟩
  | .num text, h =>
    obtain ⟨b, t, ht, hb⟩ := isNumber_cons (s := text) h
    refine ⟨b, t, ht, ?_, ne_of_numberStart hb (by decide), ne_of_numberStart hb (by decide)⟩
    simp only [isSpace, Bool.or_eq_false_iff, beq_eq_false_iff_ne]
    exact ⟨⟨⟨ne_of_numberStart hb (by decide), ne_of_numberStart hb (by decide)⟩,
      ne_of_numberStart hb (by decide)⟩, ne_of_numberStart hb (by decide)⟩

section

variable (h : ∀ b ∈ sp, isSpace b = true)
include h

theorem parseValue_space (fuel : Nat) (t : GoString) :
    parseValue fuel (sp ++ t) = parseValue fuel t := by
  cases fuel with
  | zero => rfl
  | succ fuel => rw [parseValue, parseValue, skipSpace_append h]

theorem parseElems_space (fuel : Nat) (t : GoString) :
    parseElems fuel (sp ++ t) = parseElems fuel t := by
  cases fuel with
  | zero => rfl
  | succ fuel => rw [parseElems, parseElems, parseValue_space h]

theorem parseMembers_space (fuel : Nat) (t : GoString) :
    parseMembers fuel (sp ++ t) = parseMembers fuel t := by
  cases fuel with
  | zero => rfl
  | succ fuel => rw [parseMembers, parseMembers, skipSpace_append h]

end

theorem parseValue_null (fuel : Nat) (rest : GoString) :
    parseValue (fuel + 1) (lit "null" ++ rest) = some (.null, rest) := rfl

theorem parseValue_true (fuel : Nat) (rest : GoString) :
    parseValue (fuel + 1) (lit "true" ++ rest) = some (.bool true, rest) := rfl

theorem parseValue_false (fuel : Nat) (rest : GoString) :
    parseValue (fuel + 1) (lit "false" ++ rest) = some (.bool false, rest) := rfl

theorem quoted_append (s rest : GoString) : quoted s ++ rest = quote :: (escape s ++ quote :: rest) := by
  simp [quoted]

theorem parseValue_quoted (fuel : Nat) (s rest : GoString) :
    parseValue (fuel + 1) (quoted s ++ rest) = some (.str (toValid s), rest) := by
  rw [quoted_append, parseValue, skipSpace_cons (by decide)]
  simp only [if_pos, unescape_escape, Option.map_some, toValid_toValid]

theorem parseValue_number (fuel : Nat) {text : GoString} (h : isNumber text = true) (hr : Ends rest) :
    parseValue (fuel + 1) (text ++ rest) = some (.num text, rest) := by
  obtain ⟨b, t, ht, hb⟩ := isNumber_cons h
  obtain ⟨b', t', ht', hs, -, -⟩ := renderWith_cons .compact 0 (.num text) h
  obtain ⟨rfl, rfl⟩ : b = b' ∧ t = t' := by
    rw [renderWith, ht] at ht'
    exact List.cons.inj ht'
  have hparse := parseNumber_append h hr
  rw [ht, cons_append] at hparse ⊢
  have hne : ∀ c, numberStart c = false → b ≠ c := fun c => ne_of_numberStart hb
  rw [parseValue, skipSpace_cons hs]
  simp only [if_neg (hne quote (by decide)), if_neg (hne 0x7B (by decide)), if_neg (hne 0x5B (by decide)),
    if_neg (hne 0x6E (by decide)), if_neg (hne 0x74 (by decide)), if_neg (hne 0x66 (by decide)), hparse]

variable {fuel : Nat}

section

variable (hsp : ∀ b ∈ sp, isSpace b = true)
include hsp

theorem parseValue_array {xs : List Json} (hs : isSpace b = false) (hb : b ≠ 0x5D)
    (h : parseElems fuel (b :: t) = some (xs, rest)) :
    parseValue (fuel + 1) (0x5B :: (sp ++ b :: t)) = some (.arr xs, rest) := by
  rw [parseValue, skipSpace_cons (by decide)]
  simp only [skipSpace_append hsp, skipSpace_cons hs, if_neg hb, h]
  rfl

theorem parseValue_object {fs : List (GoString × Json)}
    (h : parseMembers fuel (quote :: t) = some (fs, rest)) :
    parseValue (fuel + 1) (0x7B :: (sp ++ quote :: t)) = some (.obj fs, rest) := by
  rw [parseValue, skipSpace_cons (by decide)]
  simp only [skipSpace_append hsp, skipSpace_cons (show isSpace quote = false by decide), h]
  rfl

theorem parseElems_step {v : Json}
    (hs : isSpace b = false) (h : parseValue fuel s = some (v, sp ++ b :: rest)) :
    parseElems (fuel + 1) s =
      if b = 0x2C then (parseElems fuel rest).map (fun x => (v :: x.1, x.2))
      else if b = 0x5D then some ([v], rest) else none := by
  rw [parseElems, h]
  simp only [skipSpace_append hsp, skipSpace_cons hs]

theorem parseMembers_step {k : GoString} {v : Json}
    (hs : isSpace b = false) (h : parseValue fuel s = some (v, sp ++ b :: rest)) :
    parseMembers (fuel + 1) (quoted k ++ (0x3A :: s)) =
      if b = 0x2C then (parseMembers fuel rest).map (fun x => ((toValid k, v) :: x.1, x.2))
      else if b = 0x7D then some ([(toValid k, v)], rest) else none := by
  rw [quoted_append, parseMembers, skipSpace_cons (by decide)]
  simp only [ne_eq, not_true_eq_false, if_false, unescape_escape,
    skipSpace_cons (show isSpace 0x3A = false by decide), h, skipSpace_append hsp, skipSpace_cons hs, toValid_toValid]

end

/-- With enough fuel the parser inverts every layout, up to invalid bytes in strings. The induction is
on the fuel, with the values, the arrays and the objects together. -/
theorem parse_renderWith (fuel : Nat) : (∀ d j rest, Numbers j → size j ≤ fuel → Ends rest →
      parseValue fuel (renderWith l d j ++ rest) = some (clean j, rest)) ∧
    (∀ d x xs rest, Numbers x → NumbersElems xs → sizeElems (x :: xs) ≤ fuel →
      parseElems fuel (renderWith l (d + 1) x ++ (renderElemsWith l (d + 1) xs ++ (l.pad d ++ 0x5D :: rest))) =
        some (clean x :: cleanElems xs, rest)) ∧
    (∀ d k v fs rest, Numbers v → NumbersMembers fs → sizeMembers ((k, v) :: fs) ≤ fuel →
      parseMembers fuel (quoted k ++ (0x3A :: (l.gap ++ (renderWith l (d + 1) v ++
        (renderMembersWith l (d + 1) fs ++ (l.pad d ++ 0x7D :: rest)))))) =
        some ((toValid k, clean v) :: cleanMembers fs, rest)) := by
  induction fuel with
  | zero =>
    refine ⟨fun d j rest _ h => ?_, fun d x xs rest _ _ h => ?_, fun d k v fs rest _ _ h => ?_⟩
    · cases j <;> simp [size] at h
    · simp [sizeElems] at h
    · simp [sizeMembers] at h
  | succ fuel ih =>
    obtain ⟨ihv, ihe, ihm⟩ := ih
    have hnone : ∀ b ∈ ([] : GoString), isSpace b = true := by simp
    refine ⟨fun d j rest hn h hr => ?_, fun d x xs rest hx hxs h => ?_, fun d k v fs rest hv hfs h => ?_⟩
    · match j, hn, h with
      | .null, _, _ => exact parseValue_null fuel rest
      | .bool true, _, _ => exact parseValue_true fuel rest
      | .bool false, _, _ => exact parseValue_false fuel rest
      | .num text, hn, _ => exact parseValue_number fuel hn hr
      | .str s, _, _ => exact parseValue_quoted fuel s rest
      | .arr [], _, _ => rfl
      | .obj [], _, _ => rfl
      | .arr (x :: xs), hn, h =>
        have hsize : sizeElems (x :: xs) ≤ fuel := by rw [size] at h; omega
        have hrec := ihe d x xs rest hn.1 hn.2 hsize
        obtain ⟨b, t, ht, hs, hb, -⟩ := renderWith_cons l (d + 1) x hn.1
        simp only [renderWith, cons_append, append_assoc, nil_append, ht] at hrec ⊢
        exact parseValue_array (l.pad_space (d + 1)) hs hb hrec
      | .obj ((k, v) :: fs), hn, h =>
        have hsize : sizeMembers ((k, v) :: fs) ≤ fuel := by rw [size] at h; omega
        have hrec := ihm d k v fs rest hn.1 hn.2 hsize
        simp only [renderWith, cons_append, append_assoc, nil_append, quoted_append] at hrec ⊢
        exact parseValue_object (l.pad_space (d + 1)) hrec
    · match xs, hxs, h with
      | [], _, h =>
        have hx' := ihv (d + 1) x (l.pad d ++ 0x5D :: rest) hx (by simp only [sizeElems] at h; omega)
          (ends_space (l.pad_space d) (ends_cons (by decide) rest))
        exact parseElems_step (l.pad_space d) (by decide) hx'
      | y :: ys, hxs, h =>
        have hx' := ihv (d + 1) x
          (0x2C :: (l.pad (d + 1) ++ (renderWith l (d + 1) y ++
            (renderElemsWith l (d + 1) ys ++ (l.pad d ++ 0x5D :: rest))))) hx
          (by simp only [sizeElems] at h; omega) (ends_cons (by decide) _)
        have hrec := ihe d y ys rest hxs.1 hxs.2 (by simp only [sizeElems] at h ⊢; omega)
        simp only [renderElemsWith, cons_append, append_assoc]
        rw [parseElems_step hnone (by decide) hx', if_pos rfl, parseElems_space (l.pad_space (d + 1)), hrec]
        rfl
    · match fs, hfs, h with
      | [], _, h =>
        have hv' := ihv (d + 1) v (l.pad d ++ 0x7D :: rest) hv (by simp only [sizeMembers] at h; omega)
          (ends_space (l.pad_space d) (ends_cons (by decide) rest))
        rw [← parseValue_space l.gap_space] at hv'
        exact parseMembers_step (l.pad_space d) (by decide) hv'
      | (k', v') :: fs, hfs, h =>
        have hv' := ihv (d + 1) v
          (0x2C :: (l.pad (d + 1) ++ (quoted k' ++ (0x3A :: (l.gap ++ (renderWith l (d + 1) v' ++
            (renderMembersWith l (d + 1) fs ++ (l.pad d ++ 0x7D :: rest)))))))) hv
          (by simp only [sizeMembers] at h; omega) (ends_cons (by decide) _)
        rw [← parseValue_space l.gap_space] at hv'
        have hrec := ihm d k' v' fs rest hfs.1 hfs.2 (by simp only [sizeMembers] at h ⊢; omega)
        simp only [renderMembersWith, cons_append, append_assoc]
        rw [parseMembers_step hnone (by decide) hv', if_pos rfl, parseMembers_space (l.pad_space (d + 1)), hrec]
        rfl

mutual

theorem size_le_length (l : Layout) : ∀ d j, Numbers j → size j ≤ (renderWith l d j).length
  | _, .null, _ | _, .bool true, _ | _, .bool false, _ => by rw [renderWith]; decide
  | _, .num text, h => by
    obtain ⟨b, t, ht, -⟩ := isNumber_cons (s := text) h
    simp [size, renderWith, ht]
  | _, .str s, _ => by simp [size, renderWith, quoted]
  | _, .arr [], _ => by simp [size, sizeElems, renderWith]
  | d, .arr (x :: xs), h => by
    have hx := size_le_length l (d + 1) x h.1
    have hxs := sizeElems_le_length l (d + 1) xs h.2
    simp only [size, sizeElems, renderWith, length_cons, length_append, length_nil]
    omega
  | _, .obj [], _ => by simp [size, sizeMembers, renderWith]
  | d, .obj ((k, v) :: fs), h => by
    have hv := size_le_length l (d + 1) v h.1
    have hfs := sizeMembers_le_length l (d + 1) fs h.2
    simp only [size, sizeMembers, renderWith, length_cons, length_append, length_nil]
    omega

theorem sizeElems_le_length (l : Layout) : ∀ d xs, NumbersElems xs → sizeElems xs ≤ (renderElemsWith l d xs).length
  | _, [], _ => Nat.le_refl 0
  | d, x :: xs, h => by
    have hx := size_le_length l d x h.1
    have hxs := sizeElems_le_length l d xs h.2
    simp only [sizeElems, renderElemsWith, length_cons, length_append]
    omega

theorem sizeMembers_le_length (l : Layout) :
    ∀ d fs, NumbersMembers fs → sizeMembers fs ≤ (renderMembersWith l d fs).length
  | _, [], _ => Nat.le_refl 0
  | d, (k, v) :: fs, h => by
    have hv := size_le_length l d v h.1
    have hfs := sizeMembers_le_length l d fs h.2
    simp only [sizeMembers, renderMembersWith, length_cons, length_append]
    omega

end

/-- A value in a layout and what follows it. -/
theorem parseValue_renderWith {j : Json} (h : Numbers j) (hr : Ends rest) :
    parseValue (renderWith l 0 j ++ rest).length (renderWith l 0 j ++ rest) = some (clean j, rest) := by
  refine (parse_renderWith l _).1 0 j rest h ((size_le_length l 0 j h).trans ?_) hr
  rw [length_append]
  exact Nat.le_add_right _ _

theorem parseValue_render {j : Json} (h : Numbers j) :
    parseValue (render j).length (render j) = some (clean j, []) := by
  have hp := parseValue_renderWith .compact h ends_nil
  rwa [append_nil, ← render_eq] at hp

/-- The text of an object stands between braces. -/
theorem render_obj (fs : List (GoString × Json)) : ∃ t, render (.obj fs) = 0x7B :: (t ++ [0x7D]) := by
  match fs with
  | [] => exact ⟨[], rfl⟩
  | (k, v) :: fs =>
    refine ⟨quoted k ++ (0x3A :: (render v ++ renderMembers fs)), ?_⟩
    simp [render]

/-- A text that is one value and nothing else, as `json.Unmarshal` reads it. -/
def parseAll (s : GoString) : Option Json :=
  (parseValue s.length s).bind (fun x => if skipSpace x.2 = [] then some x.1 else none)

theorem parseAll_text (j : Json) (h : Numbers j) : parseAll (render j) = some (clean j) := by
  rw [parseAll, parseValue_render h]
  rfl

/-- Every byte is at least a space. -/
def Printable (s : GoString) : Prop := ∀ b ∈ s, 0x20 ≤ b

theorem printable_nil : Printable [] := by
  intro b h
  cases h

theorem printable_cons : Printable (b :: s) ↔ 0x20 ≤ b ∧ Printable s :=
  forall_mem_cons

theorem printable_append : Printable (s ++ t) ↔ Printable s ∧ Printable t :=
  forall_mem_append

/-- A printable text by evaluation. -/
theorem printable_of_all (h : s.all (fun b => 0x20 ≤ b) = true) : Printable s :=
  fun b hb => of_decide_eq_true (all_eq_true.mp h b hb)

theorem hexDigit_ge {n : Nat} (h : n < 16) : 0x20 ≤ hexDigit n := by
  revert h
  revert n
  decide

theorem printable_unicodeEscape (n : Nat) : Printable (unicodeEscape n) := by
  simp only [unicodeEscape, printable_cons]
  exact ⟨by decide, by decide, hexDigit_ge (Nat.mod_lt _ (by decide)), hexDigit_ge (Nat.mod_lt _ (by decide)),
    hexDigit_ge (Nat.mod_lt _ (by decide)), hexDigit_ge (Nat.mod_lt _ (by decide)), printable_nil⟩

theorem printable_escapeAscii (b : UInt8) : Printable (escapeAscii b) := by
  have hback : 0x20 ≤ backslash := by decide
  by_cases hqb : b = quote ∨ b = backslash
  · rw [escapeAscii, if_pos hqb, printable_cons, printable_cons]
    refine ⟨hback, ?_, printable_nil⟩
    rcases hqb with rfl | rfl <;> decide
  · rw [escapeAscii, if_neg hqb]
    cases hp : shortEscapes.find? (fun p => p.1 = b) with
    | some p =>
      have hshort : shortEscapes.all (fun p => 0x20 ≤ p.2) = true := by decide
      have hp2 := of_decide_eq_true (all_eq_true.mp hshort p (mem_of_find?_eq_some hp))
      exact printable_cons.mpr ⟨hback, printable_cons.mpr ⟨hp2, printable_nil⟩⟩
    | none =>
      by_cases hc : b < 0x20 ∨ b = 0x3C ∨ b = 0x3E ∨ b = 0x26
      · rw [if_pos hc]
        exact printable_unicodeEscape _
      · rw [if_neg hc, printable_cons]
        exact ⟨UInt8.not_lt.mp (fun h => hc (.inl h)), printable_nil⟩

theorem printable_escapeChunk {e : GoString} {r : Rune} (h : IsRune e r) :
    Printable (escapeChunk (some r, e)) := by
  rcases h.bytes with ⟨b, rfl, hb⟩ | ⟨hlen, hbytes⟩
  · exact printable_escapeAscii b
  · simp only [escapeChunk]
    split
    · exact printable_escapeAscii _
    · split_ifs
      · exact printable_unicodeEscape _
      · exact printable_unicodeEscape _
      · exact fun b hb => UInt8.le_trans (by decide) (hbytes b hb)

theorem printable_escape (s : GoString) : Printable (escape s) := by
  induction s using chunk_induction with
  | nil => exact printable_nil
  | rune e r t h ih =>
    rw [IsRune.escape_append h, printable_append]
    exact ⟨printable_escapeChunk h, ih⟩
  | invalid b t h ih =>
    rw [escape_invalid h, printable_append]
    exact ⟨printable_unicodeEscape _, ih⟩

theorem printable_quoted (s : GoString) : Printable (quoted s) := by
  rw [quoted, printable_cons, printable_append, printable_cons]
  exact ⟨by decide, printable_escape s, by decide, printable_nil⟩

theorem ge_of_numberByte (h : numberByte b = true) : 0x20 ≤ b := by
  by_contra hlt
  have hlt' := UInt8.lt_iff_toNat_lt.mp (UInt8.not_le.mp hlt)
  simp only [numberByte, isDigit, Bool.or_eq_true, Bool.and_eq_true, decide_eq_true_eq, beq_iff_eq,
    UInt8.le_iff_toNat_le, ← UInt8.toNat_inj, UInt8.reduceToNat] at h hlt'
  omega

mutual

theorem printable_render : ∀ j, Numbers j → Printable (render j)
  | .null, _ | .bool true, _ | .bool false, _ => printable_of_all (by decide)
  | .num text, h => fun b hb =>
    ge_of_numberByte (all_eq_true.mp (all_numberByte_of_isNumber (s := text) h) b hb)
  | .str s, _ => printable_quoted s
  | .arr [], _ => printable_of_all (by decide)
  | .arr (x :: xs), h => by
    rw [render, printable_cons, printable_append, printable_append, printable_cons]
    exact ⟨by decide, printable_render x h.1, printable_renderElems xs h.2, by decide, printable_nil⟩
  | .obj [], _ => printable_of_all (by decide)
  | .obj ((k, v) :: fs), h => by
    rw [render, printable_cons, printable_append, printable_cons, printable_append, printable_append,
      printable_cons]
    exact ⟨by decide, printable_quoted k, by decide, printable_render v h.1,
      printable_renderMembers fs h.2, by decide, printable_nil⟩

theorem printable_renderElems : ∀ xs, NumbersElems xs → Printable (renderElems xs)
  | [], _ => printable_nil
  | x :: xs, h => by
    rw [renderElems, printable_cons, printable_append]
    exact ⟨by decide, printable_render x h.1, printable_renderElems xs h.2⟩

theorem printable_renderMembers : ∀ fs, NumbersMembers fs → Printable (renderMembers fs)
  | [], _ => printable_nil
  | (k, v) :: fs, h => by
    rw [renderMembers, printable_cons, printable_append, printable_cons, printable_append]
    exact ⟨by decide, printable_quoted k, by decide, printable_render v h.1, printable_renderMembers fs h.2⟩

end

end CodeMemory.Lib.Json
