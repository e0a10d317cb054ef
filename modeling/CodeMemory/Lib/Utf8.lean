import CodeMemory.Lib.GoString

/-! A string cut into encodings. Every byte belongs to the encoding of one code
point or is invalid by itself; `toValid` writes `U+FFFD` for each invalid byte, as
an encoder that only writes valid text does. -/

namespace CodeMemory.Lib.GoString

open List

/-- The bytes `e` are the encoding of the code point `r`. -/
def IsRune (e : GoString) (r : Rune) : Prop := validRune? e = some (r, e.length)

instance (e : GoString) (r : Rune) : Decidable (IsRune e r) := by unfold IsRune; infer_instance

/-- The encodings and invalid bytes of a string, from a position `skip` bytes ahead. -/
def chunksFrom : Nat → GoString → List (Option Rune × GoString)
  | _, [] => []
  | skip + 1, _ :: t => chunksFrom skip t
  | 0, b :: t =>
    match validRune? (b :: t) with
    | some (r, w) => (some r, (b :: t).take w) :: chunksFrom (w - 1) t
    | none => (none, [b]) :: chunksFrom 0 t

def chunks (s : GoString) : List (Option Rune × GoString) := chunksFrom 0 s

/-- The encoding of `U+FFFD`. -/
def replacement : GoString := [0xEF, 0xBF, 0xBD]

/-- The string with `U+FFFD` for each invalid byte. -/
def toValid (s : GoString) : GoString :=
  (chunks s).flatMap (fun c => if c.1.isSome then c.2 else replacement)

/-- `utf8.ValidString`. -/
def validString (s : GoString) : Bool := (chunks s).all (fun c => c.1.isSome)

variable {s : GoString} {r : Rune} {w skip : Nat} {e t : GoString}

/-- The bytes after an encoding do not matter to it. -/
theorem validRune?_take_append (h : validRune? s = some (r, w))
    (t : GoString) : validRune? (s.take w ++ t) = some (r, w) := by
  cases encoded_of_validRune? h with
  | one _ h1 => simp [validRune?, h1]
  | two _ h1 h2 h5 => simp [validRune?, h1, h2, h5]
  | three _ h1 h2 h3 h5 => simp [validRune?, h1, h2, h3, h5]
  | four _ h1 h2 h3 h4 h5 => simp [validRune?, h1, h2, h3, h4, h5]

theorem isRune_take (h : validRune? s = some (r, w)) : IsRune (s.take w) r := by
  have h' := validRune?_take_append h []
  rw [append_nil] at h'
  rw [IsRune, h', length_take, min_eq_left (validRune?_width h).2]

theorem IsRune.validRune?_append (h : IsRune e r) (t : GoString) : validRune? (e ++ t) = some (r, e.length) := by
  have h' := validRune?_take_append h t
  rwa [take_length] at h'

theorem IsRune.ne_nil (h : IsRune e r) : e ≠ [] := by
  rintro rfl
  cases h

/-- An encoding is one ASCII byte, or several bytes that are not ASCII. -/
theorem IsRune.bytes (h : IsRune e r) : (∃ b, e = [b] ∧ b < 0x80) ∨ (2 ≤ e.length ∧ ∀ b ∈ e, 0x80 ≤ b) := by
  have henc := encoded_of_validRune? h
  generalize hlen : e.length = w at henc
  simp only [UInt8.le_iff_toNat_le]
  -- nothing follows the encoding
  cases henc with
  | one t h1 =>
    obtain rfl : t = [] := by simpa using hlen
    exact .inl ⟨_, rfl, h1⟩
  | two t h1 h2 tail =>
    obtain rfl : t = [] := by simpa using hlen
    simpa using ⟨UInt8.not_lt.mp h1, cont_bounds tail⟩
  | three t h1 h2 h3 tail =>
    obtain rfl : t = [] := by simpa using hlen
    rw [Bool.and_eq_true] at tail
    simpa using ⟨UInt8.not_lt.mp h1, (secondOk_bounds tail.1).1, cont_bounds tail.2⟩
  | four t h1 h2 h3 h4 tail =>
    obtain rfl : t = [] := by simpa using hlen
    rw [Bool.and_eq_true, Bool.and_eq_true] at tail
    simpa using ⟨UInt8.not_lt.mp h1, (secondOk_bounds tail.1.1).1, cont_bounds tail.1.2, cont_bounds tail.2⟩

theorem chunksFrom_eq (h : skip ≤ s.length) : chunksFrom skip s = chunks (s.drop skip) := by
  induction s generalizing skip with
  | nil =>
    obtain rfl : skip = 0 := by simpa using h
    rfl
  | cons b t ih =>
    cases skip with
    | zero => rfl
    | succ skip =>
      exact ih (by simpa using h)

theorem IsRune.chunks_append (h : IsRune e r) (t : GoString) : chunks (e ++ t) = (some r, e) :: chunks t := by
  obtain ⟨b, e, rfl⟩ := exists_cons_of_ne_nil h.ne_nil
  have hv := h.validRune?_append t
  rw [cons_append] at hv ⊢
  have htake : (b :: (e ++ t)).take (b :: e).length = b :: e := by
    rw [← cons_append, take_left]
  have hdrop : (e ++ t).drop ((b :: e).length - 1) = t := by simp
  rw [chunks, chunksFrom, hv]
  dsimp only
  rw [htake, chunksFrom_eq (by simp), hdrop]

variable {b : UInt8}

theorem chunks_invalid (h : validRune? (b :: t) = none) : chunks (b :: t) = (none, [b]) :: chunks t := by
  rw [chunks, chunksFrom, h]
  rfl

/-- Induction along the encodings and invalid bytes of a string. -/
theorem chunk_induction {P : GoString → Prop} (nil : P [])
    (rune : ∀ e r t, IsRune e r → P t → P (e ++ t))
    (invalid : ∀ b t, validRune? (b :: t) = none → P t → P (b :: t)) (s : GoString) : P s := by
  induction hn : s.length using Nat.strong_induction_on generalizing s with
  | _ n ih =>
    cases s with
    | nil => exact nil
    | cons b t =>
      cases hv : validRune? (b :: t) with
      | none => exact invalid b t hv (ih t.length (by simp [← hn]) t rfl)
      | some rw' =>
        obtain ⟨r, w⟩ := rw'
        have hw := validRune?_width hv
        have hlen : ((b :: t).drop w).length < n := by
          rw [length_drop, ← hn]
          omega
        have hp := rune _ r ((b :: t).drop w) (isRune_take hv) (ih _ hlen _ rfl)
        rwa [take_append_drop] at hp

theorem IsRune.toValid_append (h : IsRune e r) (t : GoString) : toValid (e ++ t) = e ++ toValid t := by
  rw [toValid, h.chunks_append, flatMap_cons]
  rfl

theorem toValid_invalid (h : validRune? (b :: t) = none) : toValid (b :: t) = replacement ++ toValid t := by
  rw [toValid, chunks_invalid h, flatMap_cons]
  rfl

theorem isRune_replacement : IsRune replacement runeError := by decide

theorem IsRune.validString_append (h : IsRune e r) (t : GoString) : validString (e ++ t) = validString t := by
  rw [validString, h.chunks_append, all_cons]
  rfl

theorem validString_toValid (s : GoString) : validString (toValid s) = true := by
  induction s using chunk_induction with
  | nil => rfl
  | rune e r t h ih => rw [h.toValid_append, h.validString_append, ih]
  | invalid b t h ih => rw [toValid_invalid h, isRune_replacement.validString_append, ih]

theorem toValid_eq_self_iff (s : GoString) : toValid s = s ↔ validString s = true := by
  constructor
  · intro h
    rw [← h]
    exact validString_toValid s
  · induction s using chunk_induction with
    | nil => exact fun _ => rfl
    | rune e r t h ih =>
      rw [h.validString_append, h.toValid_append]
      exact fun hv => by rw [ih hv]
    | invalid b t h _ =>
      intro hv
      rw [validString, chunks_invalid h] at hv
      cases hv

theorem toValid_toValid (s : GoString) : toValid (toValid s) = toValid s :=
  (toValid_eq_self_iff _).mpr (validString_toValid s)

theorem toNat_mem_runes (hb : b < 0x80) (h : b ∈ s) : b.toNat ∈ runes s := by
  obtain ⟨t, u, rfl⟩ := append_of_mem h
  rw [runes_append_ascii hb]
  exact mem_append_right _ (.head _)

theorem runes_eq (s : GoString) : runes s = (chunks s).map fun c => c.1.getD runeError := by
  suffices h : ∀ skip, runesFrom skip s = (chunksFrom skip s).map fun c => c.1.getD runeError from h 0
  intro skip
  fun_induction chunksFrom skip s with
  | case1 => rw [runesFrom, map_nil]
  | case2 skip b t ih => exact ih
  | case3 b t r w hv ih => simp only [runesFrom, hv, ih, map_cons, Option.getD_some]
  | case4 b t hv ih => simp only [runesFrom, hv, ih, map_cons, Option.getD_none]

theorem IsRune.runes_append (h : IsRune e r) (t : GoString) : runes (e ++ t) = r :: runes t := by
  rw [runes_eq, h.chunks_append, map_cons, ← runes_eq, Option.getD_some]

theorem runes_invalid (h : validRune? (b :: t) = none) : runes (b :: t) = runeError :: runes t := by
  rw [runes_eq, chunks_invalid h, map_cons, ← runes_eq, Option.getD_none]

/-- The replacement of an invalid byte reads as the byte did. -/
theorem runes_toValid (s : GoString) : runes (toValid s) = runes s := by
  induction s using chunk_induction with
  | nil => rfl
  | rune e r t h ih => rw [h.toValid_append, h.runes_append, h.runes_append, ih]
  | invalid b t h ih => rw [toValid_invalid h, isRune_replacement.runes_append, ih, runes_invalid h]

theorem encodeRune_ascii (h : b < 0x80) : encodeRune b.toNat = [b] := by
  have hb : b.toNat < 0x80 := UInt8.lt_iff_toNat_lt.mp h
  rw [encodeRune, if_neg (by omega), encodeScalar, if_pos hb]
  simp

theorem eq_toNat_of_encodeRune (h : encodeRune r = [b]) : r = b.toNat := by
  dsimp only [encodeRune] at h
  split_ifs at h
  · cases h
  · unfold encodeScalar at h
    split_ifs at h with hr
    · obtain rfl : UInt8.ofNat r = b := by simpa using h
      rw [UInt8.toNat_ofNat', Nat.mod_eq_of_lt (by omega)]
    all_goals simp at h

/-- A code point has one encoding. -/
theorem IsRune.eq_encodeScalar (h : IsRune e r) : e = encodeScalar r := by
  suffices hall : ∀ c : ℕ, c = r → e = encodeScalar c from hall r rfl
  intro c hr
  generalize hw : e.length = w
  rw [IsRune, hw] at h
  cases encoded_of_validRune? h with
  | one t h1 =>
    obtain rfl : t = [] := by simpa using hw
    have hb : c < 0x80 := hr ▸ UInt8.lt_iff_toNat_lt.mp h1
    rw [encodeScalar, if_pos hb, hr]
    simp
  | two t h1 h2 tail =>
    obtain rfl : t = [] := by simpa using hw
    simp only [Bool.and_eq_true, decide_eq_true_eq, UInt8.le_iff_toNat_le, UInt8.reduceToNat, cont] at h2 tail
    dsimp only [Rune] at hr
    unfold encodeScalar
    split_ifs <;> simp only [cons.injEq, and_true, ← UInt8.toNat_inj, UInt8.toNat_ofNat', Nat.toUInt8_eq, reduceCtorEq,
      and_false] <;> omega
  | three t h1 h2 h3 tail =>
    obtain rfl : t = [] := by simpa using hw
    have hsecond := secondOk_bounds (Bool.and_eq_true_iff.mp tail).1
    simp only [Bool.and_eq_true, decide_eq_true_eq, UInt8.le_iff_toNat_le, UInt8.reduceToNat, cont] at h3 tail
    dsimp only [Rune] at hr
    unfold encodeScalar
    split_ifs <;> simp only [cons.injEq, and_true, ← UInt8.toNat_inj, UInt8.toNat_ofNat', Nat.toUInt8_eq, reduceCtorEq,
      and_false] <;> omega
  | four t h1 h2 h3 h4 tail =>
    obtain rfl : t = [] := by simpa using hw
    simp only [Bool.and_eq_true, decide_eq_true_eq, UInt8.le_iff_toNat_le, UInt8.reduceToNat, cont] at h4 tail
    have hsecond := secondOk_bounds tail.1.1
    dsimp only [Rune] at hr
    unfold encodeScalar
    split_ifs <;> simp only [cons.injEq, and_true, ← UInt8.toNat_inj, UInt8.toNat_ofNat', Nat.toUInt8_eq, reduceCtorEq,
      and_false] <;> omega

theorem isRune_encodeScalar {c : ℕ} (h : c ≤ 0x10FFFF) (hs : ¬ (0xD800 ≤ c ∧ c ≤ 0xDFFF)) :
    IsRune (encodeScalar c) c := by
  unfold encodeScalar
  split_ifs with h1 h2 h3 <;>
    simp only [IsRune, validRune?, UInt8.lt_iff_toNat_lt, UInt8.le_iff_toNat_le, cont, secondOk, ← UInt8.toNat_inj,
      UInt8.toNat_ofNat', Nat.toUInt8_eq, UInt8.reduceToNat, Bool.and_eq_true, decide_eq_true_eq]
  · rw [if_pos (by omega), Nat.mod_eq_of_lt (by omega)]
    rfl
  · rw [if_neg (by omega), if_pos (by omega), if_pos (by omega)]
    refine congrArg (fun n : ℕ => some (n, 2)) ?_
    omega
  · rw [if_neg (by omega), if_neg (by omega), if_pos (by omega)]
    rw [if_pos (by split_ifs <;> simp only [Bool.and_eq_true, decide_eq_true_eq] <;> omega)]
    refine congrArg (fun n : ℕ => some (n, 3)) ?_
    omega
  · rw [if_neg (by omega), if_neg (by omega), if_neg (by omega), if_pos (by omega)]
    rw [if_pos (by split_ifs <;> simp only [Bool.and_eq_true, decide_eq_true_eq] <;> omega)]
    refine congrArg (fun n : ℕ => some (n, 4)) ?_
    omega

theorem exists_isRune_encodeRune (r : Rune) : ∃ c, IsRune (encodeRune r) c := by
  dsimp only [encodeRune]
  split_ifs with h
  · exact ⟨_, isRune_encodeScalar (by decide) (by decide)⟩
  · exact ⟨_, isRune_encodeScalar (by omega) (by omega)⟩

/-- No encoding is the beginning of another one. -/
theorem encodeRune_append_inj {r' : Rune} (h : encodeRune r ++ s = encodeRune r' ++ t) :
    encodeRune r = encodeRune r' ∧ s = t := by
  obtain ⟨c, hc⟩ := exists_isRune_encodeRune r
  obtain ⟨c', hc'⟩ := exists_isRune_encodeRune r'
  have heq := hc.validRune?_append s
  rw [h, hc'.validRune?_append, Option.some.injEq, Prod.mk.injEq] at heq
  exact append_inj h heq.2.symm

/-- `strings.Map` with a function that drops no rune. -/
def mapRunes (f : Rune → Rune) (s : GoString) : GoString := encodeRunes ((runes s).map f)

theorem mapRunes_toValid (f : Rune → Rune) (s : GoString) : mapRunes f (toValid s) = mapRunes f s := by
  rw [mapRunes, runes_toValid, mapRunes]

/-- A string is mapped piece by piece around an ASCII byte that the map keeps. -/
theorem mapRunes_append_ascii {f : Rune → Rune} (hb : b < 0x80) (hf : f b.toNat = b.toNat) (s t : GoString) :
    mapRunes f (s ++ b :: t) = mapRunes f s ++ b :: mapRunes f t := by
  simp [mapRunes, runes_append_ascii hb, encodeRunes, hf, encodeRune_ascii hb]

theorem validString_of_notMem (h : runeError ∉ runes s) : validString s = true := by
  induction s using chunk_induction with
  | nil => rfl
  | rune e r t hr ih =>
    rw [hr.runes_append, mem_cons, not_or] at h
    rw [hr.validString_append, ih h.2]
  | invalid b t hb _ => exact absurd (by simp [runes_invalid hb]) h

/-- The letters of one string are written as letters of the other, where both are mapped to one string. -/
theorem exists_rune_of_mapRunes_eq {f : Rune → Rune} (h : mapRunes f s = mapRunes f t) (hr : r ∈ runes s) :
    ∃ r' ∈ runes t, encodeRune (f r') = encodeRune (f r) := by
  unfold mapRunes at h
  generalize runes s = rs at h hr
  generalize runes t = rs' at h
  induction rs generalizing rs' with
  | nil => cases hr
  | cons a rs ih =>
    cases rs' with
    | nil =>
      obtain ⟨c, hc⟩ := exists_isRune_encodeRune (f a)
      exact absurd (append_eq_nil_iff.mp h).1 hc.ne_nil
    | cons a' rs' =>
      obtain ⟨hhead, htail⟩ := encodeRune_append_inj h
      rcases mem_cons.mp hr with rfl | hr
      · exact ⟨a', .head _, hhead.symm⟩
      · obtain ⟨r', hr', heq⟩ := ih hr rs' htail
        exact ⟨r', .tail _ hr', heq⟩

/-- Every letter of the string is the only one that `lower` writes as it does. -/
def OneSpelling (lower : Rune → Rune) (s : GoString) : Prop :=
  ∀ r ∈ runes s, r ≠ runeError ∧ ∀ r', encodeRune (lower r') = encodeRune (lower r) → r' = r

/-- What starts alike once it is mapped starts alike, where the letters have one spelling. -/
theorem OneSpelling.append_of_mapRunes {lower : Rune → Rune} {u : GoString} (h : OneSpelling lower s)
    (ht : mapRunes lower t = mapRunes lower s ++ u) : ∃ v, t = s ++ v ∧ mapRunes lower v = u := by
  induction s using chunk_induction generalizing t with
  | nil => exact ⟨t, rfl, ht⟩
  | invalid b s hb _ => exact absurd rfl (h runeError (by simp [runes_invalid hb])).1
  | rune e r s hr ih =>
    unfold OneSpelling at h
    rw [hr.runes_append, forall_mem_cons] at h
    obtain ⟨⟨hne, hone⟩, hs⟩ := h
    simp only [mapRunes, encodeRunes, hr.runes_append, map_cons, flatMap_cons, append_assoc] at ht
    cases t using chunk_induction with
    | nil =>
      obtain ⟨c, hc⟩ := exists_isRune_encodeRune (lower r)
      exact absurd (append_eq_nil_iff.mp ht.symm).1 hc.ne_nil
    | invalid b t hb _ =>
      rw [runes_invalid hb, map_cons, flatMap_cons] at ht
      exact absurd (hone _ (encodeRune_append_inj ht).1).symm hne
    | rune e' r' t hr' _ =>
      rw [hr'.runes_append, map_cons, flatMap_cons] at ht
      obtain ⟨hhead, htail⟩ := encodeRune_append_inj ht
      obtain rfl := hone _ hhead
      obtain ⟨v, rfl, hv⟩ := ih hs htail
      rw [hr.eq_encodeScalar, hr'.eq_encodeScalar]
      exact ⟨v, by simp, hv⟩

end CodeMemory.Lib.GoString
