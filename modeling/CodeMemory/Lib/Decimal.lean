import CodeMemory.Lib.GoString

/-! Decimal numerals: what `strconv` writes for an integer, and its value read back. -/

namespace CodeMemory.Lib.Decimal

open List

def isDigit (b : UInt8) : Bool := 0x30 ≤ b && b ≤ 0x39

def digit (n : Nat) : UInt8 := (0x30 + n).toUInt8

def digitValue (b : UInt8) : Nat := b.toNat - 0x30

/-- The digits of a number, last first; `fuel` bounds their count. -/
def digitsRev : Nat → Nat → GoString
  | 0, _ => []
  | fuel + 1, n => if n < 10 then [digit n] else digit (n % 10) :: digitsRev fuel (n / 10)

def natText (n : Nat) : GoString := (digitsRev (n + 1) n).reverse

def intText : Int → GoString
  | .ofNat n => natText n
  | .negSucc n => 0x2D :: natText (n + 1)

def natValue (s : GoString) : Nat := s.foldl (fun a b => 10 * a + digitValue b) 0

/-- `strconv.ParseUint` without its range. -/
def parseNat? (s : GoString) : Option Nat :=
  if s ≠ [] ∧ s.all isDigit then some (natValue s) else none

/-- `strconv.ParseInt` without its range, on a text with no plus sign. -/
def parseInt? : GoString → Option Int
  | [] => none
  | b :: t => if b = 0x2D then (parseNat? t).map (fun n => -(n : Int)) else (parseNat? (b :: t)).map Int.ofNat

variable {n : Nat}

theorem toNat_digit (h : n < 10) : (digit n).toNat = 0x30 + n := by
  simp only [digit, Nat.toUInt8, UInt8.toNat_ofNat']
  omega

theorem isDigit_digit (h : n < 10) : isDigit (digit n) = true := by
  simp only [isDigit, Bool.and_eq_true, decide_eq_true_eq, UInt8.le_iff_toNat_le, toNat_digit h,
    UInt8.reduceToNat]
  omega

theorem digitValue_digit (h : n < 10) : digitValue (digit n) = n := by
  rw [digitValue, toNat_digit h]
  omega

theorem digitsRev_fuel {fuel fuel' : Nat} (h : n < fuel) (h' : n < fuel') : digitsRev fuel n = digitsRev fuel' n := by
  induction fuel generalizing fuel' n with
  | zero => omega
  | succ fuel ih =>
    obtain ⟨fuel', rfl⟩ : ∃ k, fuel' = k + 1 := ⟨fuel' - 1, by omega⟩
    rw [digitsRev, digitsRev]
    split_ifs with hn
    · rfl
    · have hrest : digitsRev fuel (n / 10) = digitsRev fuel' (n / 10) := ih (by omega) (by omega)
      rw [hrest]

theorem natText_of_lt (h : n < 10) : natText n = [digit n] := by
  rw [natText, digitsRev, if_pos h]
  rfl

theorem natText_of_ge (h : 10 ≤ n) : natText n = natText (n / 10) ++ [digit (n % 10)] := by
  rw [natText, digitsRev, if_neg (by omega), reverse_cons, natText,
    digitsRev_fuel (n := n / 10) (show n / 10 < n by omega) (Nat.lt_succ_self _)]

/-- Induction on the digits of a number. -/
theorem digit_induction {P : Nat → Prop} (one : ∀ n, n < 10 → P n)
    (more : ∀ n, 10 ≤ n → P (n / 10) → P n) (n : Nat) : P n := by
  induction n using Nat.strong_induction_on with
  | _ n ih =>
    by_cases h : n < 10
    · exact one n h
    · exact more n (by omega) (ih (n / 10) (by omega))

theorem natValue_natText (n : Nat) : natValue (natText n) = n := by
  induction n using digit_induction with
  | one n h =>
    rw [natText_of_lt h, natValue, foldl_cons, foldl_nil, digitValue_digit h]
    omega
  | more n h ih =>
    rw [natText_of_ge h, natValue, foldl_append, ← natValue, ih, foldl_cons, foldl_nil,
      digitValue_digit (by omega)]
    omega

theorem isDigit_of_mem_natText {b : UInt8} (h : b ∈ natText n) : isDigit b = true := by
  induction n using digit_induction with
  | one n hn =>
    rw [natText_of_lt hn, mem_singleton] at h
    exact h ▸ isDigit_digit hn
  | more n hn ih =>
    rw [natText_of_ge hn, mem_append, mem_singleton] at h
    rcases h with h | rfl
    · exact ih h
    · exact isDigit_digit (by omega)

/-- A numeral starts with a digit, and not with a zero unless it is the only one. -/
theorem natText_cons (n : Nat) : ∃ d t, d < 10 ∧ natText n = digit d :: t ∧ (d = 0 → t = []) := by
  induction n using digit_induction with
  | one n h => exact ⟨n, [], h, natText_of_lt h, fun _ => rfl⟩
  | more n h ih =>
    obtain ⟨d, t, hd, ht, hz⟩ := ih
    refine ⟨d, t ++ [digit (n % 10)], hd, by rw [natText_of_ge h, ht, cons_append], fun h0 => ?_⟩
    -- the first digit of a positive number is positive
    have hv := natValue_natText (n / 10)
    rw [ht, hz h0, h0, natValue, foldl_cons, foldl_nil, digitValue_digit (by omega)] at hv
    omega

theorem natText_ne_nil (n : Nat) : natText n ≠ [] := by
  obtain ⟨d, t, -, h, -⟩ := natText_cons n
  simp [h]

theorem length_natText_le {k : Nat} (hk : 0 < k) (h : n < 10 ^ k) : (natText n).length ≤ k := by
  induction n using digit_induction generalizing k with
  | one n hn =>
    rw [natText_of_lt hn]
    exact hk
  | more n hn ih =>
    obtain ⟨k, rfl⟩ : ∃ j, k = j + 1 := ⟨k - 1, by omega⟩
    have hk' : 0 < k := by
      rcases Nat.eq_zero_or_pos k with rfl | hk'
      · omega
      · exact hk'
    have hdiv : n / 10 < 10 ^ k := by
      rw [Nat.div_lt_iff_lt_mul (by omega), ← pow_succ]
      exact h
    rw [natText_of_ge hn, length_append, length_singleton]
    exact Nat.succ_le_succ (ih hk' hdiv)

theorem parseNat?_natText (n : Nat) : parseNat? (natText n) = some n := by
  have hall : (natText n).all isDigit = true := all_eq_true.mpr (fun b => isDigit_of_mem_natText)
  rw [parseNat?, if_pos ⟨natText_ne_nil n, hall⟩, natValue_natText]

theorem parseInt?_intText (n : Int) : parseInt? (intText n) = some n := by
  cases n with
  | ofNat n =>
    obtain ⟨d, t, hd, ht, -⟩ := natText_cons n
    have hne : digit d ≠ 0x2D := by
      intro h
      have := congrArg UInt8.toNat h
      rw [toNat_digit hd] at this
      simp at this
      omega
    rw [intText, ht, parseInt?, if_neg hne, ← ht, parseNat?_natText]
    rfl
  | negSucc n =>
    rw [intText, parseInt?, if_pos rfl, parseNat?_natText]
    rfl

end CodeMemory.Lib.Decimal
