import Mathlib

/-! Sums of 64-bit integers: what they are in every case, modulo `2 ^ 64`, and when they
are the sums of the integers. -/

namespace CodeMemory.Lib.Overflow

theorem int64_add_modEq (a b : Int64) : (a + b).toInt ≡ a.toInt + b.toInt [ZMOD 2 ^ 64] := by
  rw [Int64.toInt_add]
  exact Int.bmod_emod

theorem uint64_add_modEq (a b : UInt64) : ((a + b).toNat : ℤ) ≡ a.toNat + b.toNat [ZMOD 2 ^ 64] := by
  rw [UInt64.toNat_add, Int.natCast_emod, Int.natCast_add]
  exact Int.mod_modEq _ _

variable {a b : Int64} {n : ℤ}

theorem int64_eq_of_modEq (h : a.toInt ≡ n [ZMOD 2 ^ 64]) (hle : -2 ^ 63 ≤ n) (hlt : n < 2 ^ 63) : a.toInt = n := by
  have ha := a.toInt_lt
  have ha' := a.le_toInt
  rw [Int.ModEq] at h
  omega

theorem uint64_eq_of_modEq {a : UInt64} (h : (a.toNat : ℤ) ≡ n [ZMOD 2 ^ 64]) (hle : 0 ≤ n) (hlt : n < 2 ^ 64) :
    (a.toNat : ℤ) = n := by
  have ha := a.toNat_lt
  rw [Int.ModEq] at h
  omega

theorem int64_inj_of_modEq (h : a.toInt ≡ b.toInt [ZMOD 2 ^ 64]) : a = b :=
  Int64.toInt_inj.mp (int64_eq_of_modEq h b.le_toInt b.toInt_lt)

theorem int64_sub_of_nonneg (ha : 0 ≤ a.toInt) (hb : 0 ≤ b.toInt) : (a - b).toInt = a.toInt - b.toInt := by
  have hlt := a.toInt_lt
  have hlt' := b.toInt_lt
  rw [Int64.toInt_sub]
  exact Int.bmod_eq_of_le (by omega) (by omega)

end CodeMemory.Lib.Overflow
