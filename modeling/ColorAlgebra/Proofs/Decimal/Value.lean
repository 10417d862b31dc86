import Mathlib.Algebra.Order.Field.Power
import ColorAlgebra.Decimal.Shortest
import ColorAlgebra.Proofs.Binary.Rounding

namespace ColorAlgebra

namespace Decimal

variable {f : Format} {negative : Bool}

/-! ## Values -/

/-- The number that a decimal stands for. -/
def value (d : Decimal) : ℚ := d.digits * (10 : ℚ) ^ d.exponent

/-- The value in units is the quotient of this number and the next. -/
def unitsNum (d : Decimal) : Nat := d.digits * 10 ^ d.exponent.toNat * unitsPerOne

def unitsDen (d : Decimal) : Nat := 10 ^ (-d.exponent).toNat

theorem unitsDen_pos (d : Decimal) : 0 < d.unitsDen := Nat.pow_pos (by decide)

theorem unitsNum_div_unitsDen (d : Decimal) :
    (d.unitsNum / d.unitsDen : ℚ) = d.value * unitsPerOne := by
  have hten : (10 : ℚ) ≠ 0 := by norm_num
  have hpow : (10 : ℚ) ^ d.exponent = 10 ^ d.exponent.toNat / 10 ^ (-d.exponent).toNat := by
    rw [← zpow_natCast, ← zpow_natCast, ← zpow_sub₀ hten]
    congr 1
    omega
  unfold value unitsNum unitsDen
  rw [hpow]
  push_cast
  ring

theorem value_trimmed (d : Decimal) : d.trimmed.value = d.value := by
  fun_induction trimmed d with
  | case1 d h ih =>
    rw [ih]
    have hdigits : (d.digits : ℚ) = 10 * (d.digits / 10 : Nat) := by
      exact_mod_cast show d.digits = 10 * (d.digits / 10) by omega
    unfold value
    rw [zpow_add_one₀ (by norm_num), hdigits]
    ring
  | case2 => rfl

theorem value_exact (units : Nat) : (exact units).value * unitsPerOne = units := by
  have hunits : (unitsPerOne : ℚ) = 2 ^ unitExponent := by
    rw [unitsPerOne_eq]
    exact Nat.cast_pow 2 unitExponent
  unfold value exact
  rw [hunits, zpow_neg, zpow_natCast]
  push_cast
  rw [show (10 : ℚ) = 5 * 2 by norm_num, mul_pow]
  have h5 : (5 : ℚ) ^ unitExponent ≠ 0 := pow_ne_zero _ (by norm_num)
  have h2 : (2 : ℚ) ^ unitExponent ≠ 0 := pow_ne_zero _ (by norm_num)
  field_simp

/-! ## Reading -/

theorem two_pow_le_ten_pow {n k : Nat} (h : n ≤ 3 * k) : 2 ^ n ≤ 10 ^ k := by
  calc 2 ^ n ≤ 2 ^ (3 * k) := Nat.pow_le_pow_right (by decide) h
    _ = 8 ^ k := Nat.pow_mul 2 3 k
    _ ≤ 10 ^ k := Nat.pow_le_pow_left (by decide) k

/-- Above the reach of all formats, a decimal overflows. -/
theorem two_pow_top_le_unitsNum {d : Decimal} (h0 : d.digits ≠ 0) (h : (reach : Int) < d.exponent) :
    2 ^ f.top ≤ d.unitsNum := by
  have hexp : f.top - unitExponent ≤ 3 * d.exponent.toNat := by
    have htop : f.top ≤ 2098 := f.top_le_double
    unfold reach at h
    unfold unitExponent
    omega
  calc 2 ^ f.top ≤ 2 ^ (f.top - unitExponent + unitExponent) :=
        Nat.pow_le_pow_right (by decide) (by omega)
    _ = 2 ^ (f.top - unitExponent) * unitsPerOne := (two_pow_mul_unitsPerOne _).symm
    _ ≤ 10 ^ d.exponent.toNat * unitsPerOne := Nat.mul_le_mul_right _ (two_pow_le_ten_pow hexp)
    _ ≤ d.digits * 10 ^ d.exponent.toNat * unitsPerOne :=
        Nat.mul_le_mul_right _ (Nat.le_mul_of_pos_left _ (Nat.pos_of_ne_zero h0))

/-- Below the reach of all formats, a decimal is less than half a unit. -/
theorem two_mul_unitsNum_lt {d : Decimal} (h : d.exponent + (d.digits.log2 + 1) < -reach) :
    2 * d.unitsNum < d.unitsDen := by
  have hzero : d.exponent.toNat = 0 := by unfold reach at h; omega
  have hunits : 2 * unitsPerOne = 2 ^ (unitExponent + 1) := by
    rw [unitsPerOne_eq, Nat.pow_succ']
  have hexp : unitExponent + 1 ≤ 3 * ((-d.exponent).toNat - (d.digits.log2 + 1)) := by
    unfold reach at h
    unfold unitExponent
    omega
  have hdigits : d.digits < 10 ^ (d.digits.log2 + 1) :=
    Nat.lt_of_lt_of_le Nat.lt_log2_self (two_pow_le_ten_pow (by omega))
  have hsplit : d.unitsDen =
      10 ^ (d.digits.log2 + 1) * 10 ^ ((-d.exponent).toNat - (d.digits.log2 + 1)) := by
    rw [← Nat.pow_add, Nat.add_sub_cancel' (by unfold reach at h; omega)]
    rfl
  unfold unitsNum
  rw [hzero, Nat.pow_zero, Nat.mul_one, hsplit]
  calc 2 * (d.digits * unitsPerOne) = d.digits * (2 * unitsPerOne) := Nat.mul_left_comm ..
    _ = d.digits * 2 ^ (unitExponent + 1) := by rw [hunits]
    _ < 10 ^ (d.digits.log2 + 1) * 2 ^ (unitExponent + 1) :=
        Nat.mul_lt_mul_of_pos_right hdigits (Nat.two_pow_pos _)
    _ ≤ _ := Nat.mul_le_mul_left _ (two_pow_le_ten_pow hexp)

/-- Reading a decimal is rounding its value, for every exponent. -/
theorem toBinary_eq_round (d : Decimal) :
    d.toBinary f negative = Binary.round negative d.unitsNum d.unitsDen := by
  have hzero : 2 * d.unitsNum < d.unitsDen →
      Binary.round negative d.unitsNum d.unitsDen = (Binary.signedZero negative : Binary f) :=
    fun h => Binary.round_of_nearest f.representable_zero (Format.nearest_eq_zero h)
  unfold toBinary
  split
  · next h =>
    refine (hzero ?_).symm
    unfold unitsNum
    rw [h, Nat.zero_mul, Nat.zero_mul]
    exact d.unitsDen_pos
  · next h0 =>
    split
    · next h =>
      refine (Binary.round_of_top_le (Format.two_pow_top_le_nearest d.unitsDen_pos ?_)).symm
      have hden : d.unitsDen = 1 := by
        unfold unitsDen
        rw [show (-d.exponent).toNat = 0 by unfold reach at h; omega, Nat.pow_zero]
      rw [hden, Nat.cast_one, div_one, Nat.cast_le]
      exact two_pow_top_le_unitsNum h0 h
    · split
      · next h => exact (hzero (two_mul_unitsNum_lt h)).symm
      · rfl

theorem nearest_of_value_eq {d e : Decimal} (h : d.value = e.value) :
    f.nearest d.unitsNum d.unitsDen = f.nearest e.unitsNum e.unitsDen :=
  Format.nearest_congr d.unitsDen_pos e.unitsDen_pos (by
    rw [unitsNum_div_unitsDen, unitsNum_div_unitsDen, h])

/-- Decimals of one value are read alike. -/
theorem toBinary_congr {d e : Decimal} (h : d.value = e.value) :
    d.toBinary f negative = e.toBinary f negative := by
  rw [toBinary_eq_round, toBinary_eq_round]
  exact Binary.round_congr (nearest_of_value_eq h)

/-! ## Shortest digits -/

/-- The shortest digits of a magnitude are nearest to it in its format. -/
theorem nearest_shortest {units : Nat} (hu : f.Representable units) :
    f.nearest (shortest f units).unitsNum (shortest f units).unitsDen = units := by
  rcases shortest_eq_or_exact f units with ⟨d, hd, heq⟩ | heq
  · rw [heq, nearest_of_value_eq (value_trimmed d)]
    unfold ReadsAs at hd
    rw [toBinary_eq_round] at hd
    exact Binary.nearest_of_rank_round hu hd
  · rw [heq, nearest_of_value_eq (value_trimmed (exact units))]
    refine Format.nearest_of_eq (unitsDen_pos _) hu.onGrid ?_
    rw [unitsNum_div_unitsDen, value_exact]

end Decimal

end ColorAlgebra
