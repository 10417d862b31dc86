import ColorAlgebra.Scalar
import ColorAlgebra.Proofs.Decimal.Places

/-!
# Rounding to decimal places

Rounding to places behind the point is decided on the exact value of a double. It is not
carried out where the place lies so far to the right that no double changes, or so far to the
left that none is left over: there the computation would give the double itself, or a zero
with its sign.
-/

namespace ColorAlgebra.Scalar

open Binary

variable {x : Double} {digits : Int} {power : Int → Double}

/-! ## Cases -/

theorem roundDigitsBy_of_not_isFinite (hx : ¬x.isFinite = true) :
    roundDigitsBy power x digits = x :=
  if_pos (.inl (by simpa using hx))

theorem roundDigitsBy_of_fine (hfine : finestDigit < digits) : roundDigitsBy power x digits = x :=
  if_pos (.inr hfine)

theorem roundDigitsBy_of_coarse (hx : x.isFinite = true) (hcoarse : digits < coarsestDigit) :
    roundDigitsBy power x digits = zero.mul x := by
  have hfine : ¬finestDigit < digits := by unfold coarsestDigit at hcoarse; unfold finestDigit; omega
  rw [roundDigitsBy, if_neg (by simp [hx, hfine]), if_pos hcoarse]

theorem roundDigitsBy_of_neg (hx : x.isFinite = true) (hcoarse : coarsestDigit ≤ digits)
    (hneg : digits < 0) : roundDigitsBy power x digits = roundMultiple x (power (-digits)) := by
  have hfine : ¬finestDigit < digits := by unfold finestDigit; omega
  rw [roundDigitsBy, if_neg (by simp [hx, hfine]), if_neg (Int.not_lt.mpr hcoarse),
    if_neg (Int.not_le.mpr hneg)]

/-- Behind the point, no power of ten is asked for. -/
theorem roundDigitsBy_of_nonneg (h : 0 ≤ digits) (power : Int → Double) (x : Double) :
    roundDigitsBy power x digits = roundDigits x digits := by
  unfold roundDigits roundDigitsBy
  rw [if_pos h, if_pos h]

theorem roundDigits_of_nonneg (hx : x.isFinite = true) (h : 0 ≤ digits)
    (hfine : digits ≤ finestDigit) : roundDigits x digits = x.roundPlaces digits.toNat := by
  have hcoarse : ¬digits < coarsestDigit := by unfold coarsestDigit; omega
  rw [roundDigits, roundDigitsBy, if_neg (by simp [hx, Int.not_lt.mpr hfine]), if_neg hcoarse,
    if_pos h]

/-! ## Past the bounds -/

/-- A unit in the finest place that is not looked at is less than the least positive double. -/
theorem unitsPerOne_lt_ten_pow : unitsPerOne < 10 ^ 324 := by decide +kernel

theorem zpow_neg_mul_lt_one (h : finestDigit < digits) :
    (10 : ℚ) ^ (-digits) * unitsPerOne < 1 := by
  have hU : (unitsPerOne : ℚ) < 10 ^ (324 : Int) := by exact_mod_cast unitsPerOne_lt_ten_pow
  have hpow : (10 : ℚ) ^ (-digits) ≤ 10 ^ (-324 : Int) :=
    zpow_le_zpow_right₀ (by norm_num) (by unfold finestDigit at h; omega)
  calc (10 : ℚ) ^ (-digits) * unitsPerOne
      ≤ 10 ^ (-324 : Int) * unitsPerOne := mul_le_mul_of_nonneg_right hpow (Nat.cast_nonneg _)
    _ < 10 ^ (-324 : Int) * 10 ^ (324 : Int) := mul_lt_mul_of_pos_left hU (by positivity)
    _ = 1 := by rw [← zpow_add₀ (by norm_num)]; norm_num

theorem two_pow_top_le : 2 * 2 ^ Format.double.top ≤ 10 ^ 309 * unitsPerOne := by decide +kernel

theorem two_mul_lt_zpow (h : digits < coarsestDigit) {n : Nat} (hn : Format.double.Representable n) :
    2 * (n : ℚ) < 10 ^ (-digits) * unitsPerOne := by
  have hlt : 2 * n < 10 ^ 309 * unitsPerOne := by
    have hmagnitude := hn.1
    have htop := two_pow_top_le
    omega
  have hpow : (10 : ℚ) ^ (309 : Int) ≤ 10 ^ (-digits) :=
    zpow_le_zpow_right₀ (by norm_num) (by unfold coarsestDigit at h; omega)
  calc 2 * (n : ℚ) < 10 ^ (309 : Int) * unitsPerOne := by exact_mod_cast hlt
    _ ≤ 10 ^ (-digits) * unitsPerOne := mul_le_mul_of_nonneg_right hpow (Nat.cast_nonneg _)

theorem zero_mul_finite {s : Bool} {n : Nat} (hn : Format.double.Representable n) :
    zero.mul (finite s n hn : Double) = signedZero s := by
  have hround : (Binary.round (false ^^ s) (0 * n) unitsPerOne : Double) = signedZero s := by
    rw [Bool.false_xor, Nat.zero_mul]
    exact round_of_nearest _ (Format.nearest_eq_zero Format.unitsPerOne_pos)
  exact hround

/-! ## Digits behind the point -/

theorem roundedAt_roundDigits_of_nonneg (hx : x.isFinite = true) (h : 0 ≤ digits)
    (hfine : digits ≤ finestDigit) : RoundedAt digits x (roundDigits x digits) := by
  have hround : roundDigits x digits = x.roundAt digits := by
    rw [roundAt_of_nonneg h, roundDigits_of_nonneg hx h hfine]
  have hp : (10 : ℚ) ^ (-digits) ≤ 1 := zpow_le_one_of_nonpos₀ (by norm_num) (by omega)
  refine (roundedAt_iff hx).mpr ⟨hround, ?_⟩
  rw [hround]
  exact isFinite_roundAt hx (le_trans hp (one_le_pow₀ one_le_two))

theorem roundedAt_roundDigits_of_finestDigit_lt (hx : x.isFinite = true)
    (h : finestDigit < digits) : RoundedAt digits x (roundDigits x digits) := by
  have hself : roundDigits x digits = x := roundDigitsBy_of_fine h
  rw [hself]
  exact roundedAt_self hx (zpow_neg_mul_lt_one h)

theorem roundedAt_roundDigits_of_lt_coarsestDigit (hx : x.isFinite = true)
    (h : digits < coarsestDigit) : RoundedAt digits x (roundDigits x digits) := by
  have hzero : roundDigits x digits = zero.mul x := roundDigitsBy_of_coarse hx h
  obtain ⟨s, n, hn, rfl⟩ := exists_finite hx
  rw [hzero, zero_mul_finite]
  exact roundedAt_zero (two_mul_lt_zpow h hn)

/-- Rounding to places behind the point, or past the coarsest digit, is exact: it gives the
double nearest to the multiple of the power of ten nearest to the value of `x`, and no other
double is that. Where the rounding is cut short, it gives what the computation would give. -/
theorem roundedAt_roundDigits (hx : x.isFinite = true) (h : 0 ≤ digits ∨ digits ≤ -309) :
    RoundedAt digits x (roundDigits x digits) ∧
      (∀ y, RoundedAt digits x y → y = roundDigits x digits) ∧
      roundDigits x digits = x.roundAt digits ∧
      (0 ≤ digits → roundDigits x digits = x.roundPlaces digits.toNat) := by
  have hround : RoundedAt digits x (roundDigits x digits) := by
    rcases h with h | h
    · rcases lt_or_ge finestDigit digits with hfine | hfine
      · exact roundedAt_roundDigits_of_finestDigit_lt hx hfine
      · exact roundedAt_roundDigits_of_nonneg hx h hfine
    · exact roundedAt_roundDigits_of_lt_coarsestDigit hx (by unfold coarsestDigit; omega)
  have heq := ((roundedAt_iff hx).mp hround).1
  refine ⟨hround, fun y hy => ?_, heq, fun hnonneg => ?_⟩
  · rw [heq]
    exact ((roundedAt_iff hx).mp hy).1
  · rw [heq, roundAt_of_nonneg hnonneg]

/-- The double of 2.675, which is below it. -/
def nearTie : Double := (Decimal.mk 2675 (-3)).toBinary .double false

theorem roundedAt_roundDigits_nearTie :
    nearTie.isFinite = true ∧ ((0 : Int) ≤ 2 ∨ (2 : Int) ≤ -309) ∧
      RoundedAt 2 nearTie ((Decimal.mk 267 (-2)).toBinary .double false) ∧
      ∀ y, RoundedAt 2 nearTie y → y = (Decimal.mk 267 (-2)).toBinary .double false := by
  have hfinite : nearTie.isFinite = true := by decide +kernel
  have hbelow : roundDigits nearTie 2 = (Decimal.mk 267 (-2)).toBinary .double false := by
    decide +kernel
  obtain ⟨hround, hunique, -⟩ := roundedAt_roundDigits hfinite (.inl (by decide : (0 : Int) ≤ 2))
  rw [hbelow] at hround hunique
  exact ⟨hfinite, .inl (by decide), hround, hunique⟩

end ColorAlgebra.Scalar
