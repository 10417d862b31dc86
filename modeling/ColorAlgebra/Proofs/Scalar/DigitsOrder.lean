import ColorAlgebra.Proofs.Binary.Ordered
import ColorAlgebra.Proofs.Scalar.Powers
import ColorAlgebra.Proofs.Scalar.Tens

/-!
# Rounding to digits twice, and in order

A number that was rounded to places behind the point is not moved by rounding it again, though
it is seldom a multiple of the power of ten itself. Rounding keeps the order of all values, on
both sides of the point and past the bounds. To the left of the point the order does not depend
on what the powers of ten are rounded to, as long as they are positive numbers.
-/

namespace ColorAlgebra.Scalar

open Binary

variable {x y p : Double} {digits : Int} {power : Int → Double}

/-! ## Rounding twice -/

theorem roundDigits_roundDigits (h : 0 ≤ digits) :
    roundDigits (roundDigits x digits) digits = roundDigits x digits := by
  by_cases hx : x.isFinite = true
  · rcases lt_or_ge finestDigit digits with hfine | hfine
    · exact roundDigitsBy_of_fine hfine
    · have hround := roundedAt_roundDigits_of_nonneg hx h hfine
      have hfinite := ((roundedAt_iff hx).mp hround).2
      have hself := ((roundedAt_iff hfinite).mp (hround.again hx)).1
      have htwice := roundedAt_roundDigits_of_nonneg hfinite h hfine
      exact ((roundedAt_iff hfinite).mp htwice).1.trans hself.symm
  · have hself : roundDigits x digits = x := roundDigitsBy_of_not_isFinite hx
    rw [hself, hself]

/-! ## Rounding in order -/

/-- Both the nearest multiple and what it is rounded to follow the order of numbers. -/
theorem keepsOrder_roundAt (digits : Int) : KeepsOrder (roundAt digits : Double → Double) := by
  refine keepsOrder_of_finite (fun _ => rfl) fun x y hx hy hle => ?_
  have hp : (0 : ℚ) < 10 ^ (-digits) := by positivity
  obtain ⟨k, hk, hround⟩ := isRounding_roundAt digits hx
  obtain ⟨k', hk', hround'⟩ := isRounding_roundAt digits hy
  have hcast : (k : ℚ) ≤ k' := by exact_mod_cast hk.mono hp hk' hle
  exact hround.atMost hround' (mul_le_mul_of_nonneg_right hcast (le_of_lt hp))

/-- A whole number is a multiple of the power of ten that is one. -/
theorem roundEven_eq_roundAt (x : Double) : x.roundEven = x.roundAt 0 := by
  cases x with
  | nan => rfl
  | infinity => rfl
  | finite s n hn =>
    have hmultiple : multipleAt 0 n = Format.roundDiv n unitsPerOne := by
      unfold multipleAt
      rw [Int.neg_zero, Int.toNat_zero, Nat.pow_zero, Nat.mul_one, Nat.mul_one]
    have hround := toBinary_natCast_exponent s (Format.roundDiv n unitsPerOne) 0
    rw [Nat.pow_zero, Nat.one_mul] at hround
    dsimp only [roundAt]
    rw [hmultiple]
    exact hround.symm

theorem rank_signedZero {f : Format} (s : Bool) : (signedZero s : Binary f).rank = some 0 := by
  cases s <;> rfl

/-- The zero that replaces a zero stands at the same place. -/
theorem rank_roundMultiple (hx : x.isFinite = true) (p : Double) :
    (roundMultiple x p).rank = ((x.div p).roundEven.mul p).rank := by
  obtain ⟨s, n, hn, rfl⟩ := exists_finite hx
  unfold roundMultiple
  dsimp only
  split
  · next hzero => rw [zero_mul_finite, eq_signedZero hzero, rank_signedZero, rank_signedZero]
  · rfl

/-- Each of the three steps of rounding to a multiple keeps the order. -/
theorem keepsOrder_multiple (hp : p.isFinite = true) (h0 : 0 < p.value) :
    KeepsOrder fun x => (x.div p).roundEven.mul p := by
  simp only [roundEven_eq_roundAt]
  exact ((keepsOrder_mul hp h0).comp (keepsOrder_roundAt 0)).comp (keepsOrder_div hp h0)

/-! ## Powers of ten -/

/-- The powers of ten that rounding to the left of the point asks for are positive numbers. -/
def PositivePowers (power : Int → Double) : Prop :=
  ∀ n, 1 ≤ n → n ≤ 308 → (power n).isFinite = true ∧ 0 < (power n).value

/-- The order is kept in each of the four ways that a number of digits leads to. -/
theorem keepsOrder_roundDigitsBy (hpower : PositivePowers power) (digits : Int) :
    KeepsOrder fun x => roundDigitsBy power x digits := by
  have hinfinity : ∀ s, roundDigitsBy power (infinity s) digits = infinity s :=
    fun s => roundDigitsBy_of_not_isFinite (by simp [isFinite])
  have hzero : KeepsOrder fun _ : Double => (zero : Double) := by
    have hself : (zero : Double).ordered false zero = true := ordered_self rfl
    exact fun _ _ _ => hself
  rcases lt_or_ge finestDigit digits with hfine | hfine
  · have hself : KeepsOrder fun x : Double => x := fun _ _ h => h
    exact hself.of_finite hinfinity fun x _ => congrArg rank (roundDigitsBy_of_fine hfine)
  rcases lt_or_ge digits coarsestDigit with hcoarse | hcoarse
  · refine hzero.of_finite hinfinity fun x hx => ?_
    have hround : roundDigitsBy power x digits = zero.mul x := roundDigitsBy_of_coarse hx hcoarse
    obtain ⟨s, n, hn, rfl⟩ := exists_finite hx
    rw [hround, zero_mul_finite, rank_signedZero, rank_zero]
  rcases lt_or_ge digits 0 with hneg | hnonneg
  · obtain ⟨hp, h0⟩ := hpower (-digits) (by omega) (by unfold coarsestDigit at hcoarse; omega)
    refine (keepsOrder_multiple hp h0).of_finite hinfinity fun x hx => ?_
    rw [roundDigitsBy_of_neg hx hcoarse hneg, rank_roundMultiple hx]
  · refine (keepsOrder_roundAt digits).of_finite hinfinity fun x hx => ?_
    rw [roundDigitsBy_of_nonneg hnonneg]
    exact congrArg rank
      ((roundedAt_iff hx).mp (roundedAt_roundDigits_of_nonneg hx hnonneg hfine)).1

/-- The powers that are multiplied out are. -/
theorem positivePowers_powerOfTen : PositivePowers powerOfTen := by
  intro n hlow hhigh
  have hpower := atLeastOne_powerOfTen hhigh
  exact ⟨hpower.finite, lt_of_lt_of_le one_pos hpower.one_le⟩

theorem keepsOrder_roundDigits (digits : Int) : KeepsOrder fun x => roundDigits x digits :=
  keepsOrder_roundDigitsBy positivePowers_powerOfTen digits

/-- Rounding to digits never takes a value past another, for any digits, and at places behind the
point a second rounding changes nothing. Neither depends on how the powers of ten are computed,
if only they are positive numbers. -/
theorem roundDigits_idempotent_monotone (digits : Int) :
    (0 ≤ digits → ∀ x, roundDigits (roundDigits x digits) digits = roundDigits x digits) ∧
    (∀ x y, x.atMost y = true → (roundDigits x digits).atMost (roundDigits y digits) = true) ∧
    ∀ power, PositivePowers power →
      (0 ≤ digits → ∀ x, roundDigitsBy power (roundDigitsBy power x digits) digits =
        roundDigitsBy power x digits) ∧
      ∀ x y, x.atMost y = true →
        (roundDigitsBy power x digits).atMost (roundDigitsBy power y digits) = true := by
  refine ⟨fun h x => roundDigits_roundDigits h, keepsOrder_roundDigits digits,
    fun power hpower => ⟨fun h x => ?_, keepsOrder_roundDigitsBy hpower digits⟩⟩
  rw [roundDigitsBy_of_nonneg h, roundDigitsBy_of_nonneg h, roundDigits_roundDigits h]

/-- A number that looks like a tie is rounded once, and two numbers on different sides of a tie
are rounded away from each other. -/
theorem roundDigits_idempotent_monotone_ties :
    let low : Double := ofNat 149
    let high : Double := ofNat 151
    (0 : Int) ≤ 2 ∧ roundDigits (roundDigits nearTie 2) 2 = roundDigits nearTie 2 ∧
      PositivePowers powerOfTen ∧ low.atMost high = true ∧
      roundDigitsBy powerOfTen low (-2) = ofNat 100 ∧
      roundDigitsBy powerOfTen high (-2) = ofNat 200 ∧
      (roundDigitsBy powerOfTen low (-2)).atMost (roundDigitsBy powerOfTen high (-2)) = true := by
  intro low high
  have horder : low.atMost high = true := by decide +kernel
  obtain ⟨htwice, -, -⟩ := roundDigits_idempotent_monotone 2
  obtain ⟨-, -, hpower⟩ := roundDigits_idempotent_monotone (-2)
  exact ⟨by decide, htwice (by decide) nearTie, positivePowers_powerOfTen, horder,
    by decide +kernel, by decide +kernel,
    (hpower powerOfTen positivePowers_powerOfTen).2 low high horder⟩

end ColorAlgebra.Scalar
