import ColorAlgebra.Proofs.Binary.Whole
import ColorAlgebra.Proofs.Scalar.Digits
import ColorAlgebra.Proofs.Scalar.Quotient

/-!
# Rounding to tens, hundreds and so on

To the left of the point, rounding is not decided on the exact value of a double, but on its
quotient by a power of ten, which is rounded first. The powers `10 ^ e` up to `10 ^ 22` are
doubles. With these the result is exact for all magnitudes below `2 ^ (52 + e)`. Above that it
is exact unless the quotient is rounded to a half-integer that it is not, or to a whole number
that does not give the double back.
-/

namespace ColorAlgebra.Scalar

open Binary Format

/-! ## Whole numbers -/

/-- The whole number nearest to a double is a double. -/
theorem roundEven_finite {f : Format} {n : Nat} (s : Bool) (hn : f.Representable n) :
    (finite s n hn).roundEven =
      finite s (roundDiv n unitsPerOne * unitsPerOne) (hn.whole toWhole_roundDiv) :=
  wholeBy_finite (fun _ => toWhole_roundDiv) hn

/-! ## Powers of ten -/

/-- A decimal without places behind the point is a whole number of units. -/
theorem toBinary_natCast_exponent (s : Bool) (k e : Nat) :
    (Decimal.mk k e).toBinary .double s = ofUnits s (k * (10 ^ e * unitsPerOne)) := by
  have hnum : (Decimal.mk k e).unitsNum = k * (10 ^ e * unitsPerOne) := by
    show k * 10 ^ e * unitsPerOne = _
    rw [Nat.mul_assoc]
  have hden : (Decimal.mk k e).unitsDen = 1 := by
    show 10 ^ (-(e : Int)).toNat = 1
    rw [Int.toNat_neg_natCast, Nat.pow_zero]
  rw [Decimal.toBinary_eq_round, hnum, hden]
  rfl

theorem representable_ten_pow : ∀ e ≤ 22, Format.double.Representable (10 ^ e * unitsPerOne) := by
  decide +kernel

theorem powerOfTen_eq {e : Nat} (he : e ≤ 22) :
    powerOfTen e = finite false (10 ^ e * unitsPerOne) (representable_ten_pow e he) := by
  revert e
  decide +kernel

theorem value_powerOfTen {e : Nat} (he : e ≤ 22) : (powerOfTen e).value = 10 ^ e := by
  rw [powerOfTen_eq he, value_units, Nat.cast_pow, Nat.cast_ofNat]

section
variable {s : Bool} {n e : Nat} {hn : Format.double.Representable n}

/-- Dividing by a power of ten does not overflow. -/
theorem representable_roundedQuotient (hn : Format.double.Representable n) (e : Nat) :
    Format.double.Representable (roundedQuotient (10 ^ e) n) :=
  hn.nearest_div (Nat.pow_pos (by decide))

theorem div_powerOfTen (he : e ≤ 22) :
    (finite s n hn : Double).div (powerOfTen e) =
      finite s (roundedQuotient (10 ^ e) n) (representable_roundedQuotient hn e) := by
  rw [powerOfTen_eq he]
  exact div_whole (representable_ten_pow e he) (Nat.pow_pos (by decide)) hn

/-- A whole number times a power of ten is rounded once. -/
theorem mul_powerOfTen (he : e ≤ 22) {k : Nat} (hk : Format.double.Representable (k * unitsPerOne)) :
    (finite s (k * unitsPerOne) hk : Double).mul (powerOfTen e) =
      ofUnits s (k * (10 ^ e * unitsPerOne)) := by
  rw [powerOfTen_eq he, mul_whole (representable_ten_pow e he) hk, Nat.mul_assoc,
    Nat.mul_comm unitsPerOne]

/-- The multiple that is found, in units. -/
theorem roundMultiple_finite (he : e ≤ 22) :
    roundMultiple (finite s n hn) (powerOfTen e) =
      ofUnits s (foundMultiple (10 ^ e) n * (10 ^ e * unitsPerOne)) := by
  unfold roundMultiple
  rw [div_powerOfTen he, roundEven_finite, mul_powerOfTen he]
  dsimp only
  split
  · next hzero =>
    have hsigned := eq_signedZero hzero
    rw [isNegative_ofUnits] at hsigned
    rw [zero_mul_finite, ← hsigned, foundMultiple]
  · rfl

theorem roundDigits_neg (h0 : 0 < e) (he : e ≤ 22) :
    roundDigits (finite s n hn) (-(e : Int)) =
      ofUnits s (foundMultiple (10 ^ e) n * (10 ^ e * unitsPerOne)) := by
  have hcoarse : coarsestDigit ≤ -(e : Int) := by unfold coarsestDigit; omega
  rw [roundDigits, roundDigitsBy_of_neg rfl hcoarse (by omega), Int.neg_neg,
    roundMultiple_finite he]

/-- What rounding is expected to give, in units. -/
theorem roundAt_neg :
    (finite s n hn : Double).roundAt (-(e : Int)) =
      ofUnits s (exactMultiple (10 ^ e) n * (10 ^ e * unitsPerOne)) := by
  have hmultiple : multipleAt (-(e : Int)) n = exactMultiple (10 ^ e) n := by
    unfold multipleAt exactMultiple
    rw [Int.toNat_neg_natCast, Nat.pow_zero, Nat.mul_one, Int.neg_neg, Int.toNat_natCast,
      Nat.mul_comm unitsPerOne]
  dsimp only [Binary.roundAt]
  rw [hmultiple, Int.neg_neg, toBinary_natCast_exponent]

/-- The result is right if it is the same number of units. -/
theorem roundedAt_ofUnits_iff (he : e ≤ 22) {k : Nat} :
    RoundedAt (-(e : Int)) (finite s n hn) (ofUnits s k) ↔
      Format.double.nearest k 1 =
        Format.double.nearest (exactMultiple (10 ^ e) n * (10 ^ e * unitsPerOne)) 1 := by
  have hfinite : (finite s n hn : Double).isFinite = true := rfl
  have hsmall : (10 : ℚ) ^ (-(-(e : Int))) ≤ 2 ^ 970 := by
    rw [Int.neg_neg, zpow_natCast]
    calc (10 : ℚ) ^ e ≤ 10 ^ 22 := pow_le_pow_right₀ (by norm_num) he
      _ ≤ 2 ^ 74 := by norm_num
      _ ≤ 2 ^ 970 := pow_le_pow_right₀ (by norm_num) (by norm_num)
  have hright := isFinite_roundAt hfinite hsmall
  rw [roundedAt_iff hfinite]
  rw [roundAt_neg] at hright ⊢
  constructor
  · rintro ⟨heq, -⟩
    have h := representable_nearest ((isFinite_round_iff s).mp hright)
    exact nearest_of_round (heq.trans (round_of_nearest h rfl))
  · intro heq
    rw [ofUnits, round_congr heq]
    exact ⟨rfl, hright⟩

theorem roundedAt_self_iff (he : e ≤ 22) :
    RoundedAt (-(e : Int)) (finite s n hn) (finite s n hn) ↔
      Format.double.nearest (exactMultiple (10 ^ e) n * (10 ^ e * unitsPerOne)) 1 = n := by
  have hiff := @roundedAt_ofUnits_iff s n e hn he n
  rw [ofUnits_of_representable s hn, nearest_of_representable hn] at hiff
  rw [hiff, eq_comm]

theorem falseTie_value_iff (he : e ≤ 22) :
    FalseTie ((finite s n hn : Double).value / 10 ^ e)
        ((finite s n hn : Double).div (powerOfTen e)).value ↔
      FalseTie (n / (10 ^ e : Nat) / unitsPerOne) (roundedQuotient (10 ^ e) n / unitsPerOne) := by
  rw [div_powerOfTen he]
  show FalseTie (sign s * (n / unitsPerOne) / 10 ^ e) (sign s * _) ↔ _
  rw [mul_div_assoc, falseTie_sign_iff, div_right_comm, Nat.cast_pow, Nat.cast_ofNat]

theorem lt_two_pow_mul_of_small (h : n < 2 ^ (52 + e) * unitsPerOne) :
    n < 2 ^ 53 * (10 ^ e * unitsPerOne) := by
  refine Nat.lt_of_lt_of_le h ?_
  rw [← Nat.mul_assoc, Nat.pow_add]
  exact Nat.mul_le_mul_right _ (Nat.mul_le_mul (Nat.pow_le_pow_right (by decide) (by decide))
    (Nat.pow_le_pow_left (by decide) e))

theorem mul_div_powerOfTen_eq_iff (he : e ≤ 22)
    (hlarge : 2 ^ 53 * (10 ^ e * unitsPerOne) ≤ n) :
    ((finite s n hn : Double).div (powerOfTen e)).mul (powerOfTen e) = finite s n hn ↔
      Format.double.nearest (foundMultiple (10 ^ e) n * (10 ^ e * unitsPerOne)) 1 = n := by
  have hwhole := roundedQuotient_eq_of_le (Nat.pow_pos (by decide)) hlarge
  have hrepresentable := representable_roundedQuotient hn e
  rw [div_powerOfTen he]
  simp only [hwhole] at hrepresentable ⊢
  rw [mul_powerOfTen he]
  exact ⟨nearest_of_round, round_of_nearest hn⟩

end

variable {x : Double} {digits : Int}

/-- Rounding to the left of the point has the sign of `x` and is exact for small magnitudes.
Below `2 ^ 53` times the power of ten, it is exact unless the quotient is rounded to a false
tie. Above, `x` is what is nearest to the nearest multiple, and rounding is exact if the
rounded quotient times the power of ten gives it back. -/
theorem roundedAt_roundDigits_iff (hx : x.isFinite = true) (hlow : -22 ≤ digits)
    (hhigh : digits ≤ -1) :
    (powerOfTen (-digits)).value = 10 ^ (-digits) ∧
      (|x.value| < 2 ^ 53 * 10 ^ (-digits) →
        (RoundedAt digits x (roundDigits x digits) ↔
          ¬FalseTie (x.value / 10 ^ (-digits)) (x.div (powerOfTen (-digits))).value)) ∧
      (2 ^ 53 * 10 ^ (-digits) ≤ |x.value| →
        RoundedAt digits x x ∧
          (RoundedAt digits x (roundDigits x digits) ↔
            (x.div (powerOfTen (-digits))).mul (powerOfTen (-digits)) = x)) ∧
      (|x.value| < 2 ^ (52 - digits) → RoundedAt digits x (roundDigits x digits)) ∧
      (roundDigits x digits).isNegative = x.isNegative := by
  obtain ⟨s, n, hn, rfl⟩ := exists_finite hx
  obtain ⟨e, he⟩ := Int.eq_ofNat_of_zero_le (show 0 ≤ -digits by omega)
  obtain rfl : digits = -(e : Int) := by omega
  have h0 : 0 < e := by omega
  have he22 : e ≤ 22 := by omega
  have hU := cast_unitsPerOne_pos
  have hpow : 0 < 10 ^ e := Nat.pow_pos (by decide)
  have hsize : |(finite s n hn : Double).value| = n / unitsPerOne := by
    have hnonneg : (0 : ℚ) ≤ n / unitsPerOne := by positivity
    show |sign s * (n / unitsPerOne : ℚ)| = _
    rw [abs_sign_mul, abs_of_nonneg hnonneg]
  have hexponent : (52 - -(e : Int)) = (52 + e : Nat) := by push_cast; ring
  rw [Int.neg_neg, roundDigits_neg h0 he22, isNegative_ofUnits, hsize, roundedAt_ofUnits_iff he22,
    zpow_natCast, falseTie_value_iff he22, roundedAt_self_iff he22, hexponent, zpow_natCast,
    div_lt_iff₀ hU, div_lt_iff₀ hU, le_div_iff₀ hU]
  refine ⟨?_, fun hlt => ?_, fun hge => ?_, fun hlt => ?_, rfl⟩
  · exact value_powerOfTen he22
  · have hlt : n < 2 ^ 53 * (10 ^ e * unitsPerOne) := by
      rw [← Nat.mul_assoc]
      exact_mod_cast hlt
    exact nearest_foundMultiple_eq_iff hpow hlt
  · have hge : 2 ^ 53 * (10 ^ e * unitsPerOne) ≤ n := by
      rw [← Nat.mul_assoc]
      exact_mod_cast hge
    have hexact := nearest_exactMultiple_of_le hn.onGrid hpow hge
    rw [mul_div_powerOfTen_eq_iff he22 hge, hexact]
    exact ⟨rfl, Iff.rfl⟩
  · have hsmall : n < 2 ^ (52 + e) * unitsPerOne := by exact_mod_cast hlt
    have hten : 10 ^ e = 5 ^ e * 2 ^ e := by rw [← Nat.mul_pow]
    exact (nearest_foundMultiple_eq_iff hpow (lt_two_pow_mul_of_small hsmall)).mpr
      (not_falseTie hn.onGrid hpow hten hsmall)

/-- A whole number that is 36 less than a multiple of a hundred with an odd number of hundreds.
The quotient by a hundred is rounded to the middle between two whole numbers. -/
def falselyTied : Double := Binary.ofNat 225179981368524864

theorem not_roundedAt_falselyTied :
    falselyTied.isFinite = true ∧ (-22 : Int) ≤ -2 ∧ (-2 : Int) ≤ -1 ∧
      FalseTie (falselyTied.value / 10 ^ (-(-2) : Int))
        (falselyTied.div (powerOfTen (-(-2)))).value ∧
      ¬RoundedAt (-2) falselyTied (roundDigits falselyTied (-2)) ∧
      RoundedAt (-2) falselyTied (Binary.ofNat 225179981368524896) := by
  have hfinite : falselyTied.isFinite = true := by decide +kernel
  have hright : Binary.ofNat 225179981368524896 = falselyTied.roundAt (-2) := by decide +kernel
  have hwrong : roundDigits falselyTied (-2) ≠ falselyTied.roundAt (-2) := by decide +kernel
  have hnot : ¬RoundedAt (-2) falselyTied (roundDigits falselyTied (-2)) := fun h =>
    hwrong ((roundedAt_iff hfinite).mp h).1
  obtain ⟨-, hbelow, hlarge, -⟩ :=
    roundedAt_roundDigits_iff hfinite (by decide : (-22 : Int) ≤ -2) (by decide)
  have hsmall : |falselyTied.value| < 2 ^ 53 * 10 ^ (-(-2) : Int) := by
    refine lt_of_not_ge fun hge => ?_
    have hself := ((roundedAt_iff hfinite).mp (hlarge hge).1).1
    exact absurd hself (by decide +kernel)
  refine ⟨hfinite, by decide, by decide, ?_, hnot, ?_⟩
  · by_contra htie
    exact hnot ((hbelow hsmall).mpr htie)
  · exact (roundedAt_iff hfinite).mpr ⟨hright, by decide +kernel⟩

end ColorAlgebra.Scalar
