import Mathlib.Data.Rat.Floor
import Mathlib.Tactic.LinearCombination
import ColorAlgebra.Scalar
import ColorAlgebra.Proofs.Binary.Monotone

/-!
# The remainder with the sign of the divisor

The remainder with the sign of the dividend is exact: it is less than the divisor and lies on the
grid of both. The one with the sign of the divisor is the same if the signs are alike, and the sum
of it and the divisor otherwise. That sum is the only rounding, so that the result is the double
nearest to `x - y * ⌊x / y⌋`. It may be rounded to the divisor itself, but not past it.
-/

namespace ColorAlgebra

/-! ## The exact remainder -/

/-- A remainder lies on the grid of the divisor and below it. -/
theorem Format.Representable.mod {f : Format} {a b : Nat} (ha : f.Representable a)
    (hb : f.Representable b) : f.Representable (a % b) := by
  rcases Nat.lt_or_ge a b with hlt | hge
  · rwa [Nat.mod_eq_of_lt hlt]
  · rcases Nat.eq_zero_or_pos b with rfl | hpos
    · rwa [Nat.mod_zero]
    · have hless := Nat.mod_lt a hpos
      have hdvd : 2 ^ f.step b ∣ a % b :=
        (Nat.dvd_mod_iff hb.onGrid).mpr
          (Nat.dvd_trans (Nat.pow_dvd_pow 2 (Format.step_mono hge)) ha.onGrid)
      refine ⟨Nat.lt_trans hless hb.1, Nat.dvd_trans (Nat.pow_dvd_pow 2 ?_) hdvd⟩
      exact Format.step_mono (Nat.le_of_lt hless)

namespace Binary

variable {f : Format} {s t : Bool} {a b : Nat} {ha : f.Representable a} {hb : f.Representable b}

theorem rem_finite (hb0 : b ≠ 0) :
    (finite s a ha).rem (finite t b hb) = finite s (a % b) (ha.mod hb) := by
  dsimp only [rem]
  rw [if_neg hb0, ofUnits_of_representable s (ha.mod hb)]

theorem isZero_finite : (finite s a ha).isZero = decide (a = 0) := by
  cases a <;> rfl

theorem less_zero_finite (ha0 : a ≠ 0) : (finite s a ha).less zero = s := by
  show decide (signed s a < 0) = s
  rw [Bool.eq_iff_iff, decide_eq_true_iff]
  exact signed_lt_zero_iff (Nat.pos_of_ne_zero ha0)

theorem less_zero_infinity : (infinity s : Binary f).less zero = s := by
  show decide (signed s (2 ^ Format.double.top) < 0) = s
  rw [Bool.eq_iff_iff, decide_eq_true_iff]
  exact signed_lt_zero_iff (Nat.two_pow_pos _)

theorem rem_eq_nan {x y : Binary f} (h : x.isFinite = false ∨ y.isNaN = true) : x.rem y = nan := by
  rcases h with h | h
  · cases x with
    | nan => rfl
    | infinity => cases y <;> rfl
    | finite => cases h
  · cases y with
    | nan => cases x <;> rfl
    | infinity => cases h
    | finite => cases h

end Binary

namespace Scalar

open Binary

section
variable {s t : Bool} {a b : Nat} {ha : Format.double.Representable a}
  {hb : Format.double.Representable b}

/-! ## The three branches -/

theorem floorMod_finite (hb0 : b ≠ 0) :
    floorMod (finite s a ha) (finite t b hb) =
      if a % b = 0 then signedZero t
      else if s ≠ t then (finite s (a % b) (ha.mod hb)).add (finite t b hb)
      else finite s (a % b) (ha.mod hb) := by
  unfold floorMod
  rw [rem_finite hb0, isZero_finite, decide_eq_false hb0]
  dsimp only
  by_cases hzero : a % b = 0
  · rw [isZero_finite, decide_eq_true hzero, if_pos hzero]
    rfl
  · rw [isZero_finite, decide_eq_false hzero, less_zero_finite hzero, less_zero_finite hb0,
      if_neg hzero]
    rfl

theorem floorMod_infinity :
    floorMod (finite s a ha) (infinity t) =
      if a = 0 then signedZero t else if s = t then finite s a ha else infinity t := by
  unfold floorMod
  dsimp only [Binary.rem]
  by_cases hzero : a = 0
  · rw [isZero_finite, decide_eq_true hzero, if_pos hzero]
    rfl
  · rw [isZero_finite, decide_eq_false hzero, less_zero_finite hzero, less_zero_infinity,
      if_neg hzero]
    by_cases hst : s = t
    · rw [if_pos hst, if_neg (not_not.mpr hst)]
      rfl
    · rw [if_neg hst, if_pos hst]
      rfl

/-! ## Whole quotients -/

/-- A remainder that has the sign of the divisor and is less than it belongs to the floor of the
quotient. -/
theorem sub_mul_floor {x y r : ℚ} {k : ℤ} (hy : y ≠ 0) (hx : x = y * k + r) (hlow : 0 ≤ r / y)
    (hhigh : r / y < 1) : x - y * ⌊x / y⌋ = r := by
  have hquotient : x / y = k + r / y := by
    rw [hx]
    field_simp
  have hfloor : ⌊x / y⌋ = k := by
    rw [Int.floor_eq_iff, hquotient]
    exact ⟨by linarith, by linarith⟩
  rw [hfloor, hx]
  ring

/-- Dividing magnitudes leaves a remainder with the sign of the dividend. -/
theorem value_eq_mul_add (s t : Bool) (a b : Nat) :
    sign s * (a / unitsPerOne : ℚ) =
      sign t * (b / unitsPerOne) * (signed (s ^^ t) (a / b) : ℤ) +
        sign s * ((a % b : Nat) / unitsPerOne) := by
  have hdiv : (a : ℚ) = b * (a / b : Nat) + (a % b : Nat) := by
    exact_mod_cast (Nat.div_add_mod a b).symm
  have hsquare : sign t * sign t = 1 := by cases t <;> simp [sign]
  generalize a / b = k at hdiv ⊢
  rw [cast_signed, sign_xor, hdiv]
  linear_combination (-(sign s * (b * k / unitsPerOne) : ℚ)) * hsquare

theorem sign_div_sign (s t : Bool) : sign s / sign t = sign (s ^^ t) := by
  cases s <;> cases t <;> norm_num [sign]

/-- What the quotient of a remainder by the divisor is. -/
theorem remainder_div (s t : Bool) (c : Nat) :
    sign s * (c / unitsPerOne : ℚ) / (sign t * (b / unitsPerOne)) = sign (s ^^ t) * (c / b) := by
  have hU := ne_of_gt Format.cast_unitsPerOne_pos
  rw [mul_div_mul_comm, sign_div_sign, div_div_div_cancel_right₀ hU]

theorem divisor_ne_zero (hb0 : b ≠ 0) (t : Bool) : sign t * (b / unitsPerOne : ℚ) ≠ 0 := by
  have hbcast : (b : ℚ) ≠ 0 := by exact_mod_cast hb0
  have hsign : sign t ≠ 0 := by cases t <;> norm_num [sign]
  exact mul_ne_zero hsign (div_ne_zero hbcast (ne_of_gt Format.cast_unitsPerOne_pos))

theorem mod_div_lt_one (hb0 : b ≠ 0) (a : Nat) : ((a % b : Nat) / b : ℚ) < 1 := by
  have hbpos : (0 : ℚ) < b := by exact_mod_cast Nat.pos_of_ne_zero hb0
  rw [div_lt_one hbpos]
  exact_mod_cast Nat.mod_lt a (Nat.pos_of_ne_zero hb0)

/-- If the signs are alike, or nothing is left, the remainder is that of the magnitudes. -/
theorem exact_remainder_alike (hb0 : b ≠ 0) (h : s = t ∨ a % b = 0) :
    sign s * (a / unitsPerOne : ℚ) - sign t * (b / unitsPerOne) *
        ⌊sign s * (a / unitsPerOne : ℚ) / (sign t * (b / unitsPerOne))⌋ =
      sign s * ((a % b : Nat) / unitsPerOne) := by
  have hless := mod_div_lt_one hb0 a
  have hnonneg : (0 : ℚ) ≤ (a % b : Nat) / b := by positivity
  have hquotient : sign s * ((a % b : Nat) / unitsPerOne : ℚ) / (sign t * (b / unitsPerOne)) =
      (a % b : Nat) / b := by
    rw [remainder_div]
    rcases h with rfl | hzero
    · rw [Bool.xor_self, sign_false_mul]
    · rw [hzero, Nat.cast_zero, zero_div, mul_zero]
  refine sub_mul_floor (divisor_ne_zero hb0 t) (value_eq_mul_add s t a b) ?_ ?_
  · rwa [hquotient]
  · rwa [hquotient]

/-- If they are unlike, one more divisor is taken away, and what is left moves to the other side
of zero. -/
theorem exact_remainder_unlike (hb0 : b ≠ 0) (hst : s ≠ t) (h0 : a % b ≠ 0) :
    sign s * (a / unitsPerOne : ℚ) - sign t * (b / unitsPerOne) *
        ⌊sign s * (a / unitsPerOne : ℚ) / (sign t * (b / unitsPerOne))⌋ =
      sign s * ((a % b : Nat) / unitsPerOne) + sign t * (b / unitsPerOne) := by
  have hless := mod_div_lt_one hb0 a
  have hdivisor := divisor_ne_zero hb0 t
  have hpos : (0 : ℚ) < (a % b : Nat) / b :=
    div_pos (Nat.cast_pos.mpr (Nat.pos_of_ne_zero h0)) (Nat.cast_pos.mpr (Nat.pos_of_ne_zero hb0))
  have hxor : (s ^^ t) = true := by cases s <;> cases t <;> simp at hst ⊢
  have hquotient : (sign s * ((a % b : Nat) / unitsPerOne) + sign t * (b / unitsPerOne) : ℚ) /
      (sign t * (b / unitsPerOne)) = 1 - (a % b : Nat) / b := by
    rw [add_div, div_self hdivisor, remainder_div, hxor, sign_true_mul]
    ring
  refine sub_mul_floor (k := signed (s ^^ t) (a / b) - 1) hdivisor ?_ ?_ ?_
  · rw [value_eq_mul_add s t a b]
    push_cast
    ring
  · rw [hquotient]
    linarith
  · rw [hquotient]
    linarith

/-- The exact result of each branch. -/
theorem exact_remainder (hb0 : b ≠ 0) :
    sign s * (a / unitsPerOne : ℚ) - sign t * (b / unitsPerOne) *
        ⌊sign s * (a / unitsPerOne : ℚ) / (sign t * (b / unitsPerOne))⌋ =
      if a % b = 0 then 0
      else if s ≠ t then
        sign s * ((a % b : Nat) / unitsPerOne) + sign t * (b / unitsPerOne)
      else sign s * ((a % b : Nat) / unitsPerOne) := by
  by_cases hzero : a % b = 0
  · rw [if_pos hzero, exact_remainder_alike hb0 (.inr hzero), hzero, Nat.cast_zero, zero_div,
      mul_zero]
  · rw [if_neg hzero]
    by_cases hst : s = t
    · rw [if_neg (not_not.mpr hst)]
      exact exact_remainder_alike hb0 (.inl hst)
    · rw [if_pos hst]
      exact exact_remainder_unlike hb0 hst hzero

/-! ## Rounding -/

/-- A sum across zero is not past the greater number. -/
theorem abs_add_remainder_le (hst : s ≠ t) {c : Nat} (hless : c < b) :
    |sign s * (c / unitsPerOne : ℚ) + sign t * (b / unitsPerOne)| ≤ b / unitsPerOne := by
  have hle : (c / unitsPerOne : ℚ) ≤ b / unitsPerOne := by
    rw [div_le_div_iff_of_pos_right Format.cast_unitsPerOne_pos]
    exact_mod_cast Nat.le_of_lt hless
  have hnonneg : (0 : ℚ) ≤ c / unitsPerOne := by positivity
  have hsum : sign s * (c / unitsPerOne : ℚ) + sign t * (b / unitsPerOne) =
      sign t * (b / unitsPerOne - c / unitsPerOne) := by
    rw [Bool.eq_not.mpr hst, sign_not]
    ring
  rw [hsum, abs_sign_mul, abs_of_nonneg (by linarith)]
  linarith

/-- The sum of a remainder and a greater divisor has the sign of the divisor, and is not past it. -/
theorem add_remainder (hst : s ≠ t) {c : Nat} {hc : Format.double.Representable c} (hless : c < b) :
    ((finite s c hc).add (finite t b hb)).IsNearest
        (sign s * (c / unitsPerOne) + sign t * (b / unitsPerOne)) ∧
      ((finite s c hc).add (finite t b hb)).isNegative = t ∧
      |((finite s c hc).add (finite t b hb)).value| ≤ b / unitsPerOne := by
  have hne : signed t b + signed s c ≠ 0 := by
    cases s <;> cases t <;> simp [signed] at hst ⊢ <;> omega
  have hsum : (finite t b hb : Double).add (finite s c hc) =
      ofUnits (decide (signed t b + signed s c < 0)) (signed t b + signed s c).natAbs := by
    dsimp only [add]
    rw [if_neg hne]
  have hround := isRounding_add (x := finite s c hc) (y := finite t b hb) rfl rfl
  have hdivisor := abs_value_finite t hb
  have hle : |(finite s c hc).value + (finite t b hb).value| ≤ |(finite t b hb).value| := by
    rw [hdivisor]
    exact abs_add_remainder_le hst hless
  have hfinite := hround.isFinite (z := finite t b hb) rfl hle
  have hsize := hround.abs_value_le (.self rfl) hfinite rfl hle
  refine ⟨hround.isNearest hfinite, ?_, hdivisor ▸ hsize⟩
  rw [Binary.add_comm, hsum, isNegative_ofUnits, signed_add_lt (Nat.le_of_lt hless) hne]

/-- The remainder of finite numbers: the exact result rounded once, with the sign of the divisor
and not past it. -/
theorem floorMod_finite_isNearest (ha : Format.double.Representable a)
    (hb : Format.double.Representable b) (hb0 : b ≠ 0) :
    (floorMod (finite s a ha) (finite t b hb)).IsNearest
        (sign s * (a / unitsPerOne : ℚ) - sign t * (b / unitsPerOne) *
          ⌊sign s * (a / unitsPerOne : ℚ) / (sign t * (b / unitsPerOne))⌋) ∧
      (floorMod (finite s a ha) (finite t b hb)).isNegative = t ∧
      |(floorMod (finite s a ha) (finite t b hb)).value| ≤ b / unitsPerOne := by
  have hless := Nat.mod_lt a (Nat.pos_of_ne_zero hb0)
  have hsize : ((a % b : Nat) / unitsPerOne : ℚ) ≤ b / unitsPerOne := by
    rw [div_le_div_iff_of_pos_right Format.cast_unitsPerOne_pos]
    exact_mod_cast Nat.le_of_lt hless
  rw [floorMod_finite hb0, exact_remainder hb0]
  by_cases hzero : a % b = 0
  · rw [if_pos hzero, if_pos hzero, value_signedZero, abs_zero]
    exact ⟨(isRounding_zero t).isNearest rfl, rfl, by positivity⟩
  · rw [if_neg hzero, if_neg hzero]
    by_cases hst : s = t
    · rw [if_neg (not_not.mpr hst), if_neg (not_not.mpr hst), abs_value_finite]
      exact ⟨(IsRounding.self (x := finite s (a % b) (ha.mod hb)) rfl).isNearest rfl, hst, hsize⟩
    · rw [if_pos hst, if_pos hst]
      exact add_remainder hst hless

end

/-- No later step makes a number of a NaN. -/
theorem floorMod_of_rem {x y : Double} (h : x.rem y = nan) : floorMod x y = nan := by
  unfold floorMod
  rw [h]
  split
  · rfl
  · dsimp only
    rw [if_neg (show ¬(nan : Double).isZero = true from Bool.false_ne_true)]
    split <;> rfl

/-- There is no remainder where one of the operands is a NaN, for an infinite dividend and for a
zero divisor. -/
theorem isNaN_floorMod_iff (x y : Double) :
    (floorMod x y).isNaN = true ↔ x.isFinite = false ∨ y.isNaN = true ∨ y.isZero = true := by
  constructor
  · intro h
    by_contra hnone
    push Not at hnone
    obtain ⟨hx, hy, hzero⟩ := hnone
    obtain ⟨s, a, ha, rfl⟩ := exists_finite (Bool.of_not_eq_false hx)
    cases y with
    | nan => exact hy rfl
    | infinity t =>
      rw [floorMod_infinity] at h
      split at h
      · cases h
      · split at h <;> cases h
    | finite t b hb =>
      rw [isZero_finite, ne_eq, decide_eq_true_eq] at hzero
      obtain ⟨hnearest, -⟩ := floorMod_finite_isNearest (s := s) (t := t) ha hb hzero
      obtain ⟨u, c, hc, hresult⟩ := exists_finite hnearest.finite
      rw [hresult] at h
      cases h
  · intro h
    have hnan : floorMod x y = nan := by
      rcases or_assoc.mpr h with hnone | hzero
      · exact floorMod_of_rem (rem_eq_nan hnone)
      · unfold floorMod
        rw [if_pos hzero]
    rw [hnan]
    rfl

/-- The remainder with the sign of the divisor is the double nearest to `x - y * ⌊x / y⌋`. It has
the sign of the divisor, as a zero as well, and is not past it. An infinite divisor leaves a
dividend on its side of zero, and is the remainder of one on the other. There is a remainder
of a finite number by any number that is not zero, and no other. -/
theorem floorMod_isNearest (x y : Double) :
    (x.isFinite = true → y.isFinite = true → y.isZero = false →
      (floorMod x y).IsNearest (x.value - y.value * ⌊x.value / y.value⌋) ∧
      (floorMod x y).isNegative = y.isNegative ∧
      |(floorMod x y).value| ≤ |y.value|) ∧
    (x.isFinite = true → ∀ s, floorMod x (infinity s) =
      if x.isZero then signedZero s else if x.isNegative = s then x else infinity s) ∧
    ((floorMod x y).isNaN = true ↔ x.isFinite = false ∨ y.isNaN = true ∨ y.isZero = true) := by
  refine ⟨fun hx hy hy0 => ?_, fun hx s => ?_, isNaN_floorMod_iff x y⟩
  · obtain ⟨s, a, ha, rfl⟩ := exists_finite hx
    obtain ⟨t, b, hb, rfl⟩ := exists_finite hy
    rw [isZero_finite, decide_eq_false_iff_not] at hy0
    rw [abs_value_finite]
    exact floorMod_finite_isNearest ha hb hy0
  · obtain ⟨t, a, ha, rfl⟩ := exists_finite hx
    rw [floorMod_infinity, isZero_finite]
    simp only [decide_eq_true_eq]
    rfl

/-- The greatest negative double. -/
def justBelowZero : Double := finite true 1 (by decide +kernel)

/-- The remainder of the greatest negative double by 3 is a little less than 3, and the nearest
double is 3 itself. By infinity the same dividend leaves infinity, and 3 leaves itself. -/
theorem floorMod_isNearest_divisor :
    justBelowZero.isFinite = true ∧ (ofNat 3 : Double).isZero = false ∧
      floorMod justBelowZero (ofNat 3) = ofNat 3 ∧
      (floorMod justBelowZero (ofNat 3)).IsNearest
        (justBelowZero.value - (ofNat 3 : Double).value *
          ⌊justBelowZero.value / (ofNat 3 : Double).value⌋) ∧
      floorMod justBelowZero (infinity false) = infinity false ∧
      floorMod (ofNat 3) (infinity false) = ofNat 3 := by
  have hzero : (ofNat 3 : Double).isZero = false := by decide +kernel
  have hthree : (ofNat 3 : Double).isFinite = true := by decide +kernel
  obtain ⟨hfinite, hinfinity, -⟩ := floorMod_isNearest justBelowZero (ofNat 3)
  obtain ⟨-, hinfinity', -⟩ := floorMod_isNearest (ofNat 3) .nan
  refine ⟨rfl, hzero, by decide +kernel, (hfinite rfl hthree hzero).1, ?_, ?_⟩
  · rw [hinfinity rfl]
    rfl
  · rw [hinfinity' hthree]
    decide +kernel

end Scalar

end ColorAlgebra
