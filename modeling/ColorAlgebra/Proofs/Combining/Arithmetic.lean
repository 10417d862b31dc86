import ColorAlgebra.Proofs.Binary.Narrowing
import ColorAlgebra.Proofs.Combining.Channels

/-!
# Arithmetic on colors

The four operations run on doubles, and each result is narrowed to the channel format. That is
the operation of the format itself: the number nearest to the exact result, however small, or an
infinity past the greatest one.
-/

namespace ColorAlgebra

/-! ## Correct rounding -/

namespace Format

theorem limit_pos (f : Format) : 0 < f.limit := by
  have hexponent : f.top - f.precision - 1 < f.top := by cases f <;> decide
  have hpow : (2 : ℚ) ^ (f.top - f.precision - 1) < 2 ^ f.top :=
    pow_lt_pow_right₀ one_lt_two hexponent
  exact div_pos (sub_pos.mpr hpow) cast_unitsPerOne_pos

/-- Overflow starts below the power of two at which the finite magnitudes end. -/
theorem limit_le (f : Format) : f.limit ≤ 2 ^ (f.top - unitExponent) := by
  have hexponent : unitExponent ≤ f.top := by cases f <;> decide
  have htop : (2 : ℚ) ^ f.top = 2 ^ (f.top - unitExponent) * unitsPerOne := by
    rw [unitsPerOne_eq, Nat.cast_pow, Nat.cast_two, ← pow_add, Nat.sub_add_cancel hexponent]
  rw [limit, div_le_iff₀ cast_unitsPerOne_pos, ← htop]
  exact sub_le_self _ (by positivity)

end Format

namespace Binary

variable {f : Format} {x : Binary f} {q : ℚ}

/-- The value nearest to `q`, a tie going to the even significand, or an infinity from half a
spacing above the greatest magnitude on. Nothing but zero itself loses its sign. -/
structure CorrectlyRounded (x : Binary f) (q : ℚ) : Prop where
  nearest : |q| < f.limit → x.IsNearest q
  overflow : f.limit ≤ |q| → x = infinity (decide (q < 0))
  sign : q ≠ 0 → x.isNegative = decide (q < 0)

theorem decide_sign_mul_neg (s : Bool) {p : ℚ} (hp : 0 < p) : decide (sign s * p < 0) = s := by
  cases s with
  | false => exact decide_eq_false (not_lt.mpr (by rw [sign_false_mul]; exact le_of_lt hp))
  | true => exact decide_eq_true (by rw [sign_true_mul]; exact neg_lt_zero.mpr hp)

theorem IsRounding.correctlyRounded (h : x.IsRounding q) : x.CorrectlyRounded q := by
  obtain ⟨s, num, den, hden, rfl, rfl⟩ := id h
  have hnonneg : (0 : ℚ) ≤ num / den / unitsPerOne := by positivity
  have hfinite : (round s num den : Binary f).isFinite = true ↔
      |sign s * ((num : ℚ) / den / unitsPerOne)| < f.limit := by
    rw [abs_sign_mul, abs_of_nonneg hnonneg, isFinite_round_iff, Format.nearest_lt_top_iff hden]
  have hsign : sign s * ((num : ℚ) / den / unitsPerOne) ≠ 0 →
      decide (sign s * ((num : ℚ) / den / unitsPerOne) < 0) = s := by
    intro hne
    exact decide_sign_mul_neg s (lt_of_le_of_ne hnonneg (right_ne_zero_of_mul hne).symm)
  refine ⟨fun hlt => h.isNearest (hfinite.mpr hlt), fun hge => ?_, fun hne => ?_⟩
  · have hne : sign s * ((num : ℚ) / den / unitsPerOne) ≠ 0 := by
      intro hzero
      rw [hzero, abs_zero] at hge
      exact absurd f.limit_pos (not_lt.mpr hge)
    rw [hsign hne]
    refine round_of_top_le (Nat.le_of_not_lt fun hlt => ?_)
    exact absurd (hfinite.mp ((isFinite_round_iff s).mpr hlt)) (not_lt.mpr hge)
  · rw [hsign hne, isNegative_round]

end Binary

/-! ## The operations of the channel format -/

namespace Color

variable {r : Range} {t : Format}

theorem channel_add (a b : Color r t) (i : Fin 3) :
    (a + b).channel i = (a.channel i).add (b.channel i) :=
  channel_zipDouble_of_narrow Binary.narrow_add a b i

theorem channel_sub (a b : Color r t) (i : Fin 3) :
    (a - b).channel i = (a.channel i).sub (b.channel i) :=
  channel_zipDouble_of_narrow Binary.narrow_sub a b i

theorem channel_mul (a b : Color r t) (i : Fin 3) :
    (a * b).channel i = (a.channel i).mul (b.channel i) :=
  channel_zipDouble_of_narrow Binary.narrow_mul a b i

theorem channel_div (a b : Color r t) (i : Fin 3) :
    (a / b).channel i = (a.channel i).div (b.channel i) :=
  channel_zipDouble_of_narrow Binary.narrow_div a b i

/-- Every channel of a sum, a difference, a product or a quotient is what the operation of the
channel format gives, whatever the channels are, and for finite channels it is the exact result,
correctly rounded. -/
theorem arithmetic_correctlyRounded (a b : Color r t) (i : Fin 3) :
    ((a + b).channel i = (a.channel i).add (b.channel i) ∧
      (a - b).channel i = (a.channel i).sub (b.channel i) ∧
      (a * b).channel i = (a.channel i).mul (b.channel i) ∧
      (a / b).channel i = (a.channel i).div (b.channel i)) ∧
    ((a.channel i).isFinite = true → (b.channel i).isFinite = true →
      ((a + b).channel i).CorrectlyRounded ((a.channel i).value + (b.channel i).value) ∧
      ((a - b).channel i).CorrectlyRounded ((a.channel i).value - (b.channel i).value) ∧
      ((a * b).channel i).CorrectlyRounded ((a.channel i).value * (b.channel i).value) ∧
      ((b.channel i).value ≠ 0 →
        ((a / b).channel i).CorrectlyRounded ((a.channel i).value / (b.channel i).value))) := by
  rw [channel_add, channel_sub, channel_mul, channel_div]
  refine ⟨⟨rfl, rfl, rfl, rfl⟩, fun ha hb => ⟨?_, ?_, ?_, fun h0 => ?_⟩⟩
  · exact (Binary.isRounding_add ha hb).correctlyRounded
  · exact (Binary.isRounding_sub ha hb).correctlyRounded
  · exact (Binary.isRounding_mul ha hb).correctlyRounded
  · exact (Binary.isRounding_div ha hb h0).correctlyRounded

/-- A third is no number of the single format, and the square of 2048 is past the greatest one of
the half format. -/
theorem arithmetic_correctlyRounded_edges :
    ((splat .one / splat (.ofNat 3) : Color .byte .single).channel 0).CorrectlyRounded (1 / 3) ∧
      (splat (.ofNat 2048) * splat (.ofNat 2048) : Color .byte .half).channel 0 =
        .infinity false := by
  constructor
  · have hthree : 3 ≤ 2 ^ Format.single.precision := by decide
    obtain ⟨-, hfinite⟩ := arithmetic_correctlyRounded
      (splat .one : Color .byte .single) (splat (.ofNat 3)) 0
    simp only [channel_splat, Binary.value_one, Binary.value_ofNat hthree] at hfinite
    obtain ⟨-, -, -, hdiv⟩ := hfinite Binary.isFinite_one (Binary.isFinite_ofNat hthree)
    exact_mod_cast hdiv (by norm_num)
  · have hfits : 2048 ≤ 2 ^ Format.half.precision := by decide
    obtain ⟨-, hfinite⟩ := arithmetic_correctlyRounded
      (splat (.ofNat 2048) : Color .byte .half) (splat (.ofNat 2048)) 0
    simp only [channel_splat, Binary.value_ofNat hfits] at hfinite
    obtain ⟨-, -, hmul, -⟩ :=
      hfinite (Binary.isFinite_ofNat hfits) (Binary.isFinite_ofNat hfits)
    have hlimit : Format.half.limit ≤ |((2048 : Nat) : ℚ) * (2048 : Nat)| :=
      le_trans (Format.limit_le .half) (by norm_num [Format.top, unitExponent])
    rw [hmul.overflow hlimit, decide_eq_false (by norm_num)]

end Color

end ColorAlgebra
