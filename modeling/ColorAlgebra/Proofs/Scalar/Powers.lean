import ColorAlgebra.Scalar
import ColorAlgebra.Proofs.Binary.Monotone

/-!
# Multiplying out a power

A rounding adds no more to a number than a small part of it. A power that is multiplied out is
rounded fewer times than twice its exponent, and what all of these add is still a small part:
no power of ten that a double can hold overflows on the way.
-/

namespace ColorAlgebra.Scalar

open Binary

/-- A double that is not less than one. -/
structure AtLeastOne (x : Double) : Prop where
  finite : x.isFinite = true
  one_le : 1 ≤ x.value

theorem AtLeastOne.nonneg {x : Double} (hx : AtLeastOne x) : 0 ≤ x.value :=
  le_trans zero_le_one hx.one_le

/-- No rounding of a number that is at least one multiplies it by more. -/
def growth : ℚ := 1 + 1 / 2 ^ 52

theorem one_le_growth : 1 ≤ growth := by norm_num [growth]

/-- What a double stands for in a bound on a product: its value, with room for two roundings. -/
def factor (b : Double) : ℚ := b.value * growth ^ 2

section
variable {r b limit : Double} {exponent : Nat}

/-- A double that is rounded once has room for a rounding. -/
theorem AtLeastOne.le_factor (hb : AtLeastOne b) : b.value * growth ≤ factor b :=
  mul_le_mul_of_nonneg_left (le_self_pow₀ one_le_growth two_ne_zero) hb.nonneg

theorem AtLeastOne.value_le_factor (hb : AtLeastOne b) : b.value ≤ factor b :=
  le_trans (le_mul_of_one_le_right hb.nonneg one_le_growth) hb.le_factor

theorem AtLeastOne.one_le_factor (hb : AtLeastOne b) : 1 ≤ factor b :=
  le_trans hb.one_le hb.value_le_factor

theorem AtLeastOne.factor_nonneg (hb : AtLeastOne b) : 0 ≤ factor b :=
  le_trans zero_le_one hb.one_le_factor

section
variable (hlimit : limit.isFinite = true)
include hlimit

/-- One product that stays within the limit. -/
theorem AtLeastOne.mul (hr : AtLeastOne r) (hb : AtLeastOne b)
    (hfits : r.value * b.value ≤ limit.value) :
    AtLeastOne (r.mul b) ∧ (r.mul b).value ≤ r.value * b.value * growth := by
  have hround := isRounding_mul hr.finite hb.finite
  have hone : 1 ≤ r.value * b.value := one_le_mul_of_one_le_of_one_le hr.one_le hb.one_le
  have hfinite : (r.mul b).isFinite = true :=
    hround.isFinite_of_between isFinite_one hlimit (by rwa [value_one]) hfits
  have hlow := (IsRounding.self isFinite_one).value_le hround isFinite_one hfinite
    (by rwa [value_one])
  rw [value_one] at hlow
  have hslack := Format.slack_le_double (abs_of_nonneg (le_trans zero_le_one hone)).le
  have hhigh := (abs_le.mp (le_trans (hround.rounds.close hfinite) hslack)).2
  refine ⟨⟨hfinite, hlow⟩, ?_⟩
  unfold growth
  linarith

/-- A square has room for two roundings itself. -/
theorem AtLeastOne.square (hb : AtLeastOne b) (hfits : factor b ^ 2 ≤ limit.value) :
    AtLeastOne (b.mul b) ∧ factor (b.mul b) ≤ factor b ^ 2 := by
  have hbound : b.value * b.value ≤ factor b ^ 2 := by
    rw [← pow_two]
    exact pow_le_pow_left₀ hb.nonneg hb.value_le_factor 2
  obtain ⟨hsquare, hle⟩ := hb.mul hlimit hb (le_trans hbound hfits)
  refine ⟨hsquare, ?_⟩
  have hgrowth : (0 : ℚ) ≤ growth := le_trans zero_le_one one_le_growth
  calc factor (b.mul b) ≤ b.value * b.value * growth * growth ^ 2 :=
        mul_le_mul_of_nonneg_right hle (pow_nonneg hgrowth 2)
    _ = b.value * growth * factor b := by unfold factor; ring
    _ ≤ factor b * factor b := mul_le_mul_of_nonneg_right hb.le_factor hb.factor_nonneg
    _ = factor b ^ 2 := (pow_two _).symm

/-- What one bit of the exponent multiplies in. -/
theorem atLeastOne_timesBit (hr : AtLeastOne r) (hb : AtLeastOne b)
    (hfits : r.value * factor b ^ exponent ≤ limit.value) :
    AtLeastOne (timesBit r b exponent) ∧
      (timesBit r b exponent).value ≤ r.value * factor b ^ (exponent % 2) := by
  unfold timesBit
  split
  · next hbit =>
    have hfactor : b.value ≤ factor b ^ exponent :=
      le_trans hb.value_le_factor (le_self_pow₀ hb.one_le_factor (by omega))
    obtain ⟨hproduct, hle⟩ := hr.mul hlimit hb
      (le_trans (mul_le_mul_of_nonneg_left hfactor hr.nonneg) hfits)
    rw [hbit, pow_one]
    refine ⟨hproduct, le_trans hle ?_⟩
    rw [mul_assoc]
    exact mul_le_mul_of_nonneg_left hb.le_factor hr.nonneg
  · next hbit =>
    rw [show exponent % 2 = 0 by omega, pow_zero]
    exact ⟨hr, by simp⟩

/-- From each bit of the exponent to the next, the bound on the whole product is kept. -/
theorem atLeastOne_timesPower (hr : AtLeastOne r) (hb : AtLeastOne b)
    (hfits : r.value * factor b ^ exponent ≤ limit.value) :
    AtLeastOne (timesPower r b exponent) := by
  fun_induction timesPower r b exponent with
  | case1 r b exponent hlast => exact (atLeastOne_timesBit hlimit hr hb hfits).1
  | case2 r b exponent hmore ih =>
    obtain ⟨hproduct, hle⟩ := atLeastOne_timesBit hlimit hr hb hfits
    have hpow : factor b ^ 2 ≤ r.value * factor b ^ exponent :=
      le_trans (pow_le_pow_right₀ hb.one_le_factor (by omega))
        (le_mul_of_one_le_left (pow_nonneg hb.factor_nonneg exponent) hr.one_le)
    obtain ⟨hsquare, hsquareLe⟩ := hb.square hlimit (le_trans hpow hfits)
    refine ih hproduct hsquare (le_trans ?_ hfits)
    calc (timesBit r b exponent).value * factor (b.mul b) ^ (exponent / 2)
        ≤ r.value * factor b ^ (exponent % 2) * (factor b ^ 2) ^ (exponent / 2) :=
          mul_le_mul hle (pow_le_pow_left₀ hsquare.factor_nonneg hsquareLe _)
            (pow_nonneg hsquare.factor_nonneg _)
            (mul_nonneg hr.nonneg (pow_nonneg hb.factor_nonneg _))
      _ = r.value * factor b ^ exponent := by
          rw [← pow_mul, mul_assoc, ← pow_add, Nat.mod_add_div]

end

end

/-! ## Powers of ten -/

/-- Even with room for two roundings in each factor, ten to the power of 308 is less than some
doubles. -/
theorem exists_limit : ∃ n : Nat, Format.double.Representable (n * unitsPerOne) ∧
    ((10 : ℚ) * growth ^ 2) ^ 308 ≤ n := by
  refine ⟨3 * 2 ^ 1022, by decide +kernel, ?_⟩
  have hunits : (10 * (2 ^ 52 + 1) ^ 2) ^ 308 ≤ 3 * 2 ^ 1022 * (2 ^ 104) ^ 308 := by decide +kernel
  have hgrowth : (10 : ℚ) * growth ^ 2 = (10 * (2 ^ 52 + 1) ^ 2 : Nat) / (2 ^ 104 : Nat) := by
    norm_num [growth]
  rw [hgrowth, div_pow, div_le_iff₀ (by positivity)]
  exact_mod_cast hunits

/-- No power of ten up to the greatest that a double can hold overflows on the way. -/
theorem atLeastOne_powerOfTen {exponent : Int} (h : exponent ≤ 308) :
    AtLeastOne (powerOfTen exponent) := by
  obtain ⟨n, hn, hlimit⟩ := exists_limit
  have hten : (ofNat 10 : Double).value = 10 := value_ofNat (by decide)
  have hb : AtLeastOne (ofNat 10 : Double) := ⟨isFinite_ofNat (by decide), by rw [hten]; norm_num⟩
  have hfactor : factor (ofNat 10 : Double) = 10 * growth ^ 2 := by rw [factor, hten]
  have hpow : factor (ofNat 10 : Double) ^ exponent.toNat ≤ n :=
    calc factor (ofNat 10 : Double) ^ exponent.toNat
        ≤ factor (ofNat 10 : Double) ^ 308 := pow_le_pow_right₀ hb.one_le_factor (by omega)
      _ ≤ n := (congrArg (· ^ 308) hfactor).trans_le hlimit
  have hone : (one : Double).value * factor (ofNat 10 : Double) ^ exponent.toNat ≤ n := by
    rwa [value_one, one_mul]
  have hvalue := value_units hn
  rw [← hvalue] at hone
  exact atLeastOne_timesPower rfl ⟨isFinite_one, value_one.ge⟩ hb hone

end ColorAlgebra.Scalar
