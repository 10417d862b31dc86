import ColorAlgebra.Scalar
import ColorAlgebra.Proofs.Binary.Monotone

/-!
# A point between two numbers

The difference of the numbers, the part of it and the sum are each rounded. The order of the
fractions is kept in all of these steps. That a point is not past the end is another matter: the
difference may be rounded up, and its part with it. A difference of few units is exact, and in a
greater one the errors are small fractions of it, so that a fraction some roundings away from one
makes up for them.
-/

namespace ColorAlgebra

/-- The value is finite and lies on the way from `x` to `z`, which leads down if `s` is set. -/
structure Binary.Between {f : Format} (s : Bool) (x y z : Binary f) : Prop where
  finite : y.isFinite = true
  low : sign s * x.value ≤ sign s * y.value
  high : sign s * y.value ≤ sign s * z.value

/-- A fraction of a way: a number from zero to one that is one, or away from it by more than a few
roundings. -/
structure Binary.IsFraction (t : Double) : Prop where
  finite : t.isFinite = true
  nonneg : 0 ≤ t.value
  apart : t = one ∨ t.value ≤ 1 - 6 / 2 ^ 53

namespace Scalar

open Binary

variable {a b t u : Double}

theorem lerp_one (a b : Double) : lerp a b one = b := by
  unfold lerp
  rw [if_pos ((equal_iff_value isFinite_one isFinite_one).mpr rfl)]

theorem lerp_of_not_equal_one (h : t.equal one = false) :
    lerp a b t = a.add ((b.sub a).mul t) := by
  unfold lerp
  rw [h]
  rfl

theorem not_equal_one (ht : t.isFinite = true) (h1 : t.value ≤ 1 - 6 / 2 ^ 53) :
    t.equal one = false := by
  rw [← Bool.not_eq_true, equal_iff_value ht isFinite_one, value_one]
  intro heq
  linarith

/-! ## Equal ends -/

theorem lerp_self (ha : a.isFinite = true) (hb : b.isFinite = true) (hab : a.value = b.value)
    (ht : t.isFinite = true) : (lerp a b t).isFinite = true ∧ (lerp a b t).value = b.value := by
  unfold lerp
  split
  · exact ⟨hb, rfl⟩
  · obtain ⟨hd, hdvalue⟩ := (isRounding_sub hb ha).exact (z := zero) rfl (by
      rw [value_zero, hab, sub_self])
    rw [hab, sub_self] at hdvalue
    obtain ⟨hp, hpvalue⟩ := (isRounding_mul hd ht).exact (z := zero) rfl (by
      rw [value_zero, hdvalue, zero_mul])
    rw [hdvalue, zero_mul] at hpvalue
    have hsum : b.value = a.value + ((b.sub a).mul t).value := by rw [hpvalue, add_zero, hab]
    rw [hsum]
    exact (isRounding_add ha hp).exact hb hsum

/-- Infinities have no difference, and the sum makes a NaN of that. -/
theorem lerp_infinity (s : Bool) (h : t.equal one = false) :
    lerp (infinity s) (infinity s) t = nan := by
  rw [lerp_of_not_equal_one h]
  cases s <;> rfl

/-! ## Differences -/

/-- A small whole number of units is a double. -/
theorem exists_value_eq {k : Int} (h : k.natAbs ≤ 2 ^ 53) :
    ∃ z : Double, z.isFinite = true ∧ z.value = k / unitsPerOne := by
  have hrepresentable : Format.double.Representable k.natAbs := by
    have hone := Format.representable_mul_two_pow (f := .double) (m := k.natAbs) (k := 0) h
      (Nat.zero_le _)
    rw [Nat.pow_zero, Nat.mul_one] at hone
    exact hone (Nat.lt_of_le_of_lt h (by decide +kernel))
  refine ⟨finite (decide (k < 0)) k.natAbs hrepresentable, rfl, ?_⟩
  show sign (decide (k < 0)) * ((k.natAbs : ℚ) / unitsPerOne) = k / unitsPerOne
  rw [← mul_div_assoc, sign_mul_natAbs]

/-- A difference is exact, or of many units. -/
theorem sub_exact_or_large (ha : a.isFinite = true) (hb : b.isFinite = true) :
    (b.sub a).value = b.value - a.value ∨ 2 ^ 53 / unitsPerOne ≤ |b.value - a.value| := by
  have hround := isRounding_sub hb ha
  obtain ⟨m, -, hm⟩ := exists_rank ha
  obtain ⟨n, -, hn⟩ := exists_rank hb
  have hdifference : b.value - a.value = (n - m : Int) / unitsPerOne := by
    rw [hm, hn, Int.cast_sub, sub_div]
  rcases Nat.lt_or_ge (2 ^ 53) (n - m).natAbs with hlarge | hsmall
  · refine .inr ?_
    rw [hdifference, abs_div, abs_of_pos Format.cast_unitsPerOne_pos,
      div_le_div_iff_of_pos_right Format.cast_unitsPerOne_pos, ← Int.cast_abs, ← Nat.cast_natAbs]
    exact_mod_cast Nat.le_of_lt hlarge
  · obtain ⟨z, hz, hvalue⟩ := exists_value_eq hsmall
    exact .inl (hround.exact hz (hvalue.trans hdifference.symm)).2

/-- The error in rounding, if some number is of many units. -/
theorem slack_le_of_large {q m : ℚ} (hm : 2 ^ 53 / unitsPerOne ≤ m) :
    Format.double.slack q ≤ |q| / 2 ^ 53 + m / 2 ^ 54 := by
  have hU := Format.cast_unitsPerOne_pos
  rw [div_le_iff₀ hU] at hm
  have hunit : (2 ^ Format.double.quantum : ℚ) / (2 * unitsPerOne) ≤ m / 2 ^ 54 := by
    rw [show Format.double.quantum = 0 from rfl, pow_zero,
      div_le_div_iff₀ (by positivity) (by positivity)]
    linarith
  exact add_le_add_right hunit _

/-- A part of the rounded difference is finite, and not greater than the exact difference. -/
theorem abs_part_le (ha : a.isFinite = true) (hb : b.isFinite = true)
    (hd : (b.sub a).isFinite = true) (ht : t.isFinite = true) (h0 : 0 ≤ t.value)
    (h1 : t.value ≤ 1 - 6 / 2 ^ 53) :
    ((b.sub a).mul t).isFinite = true ∧ |((b.sub a).mul t).value| ≤ |b.value - a.value| := by
  have hround := isRounding_mul hd ht
  have hproduct : |(b.sub a).value * t.value| = |(b.sub a).value| * t.value := by
    rw [abs_mul, abs_of_nonneg h0]
  have hpart : |(b.sub a).value| * t.value ≤ |(b.sub a).value| * (1 - 6 / 2 ^ 53) :=
    mul_le_mul_of_nonneg_left h1 (abs_nonneg _)
  have hless : |(b.sub a).value * t.value| ≤ |(b.sub a).value| := by
    have hnonneg := abs_nonneg (b.sub a).value
    rw [hproduct]
    linarith
  have hfinite := hround.isFinite hd hless
  refine ⟨hfinite, ?_⟩
  rcases sub_exact_or_large ha hb with hexact | hlarge
  · rw [← hexact]
    exact hround.abs_value_le (.self hd) hfinite hd hless
  · -- three errors, each a small fraction of the difference
    have hdifference := le_trans ((isRounding_sub hb ha).rounds.close hd) (slack_le_of_large hlarge)
    have hmultiple := le_trans (hround.rounds.close hfinite) (slack_le_of_large hlarge)
    have hd' := abs_sub_abs_le_abs_sub (b.sub a).value (b.value - a.value)
    have hp' := abs_sub_abs_le_abs_sub ((b.sub a).mul t).value ((b.sub a).value * t.value)
    rw [hproduct] at hmultiple hp'
    have hnonneg := abs_nonneg (b.value - a.value)
    linarith

/-! ## Points -/

section
variable {s : Bool} (ha : a.isFinite = true) (hb : b.isFinite = true)
  (hd : (b.sub a).isFinite = true) (hab : sign s * a.value ≤ sign s * b.value)
include ha hb hd hab

theorem sign_mul_sub_nonneg : 0 ≤ sign s * (b.sub a).value := by
  have hle := (isRounding_zero false).sign_mul_value_le s (isRounding_sub hb ha) rfl hd (by
    rw [mul_zero, mul_sub]
    linarith)
  rwa [value_signedZero, mul_zero] at hle

/-- Parts follow the order of the fractions. -/
theorem part_mono (ht : t.isFinite = true) (hu : u.isFinite = true) (h0 : 0 ≤ t.value)
    (htu : t.value ≤ u.value) (h1 : u.value ≤ 1 - 6 / 2 ^ 53) :
    sign s * ((b.sub a).mul t).value ≤ sign s * ((b.sub a).mul u).value := by
  refine (isRounding_mul hd ht).sign_mul_value_le s (isRounding_mul hd hu)
    (abs_part_le ha hb hd ht h0 (le_trans htu h1)).1
    (abs_part_le ha hb hd hu (le_trans h0 htu) h1).1 ?_
  rw [← mul_assoc, ← mul_assoc]
  exact mul_le_mul_of_nonneg_left htu (sign_mul_sub_nonneg ha hb hd hab)

/-- The part leads toward the other number, and not past it. -/
theorem sign_mul_part_mem (ht : t.isFinite = true) (h0 : 0 ≤ t.value)
    (h1 : t.value ≤ 1 - 6 / 2 ^ 53) :
    0 ≤ sign s * ((b.sub a).mul t).value ∧
      sign s * ((b.sub a).mul t).value ≤ sign s * (b.value - a.value) := by
  obtain ⟨hfinite, hsize⟩ := abs_part_le ha hb hd ht h0 h1
  have hlow := (isRounding_zero false).sign_mul_value_le s (isRounding_mul hd ht) rfl hfinite (by
    rw [mul_zero, ← mul_assoc]
    exact mul_nonneg (sign_mul_sub_nonneg ha hb hd hab) h0)
  rw [value_signedZero, mul_zero] at hlow
  have hhigh : 0 ≤ sign s * (b.value - a.value) := by
    rw [mul_sub]
    linarith
  rw [← abs_sign_mul s, ← abs_sign_mul s (b.value - a.value), abs_of_nonneg hlow,
    abs_of_nonneg hhigh] at hsize
  exact ⟨hlow, hsize⟩

/-- The sum of a number and the part is rounded to a point between the numbers. -/
theorem between_add (ht : t.isFinite = true) (h0 : 0 ≤ t.value) (h1 : t.value ≤ 1 - 6 / 2 ^ 53) :
    Between s a (a.add ((b.sub a).mul t)) b := by
  have hround := isRounding_add ha (abs_part_le ha hb hd ht h0 h1).1
  obtain ⟨hlow, hhigh⟩ := sign_mul_part_mem ha hb hd hab ht h0 h1
  have hlow : sign s * a.value ≤ sign s * (a.value + ((b.sub a).mul t).value) := by
    rw [mul_add]
    linarith
  have hhigh : sign s * (a.value + ((b.sub a).mul t).value) ≤ sign s * b.value := by
    rw [mul_sub] at hhigh
    rw [mul_add]
    linarith
  have hfinite := hround.isFinite_of_sign_between s ha hb hlow hhigh
  exact ⟨hfinite, (IsRounding.self ha).sign_mul_value_le s hround ha hfinite hlow,
    hround.sign_mul_value_le s (.self hb) hfinite hb hhigh⟩

/-- A point is finite and lies between the numbers. -/
theorem between_lerp (ht : t.IsFraction) : Between s a (lerp a b t) b := by
  rcases ht.apart with hone | h1
  · rw [hone, lerp_one]
    exact ⟨hb, hab, le_rfl⟩
  · rw [lerp_of_not_equal_one (not_equal_one ht.finite h1)]
    exact between_add ha hb hd hab ht.finite ht.nonneg h1

/-- Points follow the order of their fractions. -/
theorem lerp_mono (ht : t.IsFraction) (hu : u.IsFraction) (htu : t.value ≤ u.value) :
    sign s * (lerp a b t).value ≤ sign s * (lerp a b u).value := by
  have htb := between_lerp ha hb hd hab ht
  have hub := between_lerp ha hb hd hab hu
  rcases hu.apart with hone | hu1
  · rw [hone, lerp_one]
    exact htb.high
  · have ht1 := le_trans htu hu1
    have htone := lerp_of_not_equal_one (a := a) (b := b) (not_equal_one ht.finite ht1)
    have huone := lerp_of_not_equal_one (a := a) (b := b) (not_equal_one hu.finite hu1)
    have hparts := part_mono ha hb hd hab ht.finite hu.finite ht.nonneg htu hu1
    rw [htone] at htb ⊢
    rw [huone] at hub ⊢
    refine (isRounding_add ha (abs_part_le ha hb hd ht.finite ht.nonneg ht1).1).sign_mul_value_le s
      (isRounding_add ha (abs_part_le ha hb hd hu.finite hu.nonneg hu1).1) htb.finite hub.finite ?_
    rw [mul_add, mul_add]
    linarith

end

end Scalar

end ColorAlgebra
