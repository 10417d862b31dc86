import ColorAlgebra.Proofs.Binary.Overflow
import ColorAlgebra.Proofs.Comparing.PartialOrder

/-!
# The order of rounded numbers

Rounding follows the order of numbers of either sign and leaves the numbers of the format where
they are. What lies between two finite values is therefore rounded to a finite value between
them, and a magnitude that is not past a finite one does not overflow.
-/

namespace ColorAlgebra.Binary

variable {f : Format} {x y z : Binary f} {p q : ℚ}

theorem sign_not (s : Bool) : sign (!s) = -sign s := by
  cases s <;> simp [sign]

theorem abs_sign_mul_sub (s : Bool) (a b : ℚ) : |sign s * a - sign s * b| = |a - b| := by
  rw [← mul_sub, abs_sign_mul]

theorem abs_value_finite (s : Bool) {n : Nat} (hn : f.Representable n) :
    |(finite s n hn : Binary f).value| = n / unitsPerOne := by
  have hnonneg : (0 : ℚ) ≤ n / unitsPerOne := by positivity
  show |sign s * (n / unitsPerOne : ℚ)| = _
  rw [abs_sign_mul, abs_of_nonneg hnonneg]

namespace IsRounding

/-! ## Order -/

/-- A finite value is its own rounding. -/
theorem self (hx : x.isFinite = true) : x.IsRounding x.value := by
  have hround := @isRounding_convert f f x hx
  rwa [convert_self] at hround

theorem neg (h : x.IsRounding q) : x.neg.IsRounding (-q) := by
  obtain ⟨s, num, den, hden, rfl, rfl⟩ := h
  exact ⟨!s, num, den, hden, by rw [sign_not, neg_mul], neg_round s num den⟩

/-- The magnitude of a rounded number is the nearest count of units. -/
theorem exists_nearest (h : x.IsRounding q) (hx : x.isFinite = true) :
    ∃ num den : Nat, 0 < den ∧ |q| = num / den / unitsPerOne ∧
      |x.value| = f.nearest num den / unitsPerOne := by
  obtain ⟨s, num, den, hden, rfl, rfl⟩ := h
  have hexact : (0 : ℚ) ≤ num / den / unitsPerOne := by positivity
  have hnearest : (0 : ℚ) ≤ f.nearest num den / unitsPerOne := by positivity
  refine ⟨num, den, hden, ?_, ?_⟩
  · rw [abs_sign_mul, abs_of_nonneg hexact]
  · rw [value_round hx, abs_sign_mul, abs_of_nonneg hnearest]

theorem abs_value_le (hx : x.IsRounding p) (hy : y.IsRounding q) (hfx : x.isFinite = true)
    (hfy : y.isFinite = true) (h : |p| ≤ |q|) : |x.value| ≤ |y.value| := by
  obtain ⟨num, den, hden, hp, hxv⟩ := hx.exists_nearest hfx
  obtain ⟨num', den', hden', hq, hyv⟩ := hy.exists_nearest hfy
  have hU := Format.cast_unitsPerOne_pos
  rw [hp, hq, div_le_div_iff_of_pos_right hU] at h
  rw [hxv, hyv, div_le_div_iff_of_pos_right hU]
  exact_mod_cast Format.nearest_mono hden hden' h

theorem value_nonneg (h : x.IsRounding q) (hx : x.isFinite = true) (hq : 0 ≤ q) :
    0 ≤ x.value := by
  obtain ⟨s, num, den, hden, rfl, rfl⟩ := id h
  have hnearest : (0 : ℚ) ≤ f.nearest num den / unitsPerOne := by positivity
  cases s with
  | false =>
    rw [value_round hx]
    exact mul_nonneg zero_le_one hnearest
  | true =>
    -- only zero has a sign that is not its own
    have hexact : (0 : ℚ) ≤ num / den / unitsPerOne := by positivity
    have hzero : sign true * ((num : ℚ) / den / unitsPerOne) = 0 :=
      le_antisymm ((sign_true_mul _).trans_le (neg_nonpos.mpr hexact)) hq
    have hle := h.abs_value_le (isRounding_zero false) hx rfl (le_of_eq (by rw [hzero]))
    rw [value_signedZero, abs_zero] at hle
    exact le_of_eq (abs_nonpos_iff.mp hle).symm

/-- Rounding follows the order of numbers. -/
theorem value_le (hx : x.IsRounding p) (hy : y.IsRounding q) (hfx : x.isFinite = true)
    (hfy : y.isFinite = true) (h : p ≤ q) : x.value ≤ y.value := by
  have hneg := fun h0 => hx.neg.value_nonneg ((isFinite_neg x).trans hfx) h0
  have hneg' := fun h0 => hy.neg.value_nonneg ((isFinite_neg y).trans hfy) h0
  rw [value_neg, neg_nonneg, neg_nonneg] at hneg hneg'
  rcases le_total 0 p with hp | hp
  · have hq := le_trans hp h
    have habs := hx.abs_value_le hy hfx hfy (by rwa [abs_of_nonneg hp, abs_of_nonneg hq])
    rwa [abs_of_nonneg (hx.value_nonneg hfx hp), abs_of_nonneg (hy.value_nonneg hfy hq)] at habs
  · rcases le_total 0 q with hq | hq
    · exact le_trans (hneg hp) (hy.value_nonneg hfy hq)
    · have habs := hy.abs_value_le hx hfy hfx (by
        rw [abs_of_nonpos hp, abs_of_nonpos hq]
        exact neg_le_neg h)
      rw [abs_of_nonpos (hneg hp), abs_of_nonpos (hneg' hq)] at habs
      exact neg_le_neg_iff.mp habs

/-- On the way down as well as on the way up. -/
theorem sign_mul_value_le (s : Bool) (hx : x.IsRounding p) (hy : y.IsRounding q)
    (hfx : x.isFinite = true) (hfy : y.isFinite = true) (h : sign s * p ≤ sign s * q) :
    sign s * x.value ≤ sign s * y.value := by
  cases s with
  | false =>
    rw [sign_false_mul, sign_false_mul] at h ⊢
    exact hx.value_le hy hfx hfy h
  | true =>
    rw [sign_true_mul, sign_true_mul, neg_le_neg_iff] at h ⊢
    exact hy.value_le hx hfy hfx h

/-! ## Overflow -/

/-- A magnitude that is not past a finite one does not overflow. -/
theorem isFinite (h : x.IsRounding q) (hz : z.isFinite = true) (hle : |q| ≤ |z.value|) :
    x.isFinite = true := by
  obtain ⟨s, num, den, hden, rfl, rfl⟩ := h
  obtain ⟨t, n, hn, rfl⟩ := exists_finite hz
  have hexact : (0 : ℚ) ≤ num / den / unitsPerOne := by positivity
  rw [abs_sign_mul, abs_of_nonneg hexact, abs_value_finite,
    div_le_div_iff_of_pos_right Format.cast_unitsPerOne_pos] at hle
  rw [isFinite_round_iff]
  exact Nat.lt_of_le_of_lt (Format.nearest_le hden hn.onGrid hle) hn.1

/-- Neither does a number between two finite values. -/
theorem isFinite_of_between (h : x.IsRounding q) {u : Binary f} (hz : z.isFinite = true)
    (hu : u.isFinite = true) (hlow : z.value ≤ q) (hhigh : q ≤ u.value) : x.isFinite = true := by
  rcases le_total 0 q with hq | hq
  · refine h.isFinite hu ?_
    rw [abs_of_nonneg hq]
    exact le_trans hhigh (le_abs_self _)
  · refine h.isFinite hz ?_
    rw [abs_of_nonpos hq]
    exact le_trans (neg_le_neg hlow) (neg_le_abs _)

/-- On the way down as well. -/
theorem isFinite_of_sign_between (s : Bool) (h : x.IsRounding q) {u : Binary f}
    (hz : z.isFinite = true) (hu : u.isFinite = true) (hlow : sign s * z.value ≤ sign s * q)
    (hhigh : sign s * q ≤ sign s * u.value) : x.isFinite = true := by
  cases s with
  | false =>
    rw [sign_false_mul, sign_false_mul] at hlow hhigh
    exact h.isFinite_of_between hz hu hlow hhigh
  | true =>
    rw [sign_true_mul, sign_true_mul, neg_le_neg_iff] at hlow hhigh
    exact h.isFinite_of_between hu hz hhigh hlow

/-- A number of the format is exact. -/
theorem exact (h : x.IsRounding q) (hz : z.isFinite = true) (hq : z.value = q) :
    x.isFinite = true ∧ x.value = q := by
  subst hq
  have hx := h.isFinite hz le_rfl
  exact ⟨hx, le_antisymm (h.value_le (self hz) hx hz le_rfl) ((self hz).value_le h hz hx le_rfl)⟩

/-- What is not less than the least double is not rounded to zero. -/
theorem value_pos {x : Double} (h : x.IsRounding q) (hx : x.isFinite = true)
    (hq : (1 / unitsPerOne : ℚ) ≤ q) : 0 < x.value := by
  have hunit : Format.double.Representable 1 := by decide +kernel
  have hleast : (finite false 1 hunit : Double).value = 1 / unitsPerOne := by
    show (1 : ℚ) * ((1 : Nat) / unitsPerOne) = _
    rw [one_mul, Nat.cast_one]
  have hpos : (0 : ℚ) < 1 / unitsPerOne := one_div_pos.mpr Format.cast_unitsPerOne_pos
  rw [← hleast] at hq hpos
  exact lt_of_lt_of_le hpos ((self rfl).value_le h rfl hx hq)

end IsRounding

/-! ## The nearest value -/

/-- The significand of a finite value. -/
def significand : Binary f → Nat
  | finite _ units _ => f.significand units
  | _ => 0

/-- No finite value of the format is nearer to `q` than `x`, and if another number is as near,
then `x` is the one with the even significand. -/
structure IsNearest (x : Binary f) (q : ℚ) : Prop where
  finite : x.isFinite = true
  least : ∀ y : Binary f, y.isFinite = true → |x.value - q| ≤ |y.value - q|
  even : ∀ y : Binary f, y.isFinite = true → y.value ≠ x.value →
    |x.value - q| = |y.value - q| → x.significand % 2 = 0

/-- The distance of two numbers is at least that of their magnitudes. -/
theorem abs_sub_le_sign (s t : Bool) {a b : ℚ} (ha : 0 ≤ a) (hb : 0 ≤ b) :
    |a - b| ≤ |sign s * a - sign t * b| := by
  have h := abs_abs_sub_abs_le_abs_sub (sign s * a) (sign t * b)
  rwa [abs_sign_mul, abs_sign_mul, abs_of_nonneg ha, abs_of_nonneg hb] at h

/-- The distance of numbers on unlike sides of zero. -/
theorem abs_sub_of_sign_ne {s t : Bool} (hst : s ≠ t) {a b : ℚ} (ha : 0 ≤ a) (hb : 0 ≤ b) :
    |sign s * a - sign t * b| = a + b := by
  have hside : sign s * a - sign t * b = sign s * (a + b) := by
    cases s <;> cases t <;> simp [sign] at hst ⊢
    ring
  rw [hside, abs_sign_mul, abs_of_nonneg (add_nonneg ha hb)]

theorem abs_units_sub (s t : Bool) (a b : ℚ) :
    |sign s * (a / unitsPerOne) - sign t * (b / unitsPerOne)| =
      |sign s * a - sign t * b| / unitsPerOne := by
  rw [← mul_div_assoc, ← mul_div_assoc, ← sub_div, abs_div,
    abs_of_pos Format.cast_unitsPerOne_pos]

/-- A finite value that a number is rounded to is nearest to it. -/
theorem IsRounding.isNearest (h : x.IsRounding q) (hx : x.isFinite = true) : x.IsNearest q := by
  obtain ⟨s, num, den, hden, rfl, rfl⟩ := h
  have hU := Format.cast_unitsPerOne_pos
  have hn := Format.representable_nearest ((isFinite_round_iff s).mp hx)
  rw [round_of_nearest hn rfl]
  have hnear : f.IsNearest (num / den) (f.nearest num den) := Format.isNearest_nearest hden
  have hexact : (0 : ℚ) ≤ num / den := by positivity
  generalize f.nearest num den = n at hnear hn
  generalize (num / den : ℚ) = a at hnear hexact
  have hself : |sign s * (n : ℚ) - sign s * a| = |a - n| := by
    rw [abs_sign_mul_sub, abs_sub_comm]
  refine ⟨rfl, fun y hy => ?_, fun y hy hne htie => ?_⟩
  · obtain ⟨t, m, hm, rfl⟩ := exists_finite hy
    have hapart := abs_sub_le_sign t s (Nat.cast_nonneg m) hexact
    have hleast := hnear.least m hm.onGrid
    rw [abs_sub_comm a m] at hleast
    show |sign s * (n / unitsPerOne : ℚ) - _| ≤ |sign t * (m / unitsPerOne : ℚ) - _|
    rw [abs_units_sub, abs_units_sub, hself, div_le_div_iff_of_pos_right hU]
    exact le_trans hleast hapart
  · obtain ⟨t, m, hm, rfl⟩ := exists_finite hy
    have htie : |sign s * (n / unitsPerOne : ℚ) - sign s * (a / unitsPerOne)| =
        |sign t * (m / unitsPerOne : ℚ) - sign s * (a / unitsPerOne)| := htie
    rw [abs_units_sub, abs_units_sub, hself, div_left_inj' (ne_of_gt hU)] at htie
    have hapart := abs_sub_le_sign t s (Nat.cast_nonneg m) hexact
    have hleast := hnear.least m hm.onGrid
    by_cases hmn : m = n
    · -- the two are opposite numbers, equally near to a number that is not zero only as zeros
      subst hmn
      have hst : t ≠ s := by
        rintro rfl
        exact hne rfl
      rw [abs_sub_of_sign_ne hst (Nat.cast_nonneg m) hexact] at htie
      have hm0 := hnear.eq_zero_of_opposite hexact htie
      refine absurd ?_ hne
      show sign t * (m / unitsPerOne : ℚ) = sign s * (m / unitsPerOne : ℚ)
      rw [hm0, zero_div, mul_zero, mul_zero]
    · refine hnear.even m hm.onGrid hmn (le_antisymm hleast ?_)
      rw [abs_sub_comm a m, htie]
      exact hapart

end ColorAlgebra.Binary
