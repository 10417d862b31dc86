import ColorAlgebra.Spread
import ColorAlgebra.Proofs.Binary.Monotone

/-!
# Where the points of a spread lie

The fraction of a point is the quotient of two counts. Both counts and the quotient are rounded,
and rounding keeps their order: the fractions are numbers between zero and one, and follow each
other. Where the counts are exact, the fractions before the last stay away from one by more than
a few roundings.
-/

namespace ColorAlgebra.Spread

open Binary

variable {count j k : Nat}

/-! ## Counts -/

theorem wordSize_le_unitsPerOne : wordSize ≤ unitsPerOne := by
  unfold unitsPerOne
  decide +kernel

/-- The number of words is exact. -/
theorem ofNat_wordSize :
    (ofNat wordSize : Double).isFinite = true ∧ (ofNat wordSize : Double).value = wordSize := by
  have hunits : Format.double.Representable (wordSize * unitsPerOne) := by decide +kernel
  exact (isRounding_ofNat wordSize).exact (z := finite false _ hunits) rfl (value_units hunits)

/-- A count of points does not overflow. -/
theorem isFinite_ofNat_of_lt {n : Nat} (h : n < wordSize) : (ofNat n : Double).isFinite = true := by
  obtain ⟨hfinite, hvalue⟩ := ofNat_wordSize
  refine (isRounding_ofNat n).isFinite hfinite ?_
  rw [hvalue, abs_of_nonneg (Nat.cast_nonneg n), abs_of_nonneg (Nat.cast_nonneg wordSize)]
  exact Nat.cast_le.mpr (Nat.le_of_lt h)

theorem value_ofNat_le {n : Nat} (h : n < wordSize) : (ofNat n : Double).value ≤ wordSize := by
  obtain ⟨hfinite, hvalue⟩ := ofNat_wordSize
  rw [← hvalue]
  exact (isRounding_ofNat n).value_le (isRounding_ofNat wordSize) (isFinite_ofNat_of_lt h) hfinite
    (Nat.cast_le.mpr (Nat.le_of_lt h))

theorem value_ofNat_mono (hjk : j ≤ k) (hk : k < wordSize) :
    (ofNat j : Double).value ≤ (ofNat k : Double).value :=
  (isRounding_ofNat j).value_le (isRounding_ofNat k) (isFinite_ofNat_of_lt (by omega))
    (isFinite_ofNat_of_lt hk) (by exact_mod_cast hjk)

theorem one_le_value_ofNat (h0 : 0 < count) (hcount : count < wordSize) :
    1 ≤ (ofNat count : Double).value := by
  have hone := value_ofNat_mono h0 hcount
  rwa [show (ofNat 1 : Double).value = 1 from value_one] at hone

theorem value_ofNat_nonneg (hk : k < wordSize) : 0 ≤ (ofNat k : Double).value :=
  (isRounding_ofNat k).value_nonneg (isFinite_ofNat_of_lt hk) (Nat.cast_nonneg k)

/-! ## Fractions -/

theorem isRounding_quotient (h0 : 0 < count) (hcount : count < wordSize) (hk : k < wordSize) :
    ((ofNat k : Double).div (ofNat count)).IsRounding
      ((ofNat k : Double).value / (ofNat count : Double).value) := by
  have hone := one_le_value_ofNat h0 hcount
  exact isRounding_div (isFinite_ofNat_of_lt hk) (isFinite_ofNat_of_lt hcount) (by linarith)

/-- A fraction is a number between zero and one. -/
theorem fraction_mem (h0 : 0 < count) (hcount : count < wordSize) (hk : k ≤ count) :
    (fraction count k).isFinite = true ∧ 0 ≤ (fraction count k).value ∧
      (fraction count k).value ≤ 1 := by
  unfold fraction
  split
  · rw [value_one]
    exact ⟨isFinite_one, zero_le_one, le_rfl⟩
  · have hlt := Nat.lt_of_le_of_lt hk hcount
    have hround := isRounding_quotient h0 hcount hlt
    have hpos := one_le_value_ofNat h0 hcount
    have hlow : 0 ≤ (ofNat k : Double).value / (ofNat count : Double).value :=
      div_nonneg (value_ofNat_nonneg hlt) (by linarith)
    have hhigh : (ofNat k : Double).value / (ofNat count : Double).value ≤
        (one : Double).value := by
      rw [value_one, div_le_one (by linarith)]
      exact value_ofNat_mono hk hcount
    have hfinite := hround.isFinite_of_between (z := zero) rfl isFinite_one
      (value_zero.trans_le hlow) hhigh
    have hupper := hround.value_le (.self isFinite_one) hfinite isFinite_one hhigh
    rw [value_one] at hupper
    exact ⟨hfinite, hround.value_nonneg hfinite hlow, hupper⟩

theorem fraction_of_lt (h : k < count) :
    fraction count k = (ofNat k : Double).div (ofNat count) := if_neg (Nat.ne_of_lt h)

/-- The fractions follow each other, however the counts are rounded. -/
theorem fraction_mono (h0 : 0 < count) (hcount : count < wordSize) (hjk : j ≤ k) (hk : k ≤ count) :
    (fraction count j).value ≤ (fraction count k).value := by
  obtain ⟨hj, -, hupper⟩ := fraction_mem h0 hcount (le_trans hjk hk)
  rcases Nat.eq_or_lt_of_le hk with hlast | hlt
  · have hone : fraction count k = one := if_pos hlast
    rw [hone, value_one]
    exact hupper
  · obtain ⟨hk', -, -⟩ := fraction_mem h0 hcount hk
    have hpos := one_le_value_ofNat h0 hcount
    have hword := Nat.lt_trans hlt hcount
    have hquotients : (ofNat j : Double).value / (ofNat count : Double).value ≤
        (ofNat k : Double).value / (ofNat count : Double).value :=
      div_le_div_of_nonneg_right (value_ofNat_mono hjk hword) (by linarith)
    rw [fraction_of_lt (Nat.lt_of_le_of_lt hjk hlt)] at hj ⊢
    rw [fraction_of_lt hlt] at hk' ⊢
    exact (isRounding_quotient h0 hcount (Nat.lt_of_le_of_lt hjk hword)).value_le
      (isRounding_quotient h0 hcount hword) hj hk' hquotients

/-- No fraction is rounded to zero. -/
theorem fraction_pos (h0 : 0 < k) (hk : k ≤ count) (hcount : count < wordSize) :
    0 < (fraction count k).value := by
  rcases Nat.eq_or_lt_of_le hk with hlast | hlt
  · have hone : fraction count k = one := if_pos hlast
    rw [hone, value_one]
    exact one_pos
  · obtain ⟨hfinite, -, -⟩ := fraction_mem (Nat.lt_of_lt_of_le h0 hk) hcount hk
    have hword := Nat.lt_trans hlt hcount
    have hone := one_le_value_ofNat h0 hword
    have hpos := one_le_value_ofNat (Nat.lt_of_lt_of_le h0 hk) hcount
    have hunits : (wordSize : ℚ) ≤ unitsPerOne := by exact_mod_cast wordSize_le_unitsPerOne
    have hleast : (1 / unitsPerOne : ℚ) ≤ (ofNat k : Double).value / (ofNat count : Double).value :=
      div_le_div₀ (by linarith) hone (by linarith) (le_trans (value_ofNat_le hcount) hunits)
    rw [fraction_of_lt hlt] at hfinite ⊢
    exact (isRounding_quotient (Nat.lt_of_lt_of_le h0 hk) hcount hword).value_pos hfinite hleast

/-- Of two points or more the first is not the last, however the counts are rounded. -/
theorem fraction_first_not_equal_one (h : 1 < count) (hcount : count < wordSize) :
    (fraction count 1).equal one = false := by
  obtain ⟨hfinite, -, -⟩ := fraction_mem (k := 1) (by omega) hcount (by omega)
  rw [← Bool.not_eq_true, equal_iff_value hfinite isFinite_one, value_one]
  have htwo : 2 ≤ (ofNat count : Double).value := by
    have hmono := value_ofNat_mono h hcount
    rwa [show (1 : Nat).succ = 2 from rfl, value_ofNat (by decide)] at hmono
  have hhalf : |(ofNat 1 : Double).value / (ofNat count : Double).value| ≤ 1 / 2 := by
    rw [show (ofNat 1 : Double).value = 1 from value_one, abs_of_nonneg (by positivity)]
    exact one_div_le_one_div_of_le (by norm_num) htwo
  unfold fraction at hfinite ⊢
  rw [if_neg (Nat.ne_of_lt h)] at hfinite ⊢
  have hround := isRounding_quotient (k := 1) (by omega) hcount (by decide)
  have herror := le_trans (hround.rounds.close hfinite) (Format.slack_le_double hhalf)
  have hupper := (abs_le.mp herror).2
  have hquotient := (abs_le.mp hhalf).2
  intro heq
  linarith

/-- The quotient of exact counts is rounded once, and the last one is exact. -/
theorem isRounding_fraction (h0 : 0 < count) (hcount : count ≤ 2 ^ 53) (hk : k ≤ count) :
    (fraction count k).IsRounding (k / count) := by
  have hpos : (0 : ℚ) < count := by exact_mod_cast h0
  unfold fraction
  split
  · next hlast =>
    subst hlast
    have hself := IsRounding.self (@isFinite_one .double)
    rwa [value_one, ← div_self (ne_of_gt hpos)] at hself
  · have hword : 2 ^ 53 < wordSize := by decide
    have hround := isRounding_quotient (k := k) h0 (by omega) (by omega)
    rwa [value_ofNat (show k ≤ 2 ^ 53 by omega), value_ofNat hcount] at hround

/-- A fraction before the last stays away from one, by at least six of the greatest errors that a
number up to one has in rounding. -/
theorem fraction_le (hcount : count ≤ 2 ^ 50) (hk : k < count) :
    (fraction count k).value ≤ 1 - 6 / 2 ^ 53 := by
  have h0 : 0 < count := Nat.zero_lt_of_lt hk
  have hword : 2 ^ 50 < wordSize := by decide
  have hpos : (0 : ℚ) < count := by exact_mod_cast h0
  have hround := isRounding_fraction h0 (by omega) (Nat.le_of_lt hk)
  obtain ⟨hfinite, -, -⟩ := fraction_mem h0 (by omega) (Nat.le_of_lt hk)
  have hgap : (k / count : ℚ) ≤ 1 - 1 / 2 ^ 50 := by
    have hnext : (k + 1 : ℚ) ≤ count := by exact_mod_cast hk
    have hlarge : (count : ℚ) ≤ 2 ^ 50 := by exact_mod_cast hcount
    have hpart : (1 / 2 ^ 50 : ℚ) * count ≤ 1 := by
      rw [one_div, inv_mul_le_iff₀ (by positivity)]
      linarith
    rw [div_le_iff₀ hpos]
    linarith
  have hsize : |(k / count : ℚ)| ≤ 1 := by
    have hnonneg : (0 : ℚ) ≤ k / count := by positivity
    rw [abs_of_nonneg hnonneg]
    linarith
  have herror := le_trans (hround.rounds.close hfinite) (Format.slack_le_double hsize)
  have hupper := (abs_le.mp herror).2
  linarith

end ColorAlgebra.Spread
