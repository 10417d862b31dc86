import ColorAlgebra.Proofs.Binary.Error
import ColorAlgebra.Proofs.Binary.Nearest

/-!
# Overflow

The finite magnitudes of a format end at the greatest one, and its grid goes on with a power
of two. The middle between the two is where overflow starts: the greatest significand is odd,
so that a number in the middle is rounded up. A number that is rounded to a double first and
to a narrower format from there overflows a little earlier.
-/

namespace ColorAlgebra

namespace Format

variable {f : Format} {num den : Nat}

/-! ## Below a count with an odd significand -/

/-- A count with an odd significand is not exceeded by what lies below the middle between it
and the next one. -/
theorem nearest_le_iff_of_odd {n : Nat} (hden : 0 < den) (hn : f.OnGrid n)
    (hodd : f.significand n % 2 = 1) :
    f.nearest num den ≤ n ↔ 2 * (num / den : ℚ) < 2 * n + (2 ^ f.step n : Nat) := by
  have hpos : (0 : ℚ) < (2 ^ f.step n : Nat) := by exact_mod_cast Nat.two_pow_pos _
  rcases le_or_gt (n : ℚ) (num / den) with hlow | hlow
  · rcases lt_or_ge (num / den : ℚ) (n + (2 ^ f.step n : Nat)) with hhigh | hhigh
    · have hge := le_nearest hden hn hlow
      have heq : f.nearest num den ≤ n ↔ f.nearest num den = n := by omega
      rw [heq, nearest_eq_lower_iff hden hn hlow hhigh]
      constructor
      · rintro (h | ⟨-, heven⟩)
        · exact h
        · omega
      · exact .inl
    · have hnext : n + 2 ^ f.step n ≤ f.nearest num den :=
        le_nearest hden hn.add (by exact_mod_cast hhigh)
      have := Nat.two_pow_pos (f.step n)
      exact iff_of_false (by omega) (by linarith)
  · exact iff_of_true (nearest_le hden hn (le_of_lt hlow)) (by linarith)

/-! ## The greatest magnitude -/

/-- The greatest finite magnitude. -/
def greatest (f : Format) : Nat := (2 ^ f.precision - 1) * 2 ^ (f.top - f.precision)

theorem onGrid_greatest (f : Format) : f.OnGrid f.greatest := by
  have htop := f.quantum_add_precision_le_top
  exact onGrid_mul_two_pow (Nat.sub_le _ _) (by omega)

theorem step_greatest (f : Format) : f.step f.greatest = f.top - f.precision := by
  cases f <;> decide +kernel

theorem significand_greatest_odd (f : Format) : f.significand f.greatest % 2 = 1 := by
  cases f <;> decide +kernel

theorem greatest_add (f : Format) : f.greatest + 2 ^ (f.top - f.precision) = 2 ^ f.top := by
  have htop := f.quantum_add_precision_le_top
  have hpos := Nat.two_pow_pos f.precision
  unfold greatest
  rw [← Nat.succ_mul, Nat.succ_eq_add_one, Nat.sub_add_cancel hpos, ← Nat.pow_add]
  congr 1
  omega

/-- A count of the grid below the power of two is at most the greatest. -/
theorem OnGrid.lt_top_iff {n : Nat} (hn : f.OnGrid n) : n < 2 ^ f.top ↔ n ≤ f.greatest := by
  have hadd := f.greatest_add
  have hpos := Nat.two_pow_pos (f.top - f.precision)
  constructor
  · intro hlt
    by_contra hgt
    have hnext := OnGrid.add_le f.onGrid_greatest hn (Nat.lt_of_not_le hgt)
    rw [step_greatest] at hnext
    omega
  · intro hle
    omega

/-! ## Where overflow starts -/

/-- The number at which overflow starts, half a spacing above the greatest magnitude. -/
def limit (f : Format) : ℚ := (2 ^ f.top - 2 ^ (f.top - f.precision - 1)) / unitsPerOne

theorem limit_units (f : Format) :
    f.limit * unitsPerOne * 2 = 2 * f.greatest + (2 ^ f.step f.greatest : Nat) := by
  have hU := ne_of_gt cast_unitsPerOne_pos
  have htop := f.quantum_add_precision_le_top
  have hless : f.precision < f.top := by cases f <;> decide
  have hpow : (2 : ℚ) ^ (f.top - f.precision) = 2 * 2 ^ (f.top - f.precision - 1) := by
    rw [← pow_succ', Nat.sub_add_cancel (by omega)]
  have hadd : (f.greatest : ℚ) + 2 ^ (f.top - f.precision) = 2 ^ f.top := by
    exact_mod_cast f.greatest_add
  rw [limit, div_mul_cancel₀ _ hU, step_greatest, Nat.cast_pow, Nat.cast_ofNat]
  linarith

theorem nearest_lt_top_iff (hden : 0 < den) :
    f.nearest num den < 2 ^ f.top ↔ (num / den : ℚ) / unitsPerOne < f.limit := by
  have hlimit := f.limit_units
  rw [(f.onGrid_nearest num den).lt_top_iff,
    nearest_le_iff_of_odd hden f.onGrid_greatest f.significand_greatest_odd, ← hlimit,
    div_lt_iff₀ cast_unitsPerOne_pos]
  constructor <;> intro h <;> linarith

/-! ## Through a double -/

/-- The greatest double that the format has room for. -/
def lastDouble (f : Format) : Nat :=
  match f with
  | double => double.greatest
  | f => 2 ^ f.top - 2 ^ (f.top - f.precision - 1) - 2 ^ (f.top - double.precision)

theorem onGrid_lastDouble (f : Format) : double.OnGrid f.lastDouble := by
  unfold OnGrid
  cases f <;> decide +kernel

theorem significand_lastDouble_odd (f : Format) : double.significand f.lastDouble % 2 = 1 := by
  cases f <;> decide +kernel

/-- The next double is the middle at which a narrower format starts to overflow. -/
theorem two_mul_lastDouble_add (hf : f ≠ double) :
    2 * (f.lastDouble + 2 ^ double.step f.lastDouble) = 2 * f.greatest + 2 ^ f.step f.greatest := by
  cases f with
  | half => decide +kernel
  | single => decide +kernel
  | double => exact absurd rfl hf

/-- The format has room for the doubles up to the last. -/
theorem nearest_lt_top_iff_le_lastDouble {v : Nat} (hv : double.OnGrid v) :
    f.nearest v 1 < 2 ^ f.top ↔ v ≤ f.lastDouble := by
  by_cases hf : f = double
  · subst hf
    rw [nearest_one_of_onGrid hv]
    exact hv.lt_top_iff
  · have hlast := two_mul_lastDouble_add hf
    have hiff := @nearest_le_iff_of_odd f v 1 _ Nat.one_pos f.onGrid_greatest f.significand_greatest_odd
    rw [Nat.cast_one, div_one] at hiff
    rw [(f.onGrid_nearest v 1).lt_top_iff, hiff]
    have hpos := Nat.two_pow_pos (double.step f.lastDouble)
    constructor
    · intro h
      have h : 2 * v < 2 * f.greatest + 2 ^ f.step f.greatest := by exact_mod_cast h
      by_contra hgt
      have hnext := OnGrid.add_le f.onGrid_lastDouble hv (Nat.lt_of_not_le hgt)
      omega
    · intro h
      have h : 2 * v < 2 * f.greatest + 2 ^ f.step f.greatest := by omega
      exact_mod_cast h

/-- The number at which overflow starts for what is rounded to a double first. -/
def limitThroughDouble (f : Format) : ℚ :=
  (2 * f.lastDouble + (2 ^ double.step f.lastDouble : Nat)) / (2 * unitsPerOne)

theorem nearest_le_lastDouble_iff (hden : 0 < den) :
    double.nearest num den ≤ f.lastDouble ↔
      (num / den : ℚ) / unitsPerOne < f.limitThroughDouble := by
  have hU := cast_unitsPerOne_pos
  rw [nearest_le_iff_of_odd hden f.onGrid_lastDouble f.significand_lastDouble_odd,
    limitThroughDouble, div_lt_div_iff₀ hU (by positivity)]
  generalize (unitsPerOne : ℚ) = u at hU
  rw [show (num / den : ℚ) * (2 * u) = 2 * (num / den) * u by ring, mul_lt_mul_iff_left₀ hU]

end Format

/-! ## Values -/

namespace Binary

variable {f : Format}

theorem isFinite_round_iff (s : Bool) {num den : Nat} :
    (round s num den : Binary f).isFinite = true ↔ f.nearest num den < 2 ^ f.top := by
  unfold round
  split
  · next h => exact iff_of_true rfl h
  · next h => exact iff_of_false Bool.false_ne_true h

/-- What becomes of a rounded quotient when it is narrowed. -/
theorem isFinite_convert_round_iff (s : Bool) {num den : Nat} (hden : 0 < den) :
    ((round s num den : Double).convert f).isFinite = true ↔
      (num / den : ℚ) / unitsPerOne < f.limitThroughDouble := by
  rw [← Format.nearest_le_lastDouble_iff hden]
  have hgrid := Format.double.onGrid_nearest num den
  by_cases hlt : Format.double.nearest num den < 2 ^ Format.double.top
  · rw [round_of_nearest (Format.representable_nearest hlt) rfl,
      ← Format.nearest_lt_top_iff_le_lastDouble hgrid]
    exact isFinite_round_iff s
  · have hlast : f.lastDouble < 2 ^ Format.double.top := by cases f <;> decide +kernel
    rw [round_of_top_le (Nat.le_of_not_lt hlt)]
    exact iff_of_false Bool.false_ne_true (by omega)

/-- A product of doubles that is narrowed is finite below the limit. -/
theorem isFinite_convert_mul_iff {x y : Double} (hx : x.isFinite = true) (hy : y.isFinite = true) :
    ((x.mul y).convert f).isFinite = true ↔ |x.value * y.value| < f.limitThroughDouble := by
  obtain ⟨s, a, ha, rfl⟩ := exists_finite hx
  obtain ⟨t, b, hb, rfl⟩ := exists_finite hy
  have hnonneg : (0 : ℚ) ≤ (a : ℚ) / unitsPerOne * (b / unitsPerOne) := by positivity
  have hvalue : |sign s * ((a : ℚ) / unitsPerOne) * (sign t * (b / unitsPerOne))| =
      (a * b : Nat) / unitsPerOne / unitsPerOne := by
    rw [show sign s * ((a : ℚ) / unitsPerOne) * (sign t * (b / unitsPerOne)) =
        sign s * (sign t * (a / unitsPerOne * (b / unitsPerOne))) by ring,
      abs_sign_mul, abs_sign_mul, abs_of_nonneg hnonneg, Nat.cast_mul]
    ring
  show ((round (s ^^ t) (a * b) unitsPerOne : Double).convert f).isFinite = true ↔
    |sign s * ((a : ℚ) / unitsPerOne) * (sign t * (b / unitsPerOne))| < f.limitThroughDouble
  rw [isFinite_convert_round_iff _ Format.unitsPerOne_pos, hvalue]

end Binary

end ColorAlgebra
