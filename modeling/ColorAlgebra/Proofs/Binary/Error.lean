import ColorAlgebra.Proofs.Binary.Widening
import ColorAlgebra.Proofs.Sorting.Order
import Mathlib.Algebra.Order.Ring.Abs

/-!
# Rounding errors

A finite value is a number, and what an operation gives is the exact result rounded once.
One statement about rounding serves all operations: an exact result of moderate size does
not overflow, and the rounded one differs from it by no more than a small fraction of it
and half of the least magnitude.

* `Binary.value`: the number that a finite value is.
* `Format.slack`: how far a number may lie from its rounding.
* `Binary.IsRounding`: a value is what a number is rounded to.
* `Binary.Rounds`: the error of that, and when it does not overflow.
* `Binary.Within`: a finite value is near a number.

Results:
1. `Format.nearest_error`: the error of one rounding, in units.
2. `Binary.isRounding_add`, `Binary.isRounding_sub`, `Binary.isRounding_mul`,
   `Binary.isRounding_div`, `Binary.isRounding_convert`: every operation rounds its exact result.
3. `Binary.less_iff_value`, `Binary.atMost_iff_value`, `Binary.equal_iff_value`: the order of
   finite values is that of their numbers.
4. `Binary.IsRounding.rounds`, `Binary.Rounds.within`: the error of a rounding, and the rounding
   of a number that is near another.
-/

namespace ColorAlgebra

variable {f g : Format}

/-! ## One rounding -/

namespace Format

theorem cast_unitsPerOne_pos : (0 : ℚ) < unitsPerOne := by exact_mod_cast unitsPerOne_pos

/-- Half of the spacing around a number of this size, or of the least spacing. -/
def slack (f : Format) (q : ℚ) : ℚ := |q| / 2 ^ f.precision + 2 ^ f.quantum / (2 * unitsPerOne)

theorem two_pow_step_le (f : Format) (n : Nat) :
    2 ^ f.step n * 2 ^ f.precision ≤ 2 * n + 2 ^ f.quantum * 2 ^ f.precision := by
  rcases Nat.eq_or_lt_of_le (f.quantum_le_step n) with heq | hlt
  · rw [← heq]
    exact Nat.le_add_left _ _
  · obtain ⟨j, hj⟩ : ∃ j, f.step n = j + 1 := ⟨f.step n - 1, by omega⟩
    have hbinade : 2 ^ (f.precision + j) ≤ n := two_pow_le_of_lt_step (by omega) (by omega)
    calc 2 ^ f.step n * 2 ^ f.precision = 2 * 2 ^ (f.precision + j) := by
          rw [hj, Nat.pow_succ', Nat.mul_assoc, ← Nat.pow_add, Nat.add_comm j]
      _ ≤ 2 * n := Nat.mul_le_mul_left 2 hbinade
      _ ≤ _ := Nat.le_add_right _ _

/-- The spacing at a number of units is a small fraction of it, or the least spacing. -/
theorem spacing_le {num den : Nat} :
    ((2 ^ f.step (num / den) : Nat) : ℚ) ≤
      2 * ((num / den : ℚ) / 2 ^ f.precision) + 2 ^ f.quantum := by
  have hfloor : ((num / den : Nat) : ℚ) ≤ num / den := Nat.cast_div_le
  have hpos : (0 : ℚ) < 2 ^ f.precision := by positivity
  have hle : ((2 ^ f.step (num / den) : Nat) : ℚ) * 2 ^ f.precision ≤
      2 * ((num / den : Nat) : ℚ) + 2 ^ f.quantum * 2 ^ f.precision := by
    exact_mod_cast f.two_pow_step_le (num / den)
  rw [← mul_le_mul_iff_left₀ hpos]
  calc ((2 ^ f.step (num / den) : Nat) : ℚ) * 2 ^ f.precision
      ≤ 2 * (num / den) + 2 ^ f.quantum * 2 ^ f.precision := by linarith
    _ = (2 * ((num / den : ℚ) / 2 ^ f.precision) + 2 ^ f.quantum) * 2 ^ f.precision := by
      field_simp

theorem nearest_error {num den : Nat} (hden : 0 < den) :
    |(f.nearest num den : ℚ) - num / den| ≤
      (num / den : ℚ) / 2 ^ f.precision + 2 ^ f.quantum / 2 := by
  obtain ⟨n, hn, -, hnear⟩ := f.nearest_eq_mul num hden
  have hlow := hnear.low
  have hhigh := hnear.high
  have hspacing := @spacing_le f num den
  rw [hn, Nat.cast_mul, abs_le]
  constructor <;> linarith

theorem slack_le {p k : Nat} {q b : ℚ} (hp : p ≤ f.precision) (hk : f.quantum + k ≤ unitExponent)
    (hq : |q| ≤ b) : f.slack q ≤ b / 2 ^ p + 1 / 2 ^ (k + 1) := by
  have hU := cast_unitsPerOne_pos
  have hunits : (2 ^ f.quantum * 2 ^ k : ℚ) ≤ unitsPerOne := by
    rw [← pow_add, unitsPerOne_eq]
    exact_mod_cast Nat.pow_le_pow_right (by decide : 0 < 2) hk
  have hpow : (2 : ℚ) ^ p ≤ 2 ^ f.precision := pow_le_pow_right₀ (by norm_num) hp
  have hquantum : (2 ^ f.quantum : ℚ) / (2 * unitsPerOne) ≤ 1 / 2 ^ (k + 1) := by
    rw [div_le_div_iff₀ (by positivity) (by positivity), pow_succ]
    linarith
  have hfraction : |q| / 2 ^ f.precision ≤ b / 2 ^ p :=
    div_le_div₀ (le_trans (abs_nonneg q) hq) hq (by positivity) hpow
  exact add_le_add hfraction hquantum

/-- No format has more slack than a half. -/
theorem slack_le_half {q b : ℚ} (hq : |q| ≤ b) : f.slack q ≤ b / 2 ^ 11 + 1 / 2 ^ 25 :=
  slack_le (by cases f <;> decide) (by cases f <;> decide) hq

theorem slack_le_double {q b : ℚ} (hq : |q| ≤ b) : double.slack q ≤ b / 2 ^ 53 + 1 / 2 ^ 53 :=
  slack_le (by decide) (by decide) hq

end Format

namespace Binary

/-! ## Numbers -/

/-- Minus one for a negative number. -/
def sign (negative : Bool) : ℚ := if negative then -1 else 1

/-- The number that a finite value is. An infinity and a NaN are no numbers, and count as
zero. -/
def value : Binary f → ℚ
  | finite negative units _ => sign negative * (units / unitsPerOne)
  | _ => 0

theorem sign_false_mul (q : ℚ) : sign false * q = q := one_mul q

theorem sign_true_mul (q : ℚ) : sign true * q = -q := neg_one_mul q

theorem value_signedZero (s : Bool) : (signedZero s : Binary f).value = 0 := by
  show sign s * ((0 : Nat) / unitsPerOne) = 0
  rw [Nat.cast_zero, zero_div, mul_zero]

theorem value_zero : (zero : Binary f).value = 0 := value_signedZero false

theorem sign_xor (s t : Bool) : sign (s ^^ t) = sign s * sign t := by
  cases s <;> cases t <;> simp [sign]

theorem abs_sign_mul (s : Bool) (q : ℚ) : |sign s * q| = |q| := by
  cases s <;> simp [sign]

theorem cast_signed (s : Bool) (n : Nat) : (signed s n : ℚ) = sign s * n := by
  cases s <;> simp [sign, signed]

theorem sign_mul_natAbs (k : Int) : sign (decide (k < 0)) * (k.natAbs : ℚ) = k := by
  have habs : (k.natAbs : ℚ) = |(k : ℚ)| := by rw [Nat.cast_natAbs, Int.cast_abs]
  rcases lt_or_ge k 0 with hneg | hpos
  · have hlt : (k : ℚ) < 0 := by exact_mod_cast hneg
    rw [habs, abs_of_neg hlt, decide_eq_true hneg]
    show (-1 : ℚ) * -k = k
    ring
  · have hle : (0 : ℚ) ≤ k := by exact_mod_cast hpos
    rw [habs, abs_of_nonneg hle, decide_eq_false (not_lt.mpr hpos)]
    exact one_mul _

theorem exists_finite {x : Binary f} (hx : x.isFinite = true) :
    ∃ s n h, x = finite s n h := by
  cases x with
  | nan => cases hx
  | infinity => cases hx
  | finite s n h => exact ⟨s, n, h, rfl⟩

theorem eq_signedZero {x : Binary f} (h : x.isZero = true) : x = signedZero x.isNegative := by
  cases x with
  | nan => cases h
  | infinity => cases h
  | finite s n hn =>
    cases n with
    | zero => rfl
    | succ n => cases h

theorem isNegative_round (s : Bool) (num den : Nat) :
    (round s num den : Binary f).isNegative = s := by
  unfold round
  split <;> rfl

theorem isNegative_ofUnits (s : Bool) (n : Nat) : (ofUnits s n : Binary f).isNegative = s :=
  isNegative_round s n 1

/-- A finite value stands at its number of units. -/
theorem exists_rank {x : Binary f} (hx : x.isFinite = true) :
    ∃ a : Int, x.rank = some a ∧ x.value = a / unitsPerOne := by
  obtain ⟨s, n, h, rfl⟩ := exists_finite hx
  refine ⟨signed s n, rfl, ?_⟩
  rw [cast_signed, mul_div_assoc]
  rfl

theorem less_iff_value {x y : Binary f} (hx : x.isFinite = true) (hy : y.isFinite = true) :
    x.less y = true ↔ x.value < y.value := by
  obtain ⟨a, ha, hxa⟩ := exists_rank hx
  obtain ⟨b, hb, hyb⟩ := exists_rank hy
  unfold less related
  rw [ha, hb, hxa, hyb, div_lt_div_iff_of_pos_right Format.cast_unitsPerOne_pos, Int.cast_lt]
  exact decide_eq_true_iff

theorem atMost_iff_value {x y : Binary f} (hx : x.isFinite = true) (hy : y.isFinite = true) :
    x.atMost y = true ↔ x.value ≤ y.value := by
  obtain ⟨a, ha, hxa⟩ := exists_rank hx
  obtain ⟨b, hb, hyb⟩ := exists_rank hy
  unfold atMost related
  rw [ha, hb, hxa, hyb, div_le_div_iff_of_pos_right Format.cast_unitsPerOne_pos, Int.cast_le]
  exact decide_eq_true_iff

theorem equal_iff_value {x y : Binary f} (hx : x.isFinite = true) (hy : y.isFinite = true) :
    x.equal y = true ↔ x.value = y.value := by
  obtain ⟨a, ha, hxa⟩ := exists_rank hx
  obtain ⟨b, hb, hyb⟩ := exists_rank hy
  unfold equal related
  rw [ha, hb, hxa, hyb, div_left_inj' (ne_of_gt Format.cast_unitsPerOne_pos), Int.cast_inj]
  exact decide_eq_true_iff

theorem isFinite_neg (x : Binary f) : x.neg.isFinite = x.isFinite := by
  cases x <;> rfl

theorem value_neg (x : Binary f) : x.neg.value = -x.value := by
  cases x with
  | nan => exact neg_zero.symm
  | infinity => exact neg_zero.symm
  | finite s n h => cases s <;> simp [neg, value, sign]

theorem isFinite_abs (x : Binary f) : x.abs.isFinite = x.isFinite := by
  cases x <;> rfl

theorem value_abs (x : Binary f) : x.abs.value = |x.value| := by
  cases x with
  | nan => exact abs_zero.symm
  | infinity => exact abs_zero.symm
  | finite s n h =>
    have hnonneg : (0 : ℚ) ≤ n / unitsPerOne := by positivity
    show (1 : ℚ) * (n / unitsPerOne) = |sign s * (n / unitsPerOne)|
    rw [abs_sign_mul, abs_of_nonneg hnonneg, one_mul]

theorem isFinite_widen (x : Binary f) : (x.convert .double).isFinite = x.isFinite := by
  cases x with
  | nan => rfl
  | infinity => rfl
  | finite s n h => rw [convert_finite h.widen]; rfl

theorem value_widen (x : Binary f) : (x.convert .double).value = x.value := by
  cases x with
  | nan => rfl
  | infinity => rfl
  | finite s n h => rw [convert_finite h.widen]; rfl

/-- A natural number that a significand can hold is exact. -/
theorem ofNat_eq {n : Nat} (hn : n ≤ 2 ^ f.precision) :
    ∃ h : f.Representable (n * unitsPerOne),
      (ofNat n : Binary f) = finite false (n * unitsPerOne) h := by
  have hquantum : f.quantum ≤ unitExponent := by cases f <;> decide
  have hexponent : f.precision + unitExponent < f.top := by cases f <;> decide
  have htop : n * 2 ^ unitExponent < 2 ^ f.top :=
    calc n * 2 ^ unitExponent ≤ 2 ^ f.precision * 2 ^ unitExponent := Nat.mul_le_mul_right _ hn
      _ = 2 ^ (f.precision + unitExponent) := (Nat.pow_add ..).symm
      _ < 2 ^ f.top := Nat.pow_lt_pow_right (by decide) hexponent
  have hrepresentable : f.Representable (n * unitsPerOne) := by
    rw [unitsPerOne_eq]
    exact Format.representable_mul_two_pow hn hquantum htop
  exact ⟨hrepresentable, ofUnits_of_representable false hrepresentable⟩

theorem isFinite_ofNat {n : Nat} (hn : n ≤ 2 ^ f.precision) :
    (ofNat n : Binary f).isFinite = true := by
  obtain ⟨h, hfinite⟩ := ofNat_eq hn
  rw [hfinite]
  rfl

theorem value_units {n : Nat} (h : f.Representable (n * unitsPerOne)) :
    (finite false (n * unitsPerOne) h).value = n := by
  show (1 : ℚ) * ((n * unitsPerOne : Nat) / unitsPerOne) = n
  rw [one_mul, Nat.cast_mul, mul_div_cancel_right₀ _ (ne_of_gt Format.cast_unitsPerOne_pos)]

theorem value_ofNat {n : Nat} (hn : n ≤ 2 ^ f.precision) : (ofNat n : Binary f).value = n := by
  obtain ⟨h, hfinite⟩ := ofNat_eq hn
  rw [hfinite, value_units]

theorem isFinite_one : (one : Binary f).isFinite = true := isFinite_ofNat Nat.one_le_two_pow

theorem value_one : (one : Binary f).value = 1 := by
  have hone : 1 ≤ 2 ^ f.precision := Nat.one_le_two_pow
  exact_mod_cast value_ofNat hone

/-! ## Rounded results -/

/-- The value is what `q` is rounded to. The number is a quotient of units with a sign, and a
magnitude that overflows is rounded to an infinity. -/
def IsRounding (x : Binary f) (q : ℚ) : Prop :=
  ∃ (s : Bool) (num den : Nat), 0 < den ∧ q = sign s * (num / den / unitsPerOne) ∧
    x = round s num den

theorem isRounding_round (s : Bool) (num : Nat) {den : Nat} (hden : 0 < den) :
    (round s num den : Binary f).IsRounding (sign s * (num / den / unitsPerOne)) :=
  ⟨s, num, den, hden, rfl, rfl⟩

/-- The same for a whole number of units. -/
theorem isRounding_ofUnits (s : Bool) (n : Nat) :
    (ofUnits s n : Binary f).IsRounding (sign s * (n / unitsPerOne)) := by
  simpa [ofUnits] using @isRounding_round f s n 1 Nat.one_pos

theorem isRounding_zero (s : Bool) : (signedZero s : Binary f).IsRounding 0 := by
  have hzero : (ofUnits s 0 : Binary f) = signedZero s :=
    ofUnits_of_representable s f.representable_zero
  have hround := @isRounding_ofUnits f s 0
  rwa [hzero, Nat.cast_zero, zero_div, mul_zero] at hround

theorem isRounding_ofNat (n : Nat) : (ofNat n : Binary f).IsRounding n := by
  have hround := @isRounding_ofUnits f false (n * unitsPerOne)
  rwa [Nat.cast_mul, mul_div_cancel_right₀ _ (ne_of_gt Format.cast_unitsPerOne_pos),
    sign_false_mul] at hround

theorem isRounding_convert {x : Binary f} (hx : x.isFinite = true) :
    (x.convert g).IsRounding x.value := by
  obtain ⟨s, n, h, rfl⟩ := exists_finite hx
  exact isRounding_ofUnits s n

theorem isRounding_mul {x y : Binary f} (hx : x.isFinite = true) (hy : y.isFinite = true) :
    (x.mul y).IsRounding (x.value * y.value) := by
  obtain ⟨s, a, ha, rfl⟩ := exists_finite hx
  obtain ⟨t, b, hb, rfl⟩ := exists_finite hy
  have hround := @isRounding_round f (s ^^ t) (a * b) _ Format.unitsPerOne_pos
  have hexact : sign s * ((a : ℚ) / unitsPerOne) * (sign t * (b / unitsPerOne)) =
      sign (s ^^ t) * ((a * b : Nat) / unitsPerOne / unitsPerOne) := by
    rw [sign_xor, Nat.cast_mul]
    ring
  exact hexact ▸ hround

theorem isRounding_div {x y : Binary f} (hx : x.isFinite = true) (hy : y.isFinite = true)
    (h0 : y.value ≠ 0) : (x.div y).IsRounding (x.value / y.value) := by
  obtain ⟨s, a, ha, rfl⟩ := exists_finite hx
  obtain ⟨t, b, hb, rfl⟩ := exists_finite hy
  have hb0 : b ≠ 0 := by
    rintro rfl
    exact h0 (value_signedZero t)
  have hbcast : (b : ℚ) ≠ 0 := by exact_mod_cast hb0
  have hU := ne_of_gt Format.cast_unitsPerOne_pos
  have hround := @isRounding_round f (s ^^ t) (a * unitsPerOne) _ (Nat.pos_of_ne_zero hb0)
  have hexact : sign s * ((a : ℚ) / unitsPerOne) / (sign t * (b / unitsPerOne)) =
      sign (s ^^ t) * ((a * unitsPerOne : Nat) / b / unitsPerOne) := by
    rw [sign_xor, Nat.cast_mul]
    cases t <;> simp only [sign, if_true, Bool.false_eq_true, if_false] <;> field_simp
  dsimp only [div]
  rw [if_neg hb0]
  exact hexact ▸ hround

theorem isRounding_add {x y : Binary f} (hx : x.isFinite = true) (hy : y.isFinite = true) :
    (x.add y).IsRounding (x.value + y.value) := by
  obtain ⟨s, a, ha, rfl⟩ := exists_finite hx
  obtain ⟨t, b, hb, rfl⟩ := exists_finite hy
  have hexact : sign s * ((a : ℚ) / unitsPerOne) + sign t * (b / unitsPerOne) =
      ((signed s a + signed t b : Int) : ℚ) / unitsPerOne := by
    rw [Int.cast_add, cast_signed, cast_signed]
    ring
  show (if signed s a + signed t b = 0 then signedZero (s && t)
    else ofUnits (decide (signed s a + signed t b < 0)) (signed s a + signed t b).natAbs :
      Binary f).IsRounding (sign s * ((a : ℚ) / unitsPerOne) + sign t * (b / unitsPerOne))
  rw [hexact]
  split
  · next hzero =>
    rw [hzero, Int.cast_zero, zero_div]
    exact isRounding_zero _
  · have hround := @isRounding_ofUnits f (decide (signed s a + signed t b < 0))
      (signed s a + signed t b).natAbs
    rwa [← mul_div_assoc, sign_mul_natAbs] at hround

theorem isRounding_sub {x y : Binary f} (hx : x.isFinite = true) (hy : y.isFinite = true) :
    (x.sub y).IsRounding (x.value - y.value) := by
  have hround := isRounding_add hx ((isFinite_neg y).trans hy)
  rwa [value_neg, ← sub_eq_add_neg] at hround

/-! ## Errors -/

/-- The value is `q` after one rounding. It is finite if `q` is small enough for every
format, and a finite one is near `q`. -/
structure Rounds (x : Binary f) (q : ℚ) : Prop where
  finite : |q| ≤ 2 ^ 15 → x.isFinite = true
  close : x.isFinite = true → |x.value - q| ≤ f.slack q

theorem isFinite_round {num den : Nat} (s : Bool) (hden : 0 < den)
    (h : (num / den : ℚ) / unitsPerOne ≤ 2 ^ 15) :
    (round s num den : Binary f).isFinite = true := by
  have hquantum : f.quantum ≤ 15 + unitExponent := by cases f <;> decide
  have htop : 15 + unitExponent < f.top := by cases f <;> decide
  have hle : (num / den : ℚ) ≤ (2 ^ (15 + unitExponent) : Nat) := by
    rw [div_le_iff₀ Format.cast_unitsPerOne_pos, unitsPerOne_eq] at h
    generalize unitExponent = k at h
    rw [Nat.pow_add]
    exact_mod_cast h
  have hlt : f.nearest num den < 2 ^ f.top :=
    Nat.lt_of_le_of_lt (Format.nearest_le hden (Format.onGrid_two_pow hquantum) hle)
      (Nat.pow_lt_pow_right (by decide) htop)
  unfold round
  rw [dif_pos hlt]
  rfl

theorem value_round {num den : Nat} {s : Bool}
    (h : (round s num den : Binary f).isFinite = true) :
    (round s num den : Binary f).value = sign s * (f.nearest num den / unitsPerOne) := by
  unfold round at h ⊢
  split
  · rfl
  · next hge =>
    rw [dif_neg hge] at h
    cases h

theorem IsRounding.rounds {x : Binary f} {q : ℚ} (h : x.IsRounding q) : x.Rounds q := by
  obtain ⟨s, num, den, hden, rfl, rfl⟩ := h
  have hU := Format.cast_unitsPerOne_pos
  have hnonneg : (0 : ℚ) ≤ num / den / unitsPerOne := by positivity
  have hsize : |sign s * ((num : ℚ) / den / unitsPerOne)| = num / den / unitsPerOne := by
    rw [abs_sign_mul, abs_of_nonneg hnonneg]
  refine ⟨fun h => isFinite_round s hden (hsize ▸ h), fun h => ?_⟩
  have herror := @Format.nearest_error f num den hden
  unfold Format.slack
  rw [hsize, value_round h, ← mul_sub, abs_sign_mul, ← sub_div, abs_div, abs_of_pos hU,
    div_le_iff₀ hU]
  refine le_trans herror (le_of_eq ?_)
  field_simp

/-! ## Values near a number -/

/-- The value is finite, and its number differs from `q` by `e` or less. -/
structure Within (x : Binary f) (q e : ℚ) : Prop where
  finite : x.isFinite = true
  close : |x.value - q| ≤ e

namespace Within

variable {x : Binary f} {q e : ℚ}

theorem mono {e' : ℚ} (h : x.Within q e) (he : e ≤ e') : x.Within q e' :=
  ⟨h.finite, le_trans h.close he⟩

theorem abs_le (h : x.Within q e) : |x.value| ≤ |q| + e := by
  have htriangle := abs_add_le q (x.value - q)
  rw [add_sub_cancel] at htriangle
  exact le_trans htriangle (add_le_add_right h.close _)

end Within

/-- What is rounded from a number near `q` is near `q`. -/
theorem Rounds.within {x : Binary f} {p q e d : ℚ} (h : x.Rounds p) (hclose : |p - q| ≤ e)
    (hp : |p| ≤ 2 ^ 15) (hslack : f.slack p ≤ d) : x.Within q (e + d) := by
  have hfinite := h.finite hp
  have herror := le_trans (h.close hfinite) hslack
  have htriangle := abs_sub_le x.value p q
  exact ⟨hfinite, by linarith⟩

end Binary

end ColorAlgebra
