import Mathlib.Data.Rat.Floor
import ColorAlgebra.Proofs.Comparing.PartialOrder
import ColorAlgebra.Proofs.Decimal.Places

/-!
# Whole numbers

Taking a number to one of the two whole ones around it is never followed by a rounding: a number
that is large enough to lack a fraction stays as it is, and below that size the format has every
whole number. So the floor of a value is the floor of the number that it is, whichever format it
is taken in, and it has the sign of the value even if it is zero.
-/

namespace ColorAlgebra

/-! ## Counts -/

/-- The rule takes a count of units to one of the two whole numbers around it, and a whole one to
itself. -/
structure ToWhole (rule : Nat → Nat) : Prop where
  low : ∀ n, n / unitsPerOne ≤ rule n
  high : ∀ n, rule n ≤ n / unitsPerOne + 1
  whole : ∀ k, rule (k * unitsPerOne) = k

theorem toWhole_wholeBelow : ToWhole Binary.wholeBelow where
  low _ := Nat.le_refl _
  high _ := Nat.le_succ _
  whole k := Nat.mul_div_cancel k Format.unitsPerOne_pos

/-- The least whole number not below a magnitude is less than one above it. -/
theorem wholeAbove_bounds (n : Nat) :
    n ≤ Binary.wholeAbove n * unitsPerOne ∧
      Binary.wholeAbove n * unitsPerOne < n + unitsPerOne := by
  have hpos := Format.unitsPerOne_pos
  have hdiv := Nat.div_add_mod' (n + (unitsPerOne - 1)) unitsPerOne
  have hmod := Nat.mod_lt (n + (unitsPerOne - 1)) hpos
  unfold Binary.wholeAbove
  omega

theorem toWhole_wholeAbove : ToWhole Binary.wholeAbove where
  low n := Nat.div_le_div_right (Nat.le_add_right _ _)
  high n := by
    have hpos := Format.unitsPerOne_pos
    rw [← Nat.add_div_right n hpos]
    exact Nat.div_le_div_right (by omega)
  whole k := by
    obtain ⟨hlow, hhigh⟩ := wholeAbove_bounds (k * unitsPerOne)
    rw [← Nat.succ_mul] at hhigh
    have hle := Nat.le_of_mul_le_mul_right hlow Format.unitsPerOne_pos
    have hlt := Nat.lt_of_mul_lt_mul_right hhigh
    omega

theorem toWhole_roundDiv : ToWhole fun n => Format.roundDiv n unitsPerOne where
  low n := Format.le_roundDiv n unitsPerOne
  high n := Format.roundDiv_le_succ n unitsPerOne
  whole _ := Format.roundDiv_mul Format.unitsPerOne_pos

/-- A rule for each sign. -/
theorem ToWhole.ite {rule other : Nat → Nat} (hrule : ToWhole rule) (hother : ToWhole other)
    (s : Bool) : ToWhole fun n => if s then rule n else other n := by
  cases s with
  | false =>
    simp only [Bool.false_eq_true, if_false]
    exact hother
  | true =>
    simp only [if_true]
    exact hrule

/-- A magnitude with a fraction is so small that the format has the whole numbers around it. -/
theorem Format.Representable.whole {f : Format} {n : Nat} (h : f.Representable n)
    {rule : Nat → Nat} (hrule : ToWhole rule) : f.Representable (rule n * unitsPerOne) := by
  have hprecision := f.precision_pos
  rcases Nat.lt_or_ge (f.step n) unitExponent with hfine | hcoarse
  · have hsize : n < 2 ^ (f.precision - 1) * unitsPerOne :=
      calc n < 2 ^ (f.precision + f.step n) := f.lt_two_pow_step n
        _ ≤ 2 ^ (f.precision - 1 + unitExponent) := Nat.pow_le_pow_right (by decide) (by omega)
        _ = 2 ^ (f.precision - 1) * unitsPerOne := (two_pow_mul_unitsPerOne _).symm
    have hbelow := (Nat.div_lt_iff_lt_mul Format.unitsPerOne_pos).mpr hsize
    have hfits : rule n ≤ 2 ^ f.precision :=
      calc rule n ≤ 2 ^ (f.precision - 1) := Nat.le_trans (hrule.high n) hbelow
        _ ≤ 2 ^ f.precision := Nat.pow_le_pow_right (by decide) (Nat.sub_le _ _)
    exact (Binary.ofNat_eq hfits).1
  · have hdvd : unitsPerOne ∣ n := by
      rw [unitsPerOne_eq]
      exact Nat.dvd_trans (Nat.pow_dvd_pow 2 hcoarse) h.onGrid
    obtain ⟨k, hk⟩ := hdvd
    rw [Nat.mul_comm] at hk
    rw [hk] at h ⊢
    rwa [hrule.whole]

/-! ## Numbers -/

/-- The integer that is left without the fraction. -/
def towardZero (q : ℚ) : Int := if 0 ≤ q then ⌊q⌋ else ⌈q⌉

/-- The nearest integer, a tie going to the even one. -/
def nearestEven (q : ℚ) : Int :=
  if 2 * Int.fract q < 1 ∨ 2 * Int.fract q = 1 ∧ ⌊q⌋ % 2 = 0 then ⌊q⌋ else ⌊q⌋ + 1

theorem isNearestMultiple_nearestEven (q : ℚ) : IsNearestMultiple 1 q (nearestEven q) := by
  have hnonneg := Int.fract_nonneg q
  have hone := Int.fract_lt_one q
  have hfract : q - ⌊q⌋ = Int.fract q := Int.self_sub_floor q
  rw [isNearestMultiple_iff one_pos, mul_one]
  unfold nearestEven
  split
  · next h =>
    rw [hfract, abs_of_nonneg hnonneg]
    refine ⟨?_, fun htie => ?_⟩
    · rcases h with h | ⟨h, -⟩ <;> linarith
    · rcases h with h | ⟨-, heven⟩
      · linarith
      · exact heven
  · next h =>
    have hdist : q - (⌊q⌋ + 1 : Int) = -(1 - Int.fract q) := by
      rw [← hfract]
      push_cast
      ring
    rw [hdist, abs_neg, abs_of_nonneg (by linarith)]
    have hhalf : ¬2 * Int.fract q < 1 := fun hlt => h (.inl hlt)
    refine ⟨by linarith, fun htie => ?_⟩
    have hodd : ¬⌊q⌋ % 2 = 0 := fun heven => h (.inr ⟨by linarith, heven⟩)
    omega

theorem IsNearestMultiple.unique {p q : ℚ} {j k : Int} (hp : 0 < p) (hj : IsNearestMultiple p q j)
    (hk : IsNearestMultiple p q k) : j = k :=
  Int.le_antisymm (hj.mono hp hk le_rfl) (hk.mono hp hj le_rfl)

theorem floor_units (n : Nat) : ⌊(n / unitsPerOne : ℚ)⌋ = Binary.wholeBelow n := by
  rw [Rat.floor_natCast_div_natCast, ← Int.natCast_ediv]
  rfl

theorem ceil_units (n : Nat) : ⌈(n / unitsPerOne : ℚ)⌉ = Binary.wholeAbove n := by
  obtain ⟨hlow, hhigh⟩ := wholeAbove_bounds n
  have hU := Format.cast_unitsPerOne_pos
  rw [Int.ceil_eq_iff, Int.cast_natCast, lt_div_iff₀ hU, div_le_iff₀ hU, sub_mul, one_mul,
    sub_lt_iff_lt_add]
  exact ⟨by exact_mod_cast hhigh, by exact_mod_cast hlow⟩

theorem towardZero_intCast (k : Int) : towardZero k = k := by
  unfold towardZero
  rw [Int.floor_intCast, Int.ceil_intCast, ite_self]

theorem towardZero_units (s : Bool) (n : Nat) :
    towardZero (Binary.sign s * (n / unitsPerOne)) = signed s (Binary.wholeBelow n) := by
  have hnonneg : (0 : ℚ) ≤ n / unitsPerOne := by positivity
  rw [towardZero, signed, ← floor_units]
  cases s with
  | false => rw [Binary.sign_false_mul, if_pos hnonneg, if_neg Bool.false_ne_true]
  | true =>
    rw [Binary.sign_true_mul, if_pos rfl]
    rcases lt_or_eq_of_le hnonneg with hpos | hzero
    · rw [if_neg (not_le.mpr (neg_lt_zero.mpr hpos)), Int.ceil_neg]
    · rw [← hzero, neg_zero, if_pos le_rfl, Int.floor_zero, Int.neg_zero]

/-! ## Values -/

namespace Binary

variable {f : Format} {rule other : Bool → Nat → Nat}

/-- `y` is what a function of numbers makes of `x`, without a rounding. An infinity stays one, and
of every value that is not a NaN the sign is known, that of a zero included. -/
structure Exactly (number : ℚ → ℚ) (sign : Bool → Bool) (x y : Binary f) : Prop where
  finite : x.isFinite = true → y.isFinite = true ∧ y.value = number x.value
  infinite : ∀ s, x = infinity s → y = infinity (sign s)
  sign : x.isNaN = false → y.isNegative = sign x.isNegative

section
variable (hrule : ∀ s, ToWhole (rule s))
include hrule

theorem wholeBy_finite {s : Bool} {n : Nat} (hn : f.Representable n) :
    (finite s n hn).wholeBy rule = finite s (rule s n * unitsPerOne) (hn.whole (hrule s)) :=
  ofUnits_of_representable s (hn.whole (hrule s))

theorem narrow_wholeBy (x : Binary f) :
    ((x.convert .double).wholeBy rule).convert f = x.wholeBy rule := by
  cases x with
  | nan => rfl
  | infinity s => rfl
  | finite s n hn =>
    rw [convert_finite hn.widen, wholeBy_finite hrule, wholeBy_finite hrule,
      convert_finite (hn.whole (hrule s))]

/-- What one rule made whole, another leaves as it is. -/
theorem wholeBy_wholeBy (hother : ∀ s, ToWhole (other s)) (x : Binary f) :
    (x.wholeBy rule).wholeBy other = x.wholeBy rule := by
  cases x with
  | nan => rfl
  | infinity s => rfl
  | finite s n hn =>
    rw [wholeBy_finite hrule, wholeBy_finite hother]
    simp only [(hother s).whole]

theorem exactly_wholeBy {number : ℚ → ℚ}
    (hnumber : ∀ s (n : Nat), number (Binary.sign s * (n / unitsPerOne)) = Binary.sign s * rule s n)
    (x : Binary f) : x.Exactly number id (x.wholeBy rule) := by
  refine ⟨fun hx => ?_, fun s hs => ?_, fun hx => ?_⟩
  · obtain ⟨s, n, hn, rfl⟩ := exists_finite hx
    rw [wholeBy_finite hrule]
    refine ⟨rfl, Eq.trans ?_ (hnumber s n).symm⟩
    show Binary.sign s * ((rule s n * unitsPerOne : Nat) / unitsPerOne : ℚ) = _
    rw [Nat.cast_mul, mul_div_cancel_right₀ _ (ne_of_gt Format.cast_unitsPerOne_pos)]
  · rw [hs]
    rfl
  · cases x with
    | nan => cases hx
    | infinity s => rfl
    | finite s n hn => exact isNegative_ofUnits s _

end

/-! ## The rules -/

theorem toWhole_floor (s : Bool) : ToWhole fun n => if s then wholeAbove n else wholeBelow n :=
  toWhole_wholeAbove.ite toWhole_wholeBelow s

theorem toWhole_ceil (s : Bool) : ToWhole fun n => if s then wholeBelow n else wholeAbove n :=
  toWhole_wholeBelow.ite toWhole_wholeAbove s

theorem exactly_floor (x : Binary f) : x.Exactly (fun q => ⌊q⌋) id x.floor := by
  refine exactly_wholeBy toWhole_floor (fun s n => ?_) x
  cases s with
  | false =>
    simp only [sign_false_mul, Bool.false_eq_true, if_false, floor_units, Int.cast_natCast]
  | true =>
    simp only [sign_true_mul, if_true, Int.floor_neg, ceil_units, Int.cast_neg, Int.cast_natCast]

theorem exactly_ceil (x : Binary f) : x.Exactly (fun q => ⌈q⌉) id x.ceil := by
  refine exactly_wholeBy toWhole_ceil (fun s n => ?_) x
  cases s with
  | false =>
    simp only [sign_false_mul, Bool.false_eq_true, if_false, ceil_units, Int.cast_natCast]
  | true =>
    simp only [sign_true_mul, if_true, Int.ceil_neg, floor_units, Int.cast_neg, Int.cast_natCast]

theorem exactly_trunc (x : Binary f) : x.Exactly (fun q => towardZero q) id x.trunc := by
  refine exactly_wholeBy (fun _ => toWhole_wholeBelow) (fun s n => ?_) x
  rw [towardZero_units, cast_signed]

/-- A conversion to an integer within bounds drops the fraction and nothing else. -/
theorem toIntWithin_of_isFinite {x : Binary f} (hx : x.isFinite = true) (low high : Int) :
    x.toIntWithin low high = Max.max low (Min.min high (towardZero x.value)) := by
  obtain ⟨s, n, hn, rfl⟩ := exists_finite hx
  unfold value
  rw [towardZero_units]
  rfl

theorem exactly_roundEven (x : Binary f) : x.Exactly (fun q => nearestEven q) id x.roundEven := by
  refine exactly_wholeBy (fun _ => toWhole_roundDiv) (fun s n => ?_) x
  have hnonneg : (0 : ℚ) ≤ n / unitsPerOne := by positivity
  have hnear := @Format.nearestMultiple_roundDiv n unitsPerOne 1 Format.unitsPerOne_pos Nat.one_pos
  rw [Nat.mul_one, Nat.cast_one] at hnear
  have hsigned := (isNearestMultiple_sign_iff one_pos hnonneg s).mpr ⟨_, rfl, hnear⟩
  rw [(isNearestMultiple_nearestEven _).unique one_pos hsigned, cast_signed]

theorem exactly_abs (x : Binary f) : x.Exactly (fun q => |q|) (fun _ => false) x.abs := by
  refine ⟨fun hx => ⟨(isFinite_abs x).trans hx, value_abs x⟩, fun s hs => ?_, fun hx => ?_⟩
  · rw [hs]
    rfl
  · cases x <;> rfl

theorem exactly_neg (x : Binary f) : x.Exactly (fun q => -q) not x.neg := by
  refine ⟨fun hx => ⟨(isFinite_neg x).trans hx, value_neg x⟩, fun s hs => ?_, fun hx => ?_⟩
  · rw [hs]
    rfl
  · cases x with
    | nan => cases hx
    | infinity s => rfl
    | finite s n hn => rfl

/-! ## Laws -/

theorem narrow_abs (x : Binary f) : (x.convert .double).abs.convert f = x.abs := by
  cases x with
  | nan => rfl
  | infinity => rfl
  | finite s n hn => rw [convert_finite hn.widen, abs, convert_finite hn, abs]

theorem abs_abs (x : Binary f) : x.abs.abs = x.abs := by
  cases x <;> rfl

/-- Around a change of sign, a rule is the one for the other sign. -/
theorem neg_wholeBy (rule : Bool → Nat → Nat) (x : Binary f) :
    (x.neg.wholeBy rule).neg = x.wholeBy fun s => rule (!s) := by
  cases x with
  | nan => rfl
  | infinity s => exact congrArg infinity (Bool.not_not s)
  | finite s n hn =>
    show (round (!s) (rule (!s) n * unitsPerOne) 1).neg = round s (rule (!s) n * unitsPerOne) 1
    rw [neg_round, Bool.not_not]

/-- The floor of the opposite number is the opposite of the ceiling. -/
theorem neg_floor_neg (x : Binary f) : x.neg.floor.neg = x.ceil := by
  unfold floor ceil
  rw [neg_wholeBy]
  congr 1
  funext s n
  cases s <;> simp

/-- A number lies between its floor and its ceiling, and these are at most one apart. -/
structure Enclosed (low x high : Binary f) : Prop where
  finite : low.isFinite = true ∧ high.isFinite = true
  above : low.value ≤ x.value
  below : x.value ≤ high.value
  apart : high.value ≤ low.value + 1

theorem enclosed_floor_ceil {x : Binary f} (hx : x.isFinite = true) :
    Enclosed x.floor x x.ceil := by
  obtain ⟨hlow, hfloor⟩ := (exactly_floor x).finite hx
  obtain ⟨hhigh, hceil⟩ := (exactly_ceil x).finite hx
  refine ⟨⟨hlow, hhigh⟩, ?_, ?_, ?_⟩
  · rw [hfloor]
    exact Int.floor_le x.value
  · rw [hceil]
    exact Int.le_ceil x.value
  · rw [hfloor, hceil]
    exact_mod_cast Int.ceil_le_floor_add_one x.value

end Binary

end ColorAlgebra
