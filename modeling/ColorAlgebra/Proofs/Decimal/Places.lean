import ColorAlgebra.Proofs.Binary.Overflow
import ColorAlgebra.Proofs.Decimal.Value

/-!
# Rounding at a decimal place

To round a double at a decimal place is to take the multiple of a power of ten that is
nearest to its exact value, and then the double that is nearest to the multiple. Ties go to
the even multiple and to the even significand. The place may be on either side of the point.
-/

namespace ColorAlgebra

/-! ## Nearest multiples -/

/-- No integer multiple of `p` is nearer to `q` than `k * p`, and if another one is as near,
then `k` is even. -/
structure IsNearestMultiple (p q : ℚ) (k : Int) : Prop where
  least : ∀ j : Int, |q - k * p| ≤ |q - j * p|
  even : ∀ j : Int, j ≠ k → |q - k * p| = |q - j * p| → k % 2 = 0

section
variable {p q : ℚ} {k : Int} {n : Nat}

/-- Other multiples are at least a whole distance apart. -/
theorem le_add_abs_sub (hp : 0 < p) {j : Int} (hj : j ≠ k) : p ≤ |q - k * p| + |q - j * p| := by
  have hone : (1 : ℚ) ≤ |(j : ℚ) - k| := by
    exact_mod_cast Int.one_le_abs (sub_ne_zero.mpr hj)
  have hapart : |(j : ℚ) - k| * p ≤ |q - k * p| + |q - j * p| :=
    calc |(j : ℚ) - k| * p = |(q - k * p) - (q - j * p)| := by
          rw [← abs_of_pos hp, ← abs_mul, abs_of_pos hp]
          congr 1
          ring
      _ ≤ _ := abs_sub _ _
  nlinarith

/-- The neighbour on the side of the number. -/
theorem exists_neighbour (p q : ℚ) (k : Int) :
    ∃ j : Int, j ≠ k ∧ |q - j * p| = |p - (|q - k * p|)| := by
  rcases le_total 0 (q - k * p) with hside | hside
  · refine ⟨k + 1, by omega, ?_⟩
    rw [abs_of_nonneg hside, abs_sub_comm p]
    congr 1
    push_cast
    ring
  · refine ⟨k - 1, by omega, ?_⟩
    rw [abs_of_nonpos hside]
    congr 1
    push_cast
    ring

/-- A multiple is nearest if it is at most half a distance away, and even at half. -/
theorem isNearestMultiple_iff (hp : 0 < p) :
    IsNearestMultiple p q k ↔
      2 * |q - k * p| ≤ p ∧ (2 * |q - k * p| = p → k % 2 = 0) := by
  constructor
  · intro h
    obtain ⟨j, hj, hdist⟩ := exists_neighbour p q k
    have hleast := h.least j
    rw [hdist] at hleast
    have hhalf : 2 * |q - k * p| ≤ p := by
      rcases le_total |q - k * p| p with hle | hge
      · rw [abs_of_nonneg (sub_nonneg.mpr hle)] at hleast
        linarith
      · rw [abs_of_nonpos (sub_nonpos.mpr hge)] at hleast
        linarith
    refine ⟨hhalf, fun htie => h.even j hj ?_⟩
    have hrest : (0 : ℚ) ≤ p - |q - k * p| := by linarith
    rw [hdist, abs_of_nonneg hrest]
    linarith
  · rintro ⟨hhalf, htie⟩
    refine ⟨fun j => ?_, fun j hj heq => ?_⟩
    · by_cases hj : j = k
      · rw [hj]
      · have := @le_add_abs_sub p q k hp j hj
        linarith
    · have := @le_add_abs_sub p q k hp j hj
      exact htie (by linarith)

/-- A greater number does not have a lesser nearest multiple. -/
theorem IsNearestMultiple.mono {q' : ℚ} {k' : Int} (hp : 0 < p) (h : IsNearestMultiple p q k)
    (h' : IsNearestMultiple p q' k') (hq : q ≤ q') : k ≤ k' := by
  obtain ⟨hhalf, htie⟩ := (isNearestMultiple_iff hp).mp h
  obtain ⟨hhalf', htie'⟩ := (isNearestMultiple_iff hp).mp h'
  by_contra hlt
  have hcast : (k' : ℚ) + 1 ≤ k := by exact_mod_cast Int.add_one_le_of_lt (not_le.mp hlt)
  have hmul : (k' + 1 : ℚ) * p ≤ k * p := mul_le_mul_of_nonneg_right hcast (le_of_lt hp)
  have hbelow := neg_abs_le (q - k * p)
  have habove := le_abs_self (q' - k' * p)
  -- the numbers are the same, midway between two neighbours, and both of these are even
  have hk := htie (by linarith)
  have hk' := htie' (by linarith)
  have hsucc : (k : ℚ) * p = (k' + 1) * p := by linarith
  have : k = k' + 1 := by exact_mod_cast mul_right_cancel₀ (ne_of_gt hp) hsucc
  omega

theorem nearestMultiple_iff :
    NearestMultiple p q n ↔ 2 * |q - n * p| ≤ p ∧ (2 * |q - n * p| = p → n % 2 = 0) := by
  have habs : 2 * |q - n * p| = |2 * q - 2 * n * p| := by
    rw [← abs_two, ← abs_mul, abs_two]
    congr 1
    ring
  rw [habs, abs_le]
  constructor
  · rintro ⟨hlow, hhigh, htie⟩
    refine ⟨⟨by linarith, by linarith⟩, fun heq => htie ?_⟩
    rcases abs_choice (2 * q - 2 * n * p) with h | h
    · exact .inr (by linarith)
    · exact .inl (by linarith)
  · rintro ⟨⟨hlow, hhigh⟩, htie⟩
    refine ⟨by linarith, by linarith, fun heq => htie ?_⟩
    rcases heq with h | h
    · rw [abs_of_nonpos (by linarith)]
      linarith
    · rw [abs_of_nonneg (by linarith)]
      linarith

theorem NearestMultiple.least (hp : 0 < p) (h : NearestMultiple p q n) (j : Int) :
    |q - n * p| ≤ |q - j * p| := by
  have hnear : IsNearestMultiple p q n := (isNearestMultiple_iff hp).mpr (by
    obtain ⟨hhalf, htie⟩ := nearestMultiple_iff.mp h
    rw [Int.cast_natCast]
    exact ⟨hhalf, fun heq => by have := htie heq; omega⟩)
  exact_mod_cast hnear.least j

/-- A multiple is also nearest to a number that it is nearer to. -/
theorem NearestMultiple.of_closer {q' : ℚ} (h : NearestMultiple p q n)
    (hcloser : |q' - n * p| ≤ |q - n * p|) : NearestMultiple p q' n := by
  obtain ⟨hhalf, htie⟩ := nearestMultiple_iff.mp h
  exact nearestMultiple_iff.mpr ⟨by linarith, fun heq => htie (by linarith)⟩

/-- The sign of a number is that of its nearest multiple. -/
theorem isNearestMultiple_sign_iff (hp : 0 < p) (hq : 0 ≤ q) (s : Bool) :
    IsNearestMultiple p (Binary.sign s * q) k ↔
      ∃ n : Nat, k = signed s n ∧ NearestMultiple p q n := by
  have hmirror : ∀ j : Int, |Binary.sign s * q - (if s then -j else j : Int) * p| = |q - j * p| := by
    intro j
    cases s with
    | false => simp [Binary.sign]
    | true =>
      rw [← abs_neg]
      congr 1
      simp only [Binary.sign, if_true]
      push_cast
      ring
  rw [isNearestMultiple_iff hp]
  constructor
  · rintro ⟨hhalf, htie⟩
    obtain ⟨j, rfl⟩ : ∃ j : Int, k = if s then -j else j :=
      ⟨if s then -k else k, by cases s <;> simp⟩
    rw [hmirror] at hhalf htie
    -- a multiple of the other sign is more than half a distance away
    have hj : 0 ≤ j := by
      by_contra hneg
      have hcast : (j : ℚ) ≤ -1 := by exact_mod_cast Int.le_sub_one_of_lt (not_le.mp hneg)
      have hright := le_abs_self (q - j * p)
      nlinarith
    obtain ⟨n, rfl⟩ := Int.eq_ofNat_of_zero_le hj
    refine ⟨n, rfl, nearestMultiple_iff.mpr ⟨by exact_mod_cast hhalf, fun heq => ?_⟩⟩
    have := htie (by exact_mod_cast heq)
    cases s <;> simp at this <;> omega
  · rintro ⟨n, rfl, hn⟩
    obtain ⟨hhalf, htie⟩ := nearestMultiple_iff.mp hn
    have hdist := hmirror n
    rw [Int.cast_natCast] at hdist
    unfold signed
    rw [hdist]
    refine ⟨hhalf, fun heq => ?_⟩
    have := htie heq
    cases s <;> simp <;> omega

theorem NearestMultiple.scale {c : ℚ} (hc : 0 < c) (h : NearestMultiple p q n) :
    NearestMultiple (p * c) (q * c) n := by
  refine ⟨?_, ?_, fun htie => h.tie ?_⟩
  · have hlow := mul_le_mul_of_nonneg_right h.low (le_of_lt hc)
    linarith
  · have hhigh := mul_le_mul_of_nonneg_right h.high (le_of_lt hc)
    linarith
  · have hne := ne_of_gt hc
    rcases htie with heq | heq
    · exact .inl (mul_right_cancel₀ hne (by linarith))
    · exact .inr (mul_right_cancel₀ hne (by linarith))

end

/-! ## Rounding at a place -/

/-- The double that is nearest to the multiple of `10 ^ (-digits)` that is nearest to `x`. It
has the sign of `x`, which is that of the multiple unless the multiple is zero. -/
inductive RoundedAt (digits : Int) (x : Double) : Double → Prop
  | nearest {k : Int} {units : Nat} (h : Format.double.Representable units) :
      IsNearestMultiple (10 ^ (-digits)) x.value k →
      Format.double.IsNearest (|k * (10 : ℚ) ^ (-digits)| * unitsPerOne) units →
      RoundedAt digits x (.finite x.isNegative units h)

/-- How many times the power of ten goes into a magnitude, rounded. -/
def multipleAt (digits : Int) (units : Nat) : Nat :=
  Format.roundDiv (units * 10 ^ digits.toNat) (unitsPerOne * 10 ^ (-digits).toNat)

theorem nearestMultiple_multipleAt (digits : Int) (units : Nat) :
    NearestMultiple (10 ^ (-digits)) (units / unitsPerOne) (multipleAt digits units) := by
  have hden : 0 < unitsPerOne * 10 ^ (-digits).toNat :=
    Nat.mul_pos Format.unitsPerOne_pos (Nat.pow_pos (by decide))
  have hpow : (10 : ℚ) ^ (-digits) = 10 ^ (-digits).toNat / 10 ^ digits.toNat := by
    rw [← zpow_natCast, ← zpow_natCast, ← zpow_sub₀ (by norm_num)]
    congr 1
    omega
  have hscaled := (@Format.nearestMultiple_roundDiv (units * 10 ^ digits.toNat) _ 1 hden
    Nat.one_pos).scale (show (0 : ℚ) < 10 ^ (-digits) by positivity)
  have hexact : ((units * 10 ^ digits.toNat : Nat) / (unitsPerOne * 10 ^ (-digits).toNat : Nat) : ℚ) *
      10 ^ (-digits) = units / unitsPerOne := by
    have hU := ne_of_gt Format.cast_unitsPerOne_pos
    rw [hpow]
    push_cast
    field_simp
  rw [hexact, Nat.cast_one, one_mul, Nat.mul_one] at hscaled
  exact hscaled

/-- Reading a decimal rounds its value. -/
theorem Decimal.isRounding_toBinary {f : Format} (s : Bool) (d : Decimal) :
    (d.toBinary f s : Binary f).IsRounding (Binary.sign s * d.value) := by
  have hround := @Binary.isRounding_round f s d.unitsNum d.unitsDen d.unitsDen_pos
  rwa [unitsNum_div_unitsDen, mul_div_cancel_right₀ _ (ne_of_gt Format.cast_unitsPerOne_pos),
    ← toBinary_eq_round] at hround

namespace Binary

variable {f : Format}

/-- Rounds at a decimal place on either side of the point: the multiple of the power of ten
is found on the exact value, and what it is worth is rounded once. -/
def roundAt (digits : Int) : Binary f → Binary f
  | nan => nan
  | infinity negative => infinity negative
  | finite negative units _ =>
    (Decimal.mk (multipleAt digits units) (-digits)).toBinary f negative

theorem roundAt_of_nonneg {digits : Int} (h : 0 ≤ digits) (x : Binary f) :
    x.roundAt digits = x.roundPlaces digits.toNat := by
  have hzero : (-digits).toNat = 0 := by omega
  have hself : -digits = -(digits.toNat : Int) := by omega
  cases x with
  | nan => rfl
  | infinity => rfl
  | finite s n hn =>
    unfold roundAt roundPlaces multipleAt
    dsimp only
    rw [hzero, Nat.pow_zero, Nat.mul_one, ← hself]

/-- A nearest multiple is found, and its number is rounded once. -/
theorem isRounding_roundAt (digits : Int) {x : Binary f} (hx : x.isFinite = true) :
    ∃ k : Int, IsNearestMultiple (10 ^ (-digits)) x.value k ∧
      (x.roundAt digits).IsRounding (k * 10 ^ (-digits)) := by
  obtain ⟨s, n, hn, rfl⟩ := exists_finite hx
  have hp : (0 : ℚ) < 10 ^ (-digits) := by positivity
  have hq : (0 : ℚ) ≤ n / unitsPerOne := by positivity
  have hround := @Decimal.isRounding_toBinary f s (.mk (multipleAt digits n) (-digits))
  refine ⟨signed s (multipleAt digits n), (isNearestMultiple_sign_iff hp hq s).mpr
    ⟨_, rfl, nearestMultiple_multipleAt digits n⟩, ?_⟩
  rw [cast_signed, mul_assoc]
  exact hround

end Binary

variable {digits : Int} {x y : Double}

theorem abs_signed_mul (s : Bool) (n : Nat) {p : ℚ} (hp : 0 ≤ p) :
    |(signed s n : ℚ) * p| = n * p := by
  have hnonneg : (0 : ℚ) ≤ n * p := by positivity
  rw [Binary.cast_signed, mul_assoc, Binary.abs_sign_mul, abs_of_nonneg hnonneg]

/-- What is rounded at a place is nearest to the multiple that the computation finds. -/
theorem roundedAt_finite_iff {s : Bool} {n : Nat} {hn : Format.double.Representable n} :
    RoundedAt digits (.finite s n hn) y ↔
      ∃ (units : Nat) (h : Format.double.Representable units),
        Format.double.IsNearest (multipleAt digits n * (10 : ℚ) ^ (-digits) * unitsPerOne) units ∧
          y = .finite s units h := by
  have hp : (0 : ℚ) < 10 ^ (-digits) := by positivity
  have hq : (0 : ℚ) ≤ n / unitsPerOne := by positivity
  have hnear := nearestMultiple_multipleAt digits n
  constructor
  · rintro ⟨h, hk, hunits⟩
    obtain ⟨m, rfl, hm⟩ := (isNearestMultiple_sign_iff hp hq s).mp hk
    rw [abs_signed_mul s m (le_of_lt hp), hm.unique hp hnear] at hunits
    exact ⟨_, h, hunits, rfl⟩
  · rintro ⟨units, h, hunits, rfl⟩
    rw [← abs_signed_mul s _ (le_of_lt hp)] at hunits
    exact .nearest h ((isNearestMultiple_sign_iff hp hq s).mpr ⟨_, rfl, hnear⟩) hunits

/-- The computation gives the rounded double, or nothing finite. -/
theorem roundedAt_iff (hx : x.isFinite = true) :
    RoundedAt digits x y ↔ y = x.roundAt digits ∧ y.isFinite = true := by
  obtain ⟨s, n, hn, rfl⟩ := Binary.exists_finite hx
  have hiff : ∀ units, Format.double.IsNearest
      (multipleAt digits n * (10 : ℚ) ^ (-digits) * unitsPerOne) units ↔
      Format.double.nearest (Decimal.mk (multipleAt digits n) (-digits)).unitsNum
        (Decimal.mk (multipleAt digits n) (-digits)).unitsDen = units := by
    intro units
    rw [Format.nearest_eq_iff (Decimal.unitsDen_pos _), Decimal.unitsNum_div_unitsDen]
    rfl
  rw [roundedAt_finite_iff]
  dsimp only [Binary.roundAt]
  rw [Decimal.toBinary_eq_round]
  constructor
  · rintro ⟨units, h, hunits, rfl⟩
    exact ⟨(Binary.round_of_nearest h ((hiff units).mp hunits)).symm, rfl⟩
  · rintro ⟨hy, hfinite⟩
    rw [hy] at hfinite ⊢
    have h := Format.representable_nearest ((Binary.isFinite_round_iff s).mp hfinite)
    exact ⟨_, h, (hiff _).mpr rfl, Binary.round_of_nearest h rfl⟩

/-- Half of the power of ten does not reach from a finite double to the start of overflow. -/
theorem isFinite_roundAt (hx : x.isFinite = true) (hp : (10 : ℚ) ^ (-digits) ≤ 2 ^ 970) :
    (x.roundAt digits).isFinite = true := by
  obtain ⟨s, n, hn, rfl⟩ := Binary.exists_finite hx
  have hU := Format.cast_unitsPerOne_pos
  have hpU : (10 : ℚ) ^ (-digits) * unitsPerOne <
      (2 ^ Format.double.step Format.double.greatest : Nat) := by
    have hunits : (unitsPerOne : ℚ) = 2 ^ unitExponent := by
      rw [unitsPerOne_eq, Nat.cast_pow, Nat.cast_ofNat]
    rw [Format.step_greatest, Nat.cast_pow, Nat.cast_ofNat]
    refine lt_of_le_of_lt (mul_le_mul_of_nonneg_right hp (le_of_lt hU)) ?_
    rw [hunits, ← pow_add]
    exact pow_lt_pow_right₀ (by norm_num) (by decide)
  have hgreatest : (n : ℚ) ≤ Format.double.greatest := by
    exact_mod_cast (Format.OnGrid.lt_top_iff hn.onGrid).mp hn.1
  have hlow := (nearestMultiple_multipleAt digits n).low
  have hlimit := Format.double.limit_units
  have hmagnitude : (n / unitsPerOne : ℚ) * unitsPerOne = n := div_mul_cancel₀ _ (ne_of_gt hU)
  dsimp only [Binary.roundAt]
  rw [Decimal.toBinary_eq_round, Binary.isFinite_round_iff,
    Format.nearest_lt_top_iff (Decimal.unitsDen_pos _), Decimal.unitsNum_div_unitsDen,
    mul_div_cancel_right₀ _ (ne_of_gt hU)]
  show (multipleAt digits n : ℚ) * 10 ^ (-digits) < Format.double.limit
  have hunits := mul_le_mul_of_nonneg_right hlow (le_of_lt hU)
  refine lt_of_mul_lt_mul_right ?_ (le_of_lt hU)
  linarith

/-- A count on the grid is nearest to what is less than half a unit away. -/
theorem Format.isNearest_of_close {f : Format} {q : ℚ} {n : Nat} (hn : f.OnGrid n)
    (h : 2 * |q - n| < 1) : f.IsNearest q n := by
  have hapart : ∀ m : Nat, m ≠ n → 1 ≤ |q - n| + |q - m| := by
    intro m hm
    have := @le_add_abs_sub 1 q n one_pos m (by exact_mod_cast hm)
    simpa using this
  refine ⟨hn, fun m _ => ?_, fun m _ hm heq => ?_⟩
  · by_cases hm : m = n
    · rw [hm]
    · have := hapart m hm
      linarith
  · have := hapart m hm
    linarith

/-- If the power of ten is less than a unit, then a double is its own rounding. -/
theorem roundedAt_self (hx : x.isFinite = true) (hp : (10 : ℚ) ^ (-digits) * unitsPerOne < 1) :
    RoundedAt digits x x := by
  obtain ⟨s, n, hn, rfl⟩ := Binary.exists_finite hx
  have hU := Format.cast_unitsPerOne_pos
  obtain ⟨hhalf, -⟩ := nearestMultiple_iff.mp (nearestMultiple_multipleAt digits n)
  refine roundedAt_finite_iff.mpr ⟨n, hn, Format.isNearest_of_close hn.onGrid ?_, rfl⟩
  have hmagnitude : (n / unitsPerOne : ℚ) * unitsPerOne = n := div_mul_cancel₀ _ (ne_of_gt hU)
  have hunits := mul_le_mul_of_nonneg_right hhalf (le_of_lt hU)
  rw [mul_assoc, ← abs_of_pos hU, ← abs_mul, abs_of_pos hU, sub_mul, hmagnitude,
    abs_sub_comm] at hunits
  exact lt_of_le_of_lt hunits hp

/-- What is rounded is its own rounding. It lies as near to the multiple as the number that was
rounded, or nearer, so that no other multiple is found for it. -/
theorem RoundedAt.again (hx : x.isFinite = true) (h : RoundedAt digits x y) :
    RoundedAt digits y y := by
  obtain ⟨s, n, hn, rfl⟩ := Binary.exists_finite hx
  obtain ⟨units, hunits, hnearest, rfl⟩ := roundedAt_finite_iff.mp h
  have hp : (0 : ℚ) < 10 ^ (-digits) := by positivity
  have hU := Format.cast_unitsPerOne_pos
  have hmultiple := nearestMultiple_multipleAt digits n
  have hsame : multipleAt digits units = multipleAt digits n := by
    refine (nearestMultiple_multipleAt digits units).unique hp (hmultiple.of_closer ?_)
    have hscale : ∀ m : Nat, |(m / unitsPerOne : ℚ) - multipleAt digits n * 10 ^ (-digits)| =
        |multipleAt digits n * (10 : ℚ) ^ (-digits) * unitsPerOne - m| / unitsPerOne := by
      intro m
      rw [abs_sub_comm, eq_div_iff (ne_of_gt hU), ← abs_of_pos hU, ← abs_mul, abs_of_pos hU,
        sub_mul, div_mul_cancel₀ _ (ne_of_gt hU)]
    rw [hscale, hscale, div_le_div_iff_of_pos_right hU]
    exact hnearest.least n hn.onGrid
  refine roundedAt_finite_iff.mpr ⟨units, hunits, ?_, rfl⟩
  rwa [hsame]

/-- If half of the power of ten is more than a double, then the double is rounded to a zero. -/
theorem roundedAt_zero {s : Bool} {n : Nat} {hn : Format.double.Representable n}
    (hp : 2 * (n : ℚ) < 10 ^ (-digits) * unitsPerOne) :
    RoundedAt digits (.finite s n hn) (Binary.signedZero s) := by
  have hU := Format.cast_unitsPerOne_pos
  have hzero : NearestMultiple (10 ^ (-digits)) (n / unitsPerOne) 0 := by
    have hnonneg : (0 : ℚ) ≤ n / unitsPerOne := by positivity
    have hsmall : 2 * (n / unitsPerOne : ℚ) < 10 ^ (-digits) := by
      rw [← mul_div_assoc, div_lt_iff₀ hU]
      exact hp
    have hpos : (0 : ℚ) < 10 ^ (-digits) := by positivity
    refine .of_lt ?_ ?_ <;> push_cast <;> linarith
  have hmultiple := (nearestMultiple_multipleAt digits n).unique (by positivity) hzero
  refine roundedAt_finite_iff.mpr ⟨0, Format.double.representable_zero, ?_, rfl⟩
  rw [hmultiple, Nat.cast_zero, zero_mul, zero_mul]
  exact Format.isNearest_of_close Format.double.representable_zero.onGrid (by simp)

end ColorAlgebra
