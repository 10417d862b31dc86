import ColorAlgebra.Proofs.Decimal.Places

/-!
# Deciding on a rounded quotient

The multiple of a number that is nearest to a double can be looked for on the quotient of the
two. The quotient is rounded to a double first, and the whole number nearest to what comes out
need not be the one nearest to the exact quotient. Up to `2 ^ 53` it is, unless the quotient
is rounded to a half-integer without being one: the tie is then decided for the even
neighbour, which may be the wrong one. Above `2 ^ 53` the rounded quotient is whole, but the
multiple it stands for need not be the double itself, to which the nearest one is rounded.

* `FalseTie`: a quotient that is rounded to a half-integer and decided the wrong way.
* `Follows`: a rounded number that has passed no half-integer.

Results:
1. `Follows.eq_of_not_falseTie`: the whole numbers are the same unless the tie is false.
2. `nearest_foundMultiple_eq_iff`: what the two multiples are rounded to is the same just then.
3. `not_falseTie`: there is no false tie for small magnitudes.
4. `nearest_exactMultiple_of_le`: for large ones the nearest multiple is rounded to the double.
-/

namespace ColorAlgebra.Scalar

open Format

/-! ## False ties -/

section
variable {a b : ℚ} {m k : Nat}

/-- The number `b` that the quotient `a` was rounded to lies midway between an even and an odd
whole number, but the quotient itself is nearer to the odd one. -/
def FalseTie (a b : ℚ) : Prop :=
  ∃ even odd : Int, even % 2 = 0 ∧ (odd = even + 1 ∨ odd = even - 1) ∧ 2 * b = even + odd ∧
    |a - odd| < |a - even|

/-- A false tie is decided for the even neighbour, which is not the nearest. -/
theorem FalseTie.ne (h : FalseTie a b) (hm : NearestMultiple 1 a m) (hk : NearestMultiple 1 b k) :
    k ≠ m := by
  obtain ⟨even, odd, heven, hnext, hmiddle, hnearer⟩ := h
  obtain ⟨hlow, hhigh, htie⟩ := hk
  rw [hmiddle, mul_one] at hlow hhigh htie
  rw [mul_one] at htie
  have hlow : 2 * (k : Int) - 1 ≤ even + odd := by exact_mod_cast hlow
  have hhigh : even + odd ≤ 2 * (k : Int) + 1 := by exact_mod_cast hhigh
  have hsides : even + odd = 2 * (k : Int) - 1 ∨ even + odd = 2 * (k : Int) + 1 := by omega
  have hparity := htie (by exact_mod_cast hsides)
  have hk : (k : Int) = even := by omega
  rintro rfl
  have hleast := hm.least one_pos odd
  rw [mul_one, mul_one, ← Int.cast_natCast, hk] at hleast
  linarith

theorem FalseTie.neg (h : FalseTie a b) : FalseTie (-a) (-b) := by
  obtain ⟨even, odd, heven, hnext, hmiddle, hnearer⟩ := h
  have hmirror : ∀ k : Int, |-a - (-k : Int)| = |a - k| := by
    intro k
    rw [← abs_neg]
    congr 1
    push_cast
    ring
  refine ⟨-even, -odd, by omega, by omega, by push_cast; linarith, ?_⟩
  rwa [hmirror, hmirror]

theorem falseTie_sign_iff (s : Bool) :
    FalseTie (Binary.sign s * a) (Binary.sign s * b) ↔ FalseTie a b := by
  cases s with
  | false => simp [Binary.sign]
  | true =>
    refine ⟨fun h => ?_, fun h => ?_⟩
    · simpa [Binary.sign] using h.neg
    · simpa [Binary.sign] using h.neg

/-- A whole number is no tie. -/
theorem not_falseTie_whole (a : ℚ) (k : Nat) : ¬FalseTie a k := by
  rintro ⟨even, odd, -, hnext, hmiddle, -⟩
  have hmiddle : 2 * (k : Int) = even + odd := by exact_mod_cast hmiddle
  omega

/-- Rounding `a` to `b` has passed no half-integer up to `2 ^ 52`. -/
structure Follows (a b : ℚ) : Prop where
  above : ∀ j : Nat, j ≤ 2 ^ 53 → (j : ℚ) ≤ 2 * a → (j : ℚ) ≤ 2 * b
  below : ∀ j : Nat, j ≤ 2 ^ 53 → 2 * a ≤ j → 2 * b ≤ j

namespace Follows

/-- The rounded number is on the same side of each half-integer as the number itself. -/
theorem lt_of_lt (h : Follows a b) {j : Nat} (hj : j ≤ 2 ^ 53) (hlt : (j : ℚ) < 2 * b) :
    (j : ℚ) < 2 * a :=
  lt_of_not_ge fun hle => absurd (h.below j hj hle) (not_le.mpr hlt)

theorem gt_of_gt (h : Follows a b) {j : Nat} (hj : j ≤ 2 ^ 53) (hlt : 2 * b < (j : ℚ)) :
    2 * a < j :=
  lt_of_not_ge fun hle => absurd (h.above j hj hle) (not_le.mpr hlt)

theorem le_two_pow (h : Follows a b) (ha : a < 2 ^ 52) (hk : NearestMultiple 1 b k) :
    k ≤ 2 ^ 52 := by
  have hb := h.below (2 ^ 53) (Nat.le_refl _) (by push_cast; linarith)
  have hlow := hk.low
  push_cast at hb
  have hle : (2 * k : ℚ) ≤ (2 * 2 ^ 52 + 1 : Nat) := by push_cast; linarith
  have hle : 2 * k ≤ 2 * 2 ^ 52 + 1 := by exact_mod_cast hle
  omega

/-- A whole number that is midway below the rounded number is nearest, unless the tie is false. -/
theorem nearest_of_middle_above (h : Follows a b) (ha : a < 2 ^ 52) (hk : k ≤ 2 ^ 52)
    (hmiddle : 2 * b = 2 * k + 1) (heven : k % 2 = 0) (htie : ¬FalseTie a b) :
    NearestMultiple 1 a k := by
  have hk52 : 2 * k ≤ 2 ^ 53 := by omega
  have hlow : (2 * k : Nat) < 2 * a := h.lt_of_lt hk52 (by push_cast; linarith)
  push_cast at hlow
  refine ⟨by linarith, ?_, fun _ => heven⟩
  by_contra hhigh
  have hfar : (2 * k + 1 : ℚ) < 2 * a := by linarith
  have hnext : a < k + 1 := by
    rcases Nat.lt_or_ge (2 * k + 1) (2 ^ 53) with hlt | hge
    · have := h.gt_of_gt (j := 2 * k + 2) (by omega) (by push_cast; linarith)
      push_cast at this
      linarith
    · have hk : k = 2 ^ 52 := by omega
      rw [hk]
      push_cast
      linarith
  refine htie ⟨k, k + 1, by omega, .inl rfl, by push_cast; linarith, ?_⟩
  push_cast
  rw [abs_of_nonpos (by linarith), abs_of_nonneg (by linarith)]
  linarith

/-- A whole number that is midway above the rounded number is nearest, unless the tie is false. -/
theorem nearest_of_middle_below (h : Follows a b) (hk : k ≤ 2 ^ 52)
    (hmiddle : 2 * b = 2 * k - 1) (heven : k % 2 = 0) (h0 : 0 < k) (htie : ¬FalseTie a b) :
    NearestMultiple 1 a k := by
  have hhigh : 2 * a < (2 * k : Nat) := h.gt_of_gt (by omega) (by push_cast; linarith)
  push_cast at hhigh
  refine ⟨?_, by linarith, fun _ => heven⟩
  by_contra hlow
  have hfar : 2 * a < (2 * k - 1 : ℚ) := by linarith
  have hnext : ((2 * (k - 1) : Nat) : ℚ) < 2 * a :=
    h.lt_of_lt (by omega) (by push_cast [Nat.cast_sub h0]; linarith)
  push_cast [Nat.cast_sub h0] at hnext
  refine htie ⟨k, k - 1, by omega, .inr rfl, by push_cast; linarith, ?_⟩
  push_cast
  rw [abs_of_nonneg (by linarith), abs_of_nonpos (by linarith)]
  linarith

/-- The nearest whole numbers are the same if the tie is not a false one. -/
theorem eq_of_not_falseTie (h : Follows a b) (h0 : 0 ≤ a) (ha : a < 2 ^ 52)
    (hm : NearestMultiple 1 a m) (hk : NearestMultiple 1 b k) (htie : ¬FalseTie a b) : k = m := by
  have hk52 := h.le_two_pow ha hk
  refine NearestMultiple.unique one_pos ?_ hm
  have hlow := hk.low
  have hhigh := hk.high
  have heven := hk.tie
  rw [mul_one] at hlow hhigh
  rw [mul_one, mul_one] at heven
  rcases eq_or_lt_of_le hlow with hbelow | hlow
  · have hb0 := h.above 0 (Nat.zero_le _) (by push_cast; linarith)
    have hk0 : 0 < k := by
      rcases Nat.eq_zero_or_pos k with hzero | hpos
      · rw [hzero] at hbelow
        push_cast at hbelow hb0
        linarith
      · exact hpos
    exact h.nearest_of_middle_below hk52 hbelow.symm (heven (.inl hbelow.symm)) hk0 htie
  rcases eq_or_lt_of_le hhigh with habove | hhigh
  · exact h.nearest_of_middle_above ha hk52 habove (heven (.inr habove)) htie
  -- strictly between two half-integers
  refine .of_lt ?_ ?_ <;> rw [mul_one]
  · rcases Nat.eq_zero_or_pos k with hzero | hpos
    · rw [hzero]
      push_cast
      linarith
    · have := h.lt_of_lt (j := 2 * k - 1) (by omega)
        (by rw [Nat.cast_sub (by omega)]; push_cast; linarith)
      rw [Nat.cast_sub (by omega)] at this
      push_cast at this
      linarith
  · rcases Nat.lt_or_ge (2 * k) (2 ^ 53) with hlt | hge
    · have := h.gt_of_gt (j := 2 * k + 1) (by omega) (by push_cast; linarith)
      push_cast at this
      linarith
    · have hk : k = 2 ^ 52 := by omega
      rw [hk]
      push_cast
      linarith

end Follows

end

/-! ## Quotients of doubles -/

section
variable {n p : Nat}

/-- The nearest multiple of `p` to a magnitude, found exactly. -/
def exactMultiple (p n : Nat) : Nat := roundDiv n (p * unitsPerOne)

/-- The quotient by `p` of a magnitude, to the nearest double. -/
def roundedQuotient (p n : Nat) : Nat := double.nearest n p

/-- The multiple of `p` that is found on the rounded quotient. -/
def foundMultiple (p n : Nat) : Nat := roundDiv (roundedQuotient p n) unitsPerOne

theorem nearestMultiple_exactMultiple (hp : 0 < p) :
    NearestMultiple 1 (n / p / unitsPerOne) (exactMultiple p n) := by
  have h := @nearestMultiple_roundDiv n (p * unitsPerOne) 1 (Nat.mul_pos hp unitsPerOne_pos) Nat.one_pos
  rw [Nat.mul_one, Nat.cast_one, Nat.cast_mul, ← div_div] at h
  exact h

theorem nearestMultiple_foundMultiple :
    NearestMultiple 1 (roundedQuotient p n / unitsPerOne) (foundMultiple p n) := by
  have h := @nearestMultiple_roundDiv (roundedQuotient p n) unitsPerOne 1 unitsPerOne_pos Nat.one_pos
  rwa [Nat.mul_one, Nat.cast_one] at h

/-- The number one half, in units. -/
def unitsPerHalf : Nat := 2 ^ (unitExponent - 1)

theorem two_mul_unitsPerHalf : 2 * unitsPerHalf = unitsPerOne := by
  have hpos : 0 < unitExponent := by decide +kernel
  rw [unitsPerOne_eq, unitsPerHalf, ← Nat.pow_succ', Nat.succ_eq_add_one,
    Nat.sub_add_cancel hpos]

theorem unitsPerHalf_pos : 0 < unitsPerHalf := Nat.two_pow_pos _

theorem onGrid_mul_unitsPerHalf {j : Nat} (hj : j ≤ 2 ^ 53) : double.OnGrid (j * unitsPerHalf) :=
  onGrid_mul_two_pow hj (Nat.zero_le _)

theorem two_mul_div_unitsPerOne (q : ℚ) : 2 * (q / unitsPerOne) = q / unitsPerHalf := by
  have hhalf : (unitsPerHalf : ℚ) ≠ 0 := by exact_mod_cast Nat.ne_of_gt unitsPerHalf_pos
  rw [← two_mul_unitsPerHalf, Nat.cast_mul, Nat.cast_ofNat]
  field_simp

/-- Half-integers up to `2 ^ 52` are doubles, so that no rounding passes one. -/
theorem follows_roundedQuotient (hp : 0 < p) :
    Follows (n / p / unitsPerOne) (roundedQuotient p n / unitsPerOne) := by
  have hhalf : (0 : ℚ) < unitsPerHalf := by exact_mod_cast unitsPerHalf_pos
  refine ⟨fun j hj hle => ?_, fun j hj hle => ?_⟩
  · rw [two_mul_div_unitsPerOne, le_div_iff₀ hhalf] at hle ⊢
    exact_mod_cast le_nearest hp (onGrid_mul_unitsPerHalf hj) (by rwa [Nat.cast_mul])
  · rw [two_mul_div_unitsPerOne, div_le_iff₀ hhalf] at hle ⊢
    exact_mod_cast nearest_le hp (onGrid_mul_unitsPerHalf hj) (by rwa [Nat.cast_mul])

/-! ## Different multiples -/

/-- Multiples of the same large number are rounded to different doubles. -/
theorem nearest_mul_lt {a b c : Nat} (hlt : a < b) (hb : b ≤ 2 ^ 52) (hc : 2 ^ 53 < c) :
    double.nearest (a * c) 1 < double.nearest (b * c) 1 := by
  have hlow := abs_le.mp (@nearest_error double (a * c) 1 Nat.one_pos)
  have hhigh := abs_le.mp (@nearest_error double (b * c) 1 Nat.one_pos)
  have hsum : ((a * c : Nat) : ℚ) + (b * c : Nat) ≤ (2 ^ 53 - 1 : Nat) * c := by
    rw [← Nat.cast_add, ← Nat.add_mul]
    exact_mod_cast Nat.mul_le_mul_right c (by omega)
  have hapart : ((a * c : Nat) : ℚ) + c ≤ (b * c : Nat) := by
    rw [← Nat.cast_add, ← Nat.succ_mul]
    exact_mod_cast Nat.mul_le_mul_right c hlt
  have hc : (2 : ℚ) ^ 53 < c := by exact_mod_cast hc
  have hquantum : (2 : ℚ) ^ double.quantum / 2 = 1 / 2 := by norm_num [quantum]
  have hprecision : (2 : ℚ) ^ double.precision = 2 ^ 53 := rfl
  rw [hquantum, hprecision, Nat.cast_one, div_one] at hlow hhigh
  have hfull : ((2 ^ 53 - 1 : Nat) : ℚ) = 2 ^ 53 - 1 := by norm_num
  rw [hfull] at hsum
  have hlt : (double.nearest (a * c) 1 : ℚ) < double.nearest (b * c) 1 := by linarith
  exact_mod_cast hlt

/-- From `2 ^ 52` up to `2 ^ 53`, the doubles are the whole numbers. -/
theorem step_div_eq (hp : 0 < p) (hlow : 2 ^ 52 * (p * unitsPerOne) ≤ n)
    (hhigh : n < 2 ^ 53 * (p * unitsPerOne)) : double.step (n / p) = unitExponent := by
  have hsize : ∀ k, 2 ^ (k + unitExponent) * p = 2 ^ k * (p * unitsPerOne) := by
    intro k
    rw [← two_pow_mul_unitsPerOne, Nat.mul_assoc, Nat.mul_comm unitsPerOne]
  refine step_quotient hp (Nat.zero_le _) ?_ ?_
  · rwa [show double.precision - 1 = 52 from rfl, hsize]
  · rwa [show double.precision = 53 from rfl, hsize]

/-- There, rounding the quotient finds the nearest multiple. -/
theorem roundedQuotient_eq_of_whole (hp : 0 < p) (hlow : 2 ^ 52 * (p * unitsPerOne) ≤ n)
    (hhigh : n < 2 ^ 53 * (p * unitsPerOne)) :
    roundedQuotient p n = exactMultiple p n * unitsPerOne := by
  have hU := cast_unitsPerOne_pos
  obtain ⟨k, hk, -, hnear⟩ := double.nearest_eq_mul n hp
  rw [step_div_eq hp hlow hhigh, ← unitsPerOne_eq] at hk hnear
  have hscaled := (@nearestMultiple_exactMultiple n p hp).scale hU
  rw [one_mul, div_mul_cancel₀ _ (ne_of_gt hU)] at hscaled
  rw [← hnear.unique hU hscaled]
  exact hk

theorem two_pow_lt_mul_unitsPerOne (hp : 0 < p) : 2 ^ 53 < p * unitsPerOne := by
  have hU : 2 ^ 53 < unitsPerOne := by decide +kernel
  exact Nat.lt_of_lt_of_le hU (Nat.le_mul_of_pos_left _ hp)

/-- Below `2 ^ 53` times the number, the same double is found unless the tie is false. -/
theorem nearest_foundMultiple_eq_iff (hp : 0 < p) (hn : n < 2 ^ 53 * (p * unitsPerOne)) :
    double.nearest (foundMultiple p n * (p * unitsPerOne)) 1 =
        double.nearest (exactMultiple p n * (p * unitsPerOne)) 1 ↔
      ¬FalseTie (n / p / unitsPerOne) (roundedQuotient p n / unitsPerOne) := by
  have hU := cast_unitsPerOne_pos
  have hp0 : (0 : ℚ) < p := by exact_mod_cast hp
  have hm := @nearestMultiple_exactMultiple n p hp
  have hk := @nearestMultiple_foundMultiple n p
  rcases Nat.lt_or_ge n (2 ^ 52 * (p * unitsPerOne)) with hlt | hge
  · have ha : (n / p / unitsPerOne : ℚ) < 2 ^ 52 := by
      rw [div_div, div_lt_iff₀ (mul_pos hp0 hU)]
      exact_mod_cast hlt
    have hfollows := @follows_roundedQuotient n p hp
    constructor
    · intro heq hfalse
      have hm52 : exactMultiple p n ≤ 2 ^ 52 := by
        refine hm.mono one_pos (.of_eq one_pos ?_) (le_of_lt ha)
        norm_num
      have hk52 := hfollows.le_two_pow ha hk
      have hlarge := two_pow_lt_mul_unitsPerOne hp
      rcases Nat.lt_or_gt_of_ne (hfalse.ne hm hk) with hne | hne
      · exact absurd heq (Nat.ne_of_lt (nearest_mul_lt hne hm52 hlarge))
      · exact absurd heq (Nat.ne_of_gt (nearest_mul_lt hne hk52 hlarge))
    · intro htie
      rw [hfollows.eq_of_not_falseTie (by positivity) ha hm hk htie]
  · have hwhole := roundedQuotient_eq_of_whole hp hge hn
    have hsame : foundMultiple p n = exactMultiple p n := by
      unfold foundMultiple
      rw [hwhole, roundDiv_mul unitsPerOne_pos]
    refine iff_of_true (by rw [hsame]) ?_
    rw [hwhole, Nat.cast_mul, mul_div_cancel_right₀ _ (ne_of_gt hU)]
    exact not_falseTie_whole _ _

/-! ## Small magnitudes -/

/-- A quotient that lies on what it is rounded to is no false tie. -/
theorem FalseTie.ne_self {a b : ℚ} (h : FalseTie a b) : a ≠ b := by
  rintro rfl
  obtain ⟨even, odd, -, -, hmiddle, hnearer⟩ := h
  have hsame : a - odd = -(a - even) := by linarith
  rw [hsame, abs_neg] at hnearer
  exact lt_irrefl _ hnearer

/-- A false tie is a count of halves. -/
theorem FalseTie.exists_halves {a : ℚ} {w : Nat} (h : FalseTie a (w / unitsPerOne)) :
    ∃ j, 0 < j ∧ w = j * unitsPerHalf := by
  have hhalf : (0 : ℚ) < unitsPerHalf := by exact_mod_cast unitsPerHalf_pos
  obtain ⟨even, odd, -, hnext, hmiddle, -⟩ := h
  rw [two_mul_div_unitsPerOne, div_eq_iff (ne_of_gt hhalf)] at hmiddle
  have hw : (w : Int) = (even + odd) * unitsPerHalf := by exact_mod_cast hmiddle
  have hnonneg : 0 ≤ even + odd :=
    nonneg_of_mul_nonneg_left (hw ▸ Int.natCast_nonneg w) (by exact_mod_cast unitsPerHalf_pos)
  obtain ⟨j, hj⟩ := Int.eq_ofNat_of_zero_le hnonneg
  rw [hj] at hw
  exact ⟨j, by omega, by exact_mod_cast hw⟩

/-- At a large quotient, doubles are further than a unit apart. -/
theorem step_div_pos (hp : 0 < p) (h : 2 ^ 53 < roundedQuotient p n) : 0 < double.step (n / p) := by
  by_contra hzero
  have hlt := double.lt_two_pow_step (n / p)
  rw [Nat.eq_zero_of_not_pos hzero] at hlt
  have hlt : n < 2 ^ 53 * p := (Nat.div_lt_iff_lt_mul hp).mp hlt
  have hle : (n / p : ℚ) ≤ (2 ^ 53 : Nat) := by
    rw [div_le_iff₀ (by exact_mod_cast hp : (0 : ℚ) < p)]
    exact_mod_cast Nat.le_of_lt hlt
  exact absurd h (Nat.not_lt.mpr (nearest_le hp (onGrid_two_pow (Nat.zero_le _)) hle))

/-- The spacing at the quotient is worth less than two spacings at the magnitude. -/
theorem mul_two_pow_step_div_lt (hp : 0 < p) (h : 0 < double.step (n / p)) :
    p * 2 ^ double.step (n / p) < 2 * 2 ^ double.step n := by
  obtain ⟨s, hs⟩ := Nat.exists_eq_succ_of_ne_zero (Nat.ne_of_gt h)
  have hbinade : 2 ^ (53 + s) ≤ n / p :=
    two_pow_le_of_lt_step (f := double) (Nat.zero_le _) (hs ▸ Nat.lt_succ_self s)
  have hn : n < 2 ^ (53 + double.step n) := double.lt_two_pow_step n
  rw [Nat.le_div_iff_mul_le hp, Nat.pow_add] at hbinade
  rw [Nat.pow_add] at hn
  have hlt : 2 ^ s * p < 2 ^ double.step n := by
    refine Nat.lt_of_mul_lt_mul_left (a := 2 ^ 53) ?_
    rw [← Nat.mul_assoc]
    exact Nat.lt_of_le_of_lt hbinade hn
  rw [hs, Nat.pow_succ', Nat.mul_left_comm, Nat.mul_comm p]
  exact Nat.mul_lt_mul_of_pos_left hlt Nat.two_pos

/-- The error of the quotient, in terms of the spacing at the magnitude. -/
theorem abs_sub_roundedQuotient_mul_lt (hp : 0 < p) (h : 2 ^ 53 < roundedQuotient p n) :
    |(n : ℚ) - (roundedQuotient p n * p : Nat)| < (2 ^ double.step n : Nat) := by
  have hp0 : (0 : ℚ) < p := by exact_mod_cast hp
  obtain ⟨k, hk, -, hnear⟩ := double.nearest_eq_mul n hp
  have hhalf := (nearestMultiple_iff.mp hnear).1
  rw [← Nat.cast_mul, ← hk] at hhalf
  have hclose : 2 * |(n : ℚ) - (roundedQuotient p n * p : Nat)| ≤
      (p * 2 ^ double.step (n / p) : Nat) := by
    have hscale : (n : ℚ) - (roundedQuotient p n * p : Nat) = (n / p - roundedQuotient p n) * p := by
      rw [sub_mul, div_mul_cancel₀ _ (ne_of_gt hp0), Nat.cast_mul]
    rw [hscale, abs_mul, abs_of_pos hp0, ← mul_assoc, mul_comm p, Nat.cast_mul]
    exact mul_le_mul_of_nonneg_right hhalf (le_of_lt hp0)
  have hspacing : ((p * 2 ^ double.step (n / p) : Nat) : ℚ) < 2 * (2 ^ double.step n : Nat) := by
    exact_mod_cast mul_two_pow_step_div_lt hp (step_div_pos hp h)
  linarith

/-- A number of halves is worth a whole number of spacings, and so is the magnitude: they are
equal, as they are less than one spacing apart. -/
theorem not_falseTie {q e : Nat} (hn : double.OnGrid n) (hp : 0 < p) (hpow : p = q * 2 ^ e)
    (hlt : n < 2 ^ (52 + e) * unitsPerOne) :
    ¬FalseTie (n / p / unitsPerOne) (roundedQuotient p n / unitsPerOne) := by
  intro hfalse
  have hp0 : (0 : ℚ) < p := by exact_mod_cast hp
  obtain ⟨j, hj, hw⟩ := hfalse.exists_halves
  have hlarge : 2 ^ 53 < roundedQuotient p n := by
    have hhalf : 2 ^ 53 < unitsPerHalf := by decide +kernel
    rw [hw]
    exact Nat.lt_of_lt_of_le hhalf (Nat.le_mul_of_pos_left _ hj)
  have hstep : double.step n ≤ unitExponent - 1 + e := by
    have hpos : 0 < unitExponent := by decide +kernel
    refine step_le_of_lt (Nat.zero_le _) ?_
    rw [two_pow_mul_unitsPerOne] at hlt
    have hexponent : double.precision + (unitExponent - 1 + e) = 52 + e + unitExponent := by
      show 53 + _ = _
      omega
    rwa [hexponent]
  have hdvd : 2 ^ double.step n ∣ roundedQuotient p n * p := by
    rw [hw, hpow, unitsPerHalf, Nat.mul_mul_mul_comm, ← Nat.pow_add]
    exact Nat.dvd_mul_left_of_dvd (Nat.pow_dvd_pow 2 hstep) _
  have hclose := abs_sub_roundedQuotient_mul_lt hp hlarge
  have hsame : n = roundedQuotient p n * p := by
    have hlt : |(n : Int) - (roundedQuotient p n * p : Nat)| < (2 ^ double.step n : Nat) := by
      exact_mod_cast hclose
    have hzero := Int.eq_zero_of_abs_lt_dvd
      (dvd_sub (Int.natCast_dvd_natCast.mpr hn) (Int.natCast_dvd_natCast.mpr hdvd)) hlt
    omega
  refine hfalse.ne_self ?_
  rw [div_left_inj' (ne_of_gt cast_unitsPerOne_pos), div_eq_iff (ne_of_gt hp0)]
  exact_mod_cast hsame

/-! ## Large magnitudes -/

/-- A large rounded quotient is whole. -/
theorem roundedQuotient_eq_of_le (hp : 0 < p) (h : 2 ^ 53 * (p * unitsPerOne) ≤ n) :
    roundedQuotient p n = foundMultiple p n * unitsPerOne := by
  have hle : 2 ^ 53 * unitsPerOne ≤ roundedQuotient p n := by
    refine le_nearest hp ?_ ?_
    · rw [unitsPerOne_eq]
      exact onGrid_mul_two_pow (Nat.le_refl _) (Nat.zero_le _)
    · rw [le_div_iff₀ (by exact_mod_cast hp : (0 : ℚ) < p)]
      exact_mod_cast (by linarith : 2 ^ 53 * unitsPerOne * p ≤ n)
  have hstep : unitExponent ≤ double.step (roundedQuotient p n) := by
    have hlt : roundedQuotient p n < 2 ^ (53 + double.step (roundedQuotient p n)) :=
      double.lt_two_pow_step _
    rw [two_pow_mul_unitsPerOne] at hle
    have := (Nat.pow_lt_pow_iff_right (by decide)).mp (Nat.lt_of_le_of_lt hle hlt)
    omega
  have hdvd : unitsPerOne ∣ roundedQuotient p n := by
    rw [unitsPerOne_eq]
    exact Nat.dvd_trans (Nat.pow_dvd_pow 2 hstep) (double.onGrid_nearest n p)
  obtain ⟨k, hk⟩ := hdvd
  rw [Nat.mul_comm] at hk
  unfold foundMultiple
  rw [hk, roundDiv_mul unitsPerOne_pos]

/-- A number that goes into a count `2 ^ 53` times is no more than the spacing below it. -/
theorem le_two_pow_of_mul_le {c k : Nat} (h : 2 ^ 53 * c ≤ n) (hk : n ≤ 2 ^ (53 + k)) :
    c ≤ 2 ^ k := by
  rw [Nat.pow_add] at hk
  exact Nat.le_of_mul_le_mul_left (Nat.le_trans h hk) (Nat.two_pow_pos 53)

/-- A multiple just below a count is rounded to it. -/
theorem nearest_mul_of_lt {c m : Nat} (hn : double.OnGrid n) (hc : 0 < c) (h : 2 ^ 53 * c ≤ n)
    (hlt : m * c < n) (hclose : 2 * n ≤ 2 * (m * c) + c) : double.nearest (m * c) 1 = n := by
  obtain ⟨l, hl, hlg⟩ := hn.sub (Nat.lt_of_le_of_lt (Nat.zero_le _) hlt)
  have hfull := hlg.add_eq_mul
  have hle : c ≤ 2 ^ double.step l := by
    refine le_two_pow_of_mul_le h ?_
    rw [hl, hfull, Nat.pow_add]
    exact Nat.mul_le_mul_right _ (double.significand_lt l)
  rw [hl]
  refine (nearest_one_eq_upper_iff hlg (by omega) (by omega)).mpr (.inl ?_)
  by_contra hmiddle
  -- a multiple in the middle is half of the spacing away from another one, which `n` is
  have hsame : c = 2 ^ double.step l := by omega
  rw [← hl, ← hsame] at hfull
  have hhalf : 2 * (double.significand l + 1) * c = (2 * m + 1) * c := by
    rw [Nat.mul_assoc, ← hfull, Nat.add_mul, Nat.mul_assoc, Nat.one_mul]
    omega
  have := Nat.mul_right_cancel hc hhalf
  omega

/-- A multiple just above a count is rounded to it. -/
theorem nearest_mul_of_le {c m : Nat} (hn : double.OnGrid n) (h : 2 ^ 53 * c ≤ n) (hle : n ≤ m * c)
    (hclose : 2 * (m * c) ≤ 2 * n + c) : double.nearest (m * c) 1 = n := by
  have hlt : c < 2 ^ double.step n := by
    have hstep : n < 2 ^ (53 + double.step n) := double.lt_two_pow_step n
    rw [Nat.pow_add] at hstep
    exact Nat.lt_of_mul_lt_mul_left (Nat.lt_of_le_of_lt h hstep)
  exact (nearest_one_eq_lower_iff hn hle (by omega)).mpr (.inl (by omega))

/-- For large magnitudes, the nearest multiple is rounded to the magnitude itself. -/
theorem nearest_exactMultiple_of_le (hn : double.OnGrid n) (hp : 0 < p)
    (h : 2 ^ 53 * (p * unitsPerOne) ≤ n) :
    double.nearest (exactMultiple p n * (p * unitsPerOne)) 1 = n := by
  have hc : 0 < p * unitsPerOne := Nat.mul_pos hp unitsPerOne_pos
  have hmultiple : NearestMultiple (p * unitsPerOne : Nat) n (exactMultiple p n) := by
    have h := @nearestMultiple_roundDiv n 1 (p * unitsPerOne) Nat.one_pos hc
    rwa [Nat.cast_one, div_one, Nat.one_mul] at h
  obtain ⟨hlow, hhigh, -⟩ := hmultiple
  generalize exactMultiple p n = m at hlow hhigh ⊢
  generalize p * unitsPerOne = c at hc h hlow hhigh ⊢
  rcases Nat.lt_or_ge (m * c) n with hlt | hge
  · have hclose : (2 * n : ℚ) ≤ 2 * (m * c) + c := by linarith
    exact nearest_mul_of_lt hn hc h hlt (by exact_mod_cast hclose)
  · have hclose : (2 * (m * c) : ℚ) ≤ 2 * n + c := by linarith
    exact nearest_mul_of_le hn h hge (by exact_mod_cast hclose)

end

end ColorAlgebra.Scalar
