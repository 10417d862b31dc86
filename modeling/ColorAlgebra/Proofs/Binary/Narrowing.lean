import ColorAlgebra.Proofs.Binary.Monotone

/-!
# Narrow arithmetic in a wider format

When a significand of the wider format has room for two of the narrow one and a bit more, an
operation on narrow numbers can be done in the wider format and its result be narrowed: rounding
twice gives what rounding once gives. It could only differ if the result in the wider format
lay midway between two narrow numbers without being exact. A product is always exact there.
A sum that is not has an operand too small to take it as far as the middle from the other one,
and a quotient that is not in the middle stays away from it, because the divisor is short.

* `Format.Middle`: midway between a count on the grid and the next one.
* `Format.FitsTwiceIn`: the wider format has room for two significands.

Results:
1. `Format.nearest_nearest_of_exact`: rounding twice is harmless if only an exact number is
   rounded to a middle first.
2. `Format.FitsTwiceIn.nearest_nearest_mul`, `Format.FitsTwiceIn.nearest_nearest_sum`,
   `Format.FitsTwiceIn.nearest_nearest_div`: products, sums and quotients of narrow numbers.
3. `Binary.narrow_add`, `Binary.narrow_sub`, `Binary.narrow_mul`, `Binary.narrow_div`: the
   operations on values.
-/

namespace ColorAlgebra

variable {f g : Format}

namespace Format

/-! ## Middles -/

/-- The second count is midway between the first, which is on the grid, and the next one. -/
structure Middle (f : Format) (l v : Nat) : Prop where
  onGrid : f.OnGrid l
  eq : 2 * v = 2 * l + 2 ^ f.step l

/-- A count that slips lies midway: a neighbour below at half the distance would have made the
significand even. -/
theorem Slips.middle {n v : Nat} (hn : f.OnGrid n) (h : f.Slips n v) : ∃ l, f.Middle l v := by
  obtain ⟨hodd, habove | hbelow⟩ := h
  · exact ⟨n, hn, habove⟩
  · have hpos := Nat.two_pow_pos (f.step n)
    obtain ⟨l, hl, hlg⟩ := hn.sub (by omega)
    have hparity := hlg.significand_add
    rw [← hl] at hparity
    rcases hlg.step_add with ⟨hstep, -⟩ | ⟨-, hfull⟩
    · rw [← hl] at hstep
      rw [hstep] at hbelow
      exact ⟨l, hlg, by omega⟩
    · omega

/-- Rounding twice is harmless if only an exact number is rounded to a middle first. -/
theorem nearest_nearest_of_exact (hfg : f.CoarserThan g) {num den : Nat} (hden : 0 < den)
    (h : ∀ l v, f.Middle l v → g.nearest num den = v → (num / den : ℚ) = v) :
    f.nearest (g.nearest num den) 1 = f.nearest num den := by
  by_contra hne
  have hslips := not_not.mp (mt (nearest_nearest_eq_iff hfg hden).mpr hne)
  obtain ⟨l, hmiddle⟩ := hslips.middle (f.onGrid_nearest num den)
  have hexact := h l _ hmiddle rfl
  exact hne (nearest_congr Nat.one_pos hden (by rw [hexact, Nat.cast_one, div_one]))

namespace Middle

variable {l v : Nat}

/-- The spacing is even, and so the middle is a whole number of halves of it. -/
theorem exists_half (h : f.Middle l v) (hquantum : 0 < f.quantum) :
    ∃ k, f.step l = k + 1 ∧ 2 ^ k ∣ v ∧ 2 ^ k ≤ v := by
  have hstep := f.quantum_le_step l
  obtain ⟨k, hk⟩ : ∃ k, f.step l = k + 1 := ⟨f.step l - 1, by omega⟩
  obtain ⟨m, hm⟩ := h.onGrid
  have heq := h.eq
  rw [hk, Nat.pow_succ'] at heq hm
  have hv : v = 2 ^ k * (2 * m + 1) := by
    rw [Nat.mul_add, Nat.mul_one, ← Nat.mul_assoc, Nat.mul_comm (2 ^ k) 2]
    omega
  refine ⟨k, hk, hv ▸ Nat.dvd_mul_right _ _, ?_⟩
  rw [hv]
  exact Nat.le_mul_of_pos_right _ (Nat.succ_pos _)

/-- The middle lies where the spacing is that of the count below it. -/
theorem lt_two_pow (h : f.Middle l v) : v < 2 ^ (f.precision + f.step l) := by
  have heq := h.eq
  have hpos := Nat.two_pow_pos (f.step l)
  have hnext : l + 2 ^ f.step l ≤ 2 ^ (f.precision + f.step l) := by
    rw [h.onGrid.add_eq_mul, Nat.pow_add]
    exact Nat.mul_le_mul_right _ (f.significand_lt l)
  omega

/-- No count on the grid is nearer to the middle than half a spacing. -/
theorem away (h : f.Middle l v) {a : Nat} (ha : f.OnGrid a) :
    2 * a + 2 ^ f.step l ≤ 2 * v ∨ 2 * v + 2 ^ f.step l ≤ 2 * a := by
  have heq := h.eq
  rcases Nat.lt_or_ge l a with hlt | hge
  · have hnext := h.onGrid.add_le ha hlt
    omega
  · omega

end Middle

/-! ## Whole numbers -/

theorem dvd_natAbs_add {d a b : Nat} (ha : d ∣ a) (hb : d ∣ b) (s t : Bool) :
    d ∣ (signed s a + signed t b).natAbs := by
  have hsigned : ∀ (u : Bool) {n : Nat}, d ∣ n → (d : Int) ∣ signed u n := by
    intro u n hn
    have hcast : (d : Int) ∣ n := Int.natCast_dvd_natCast.mpr hn
    cases u with
    | false => exact hcast
    | true => exact (Int.dvd_neg).mpr hcast
  exact Int.natCast_dvd.mp (Int.dvd_add (hsigned s ha) (hsigned t hb))

/-- A quotient of significands that is not a multiple of a power of two stays away from it by a
part of the lower one of the two powers. -/
theorem two_pow_min_le {m e k w d : Nat} (hd : 0 < d) (hw : 2 ^ k ∣ w)
    (hne : ((m * 2 ^ e : Nat) / d : ℚ) ≠ w) :
    ((2 ^ min e k : Nat) : ℚ) ≤ d * |((m * 2 ^ e : Nat) / d : ℚ) - w| := by
  have hd0 : (0 : ℚ) < d := by exact_mod_cast hd
  have hscale : (d : ℚ) * |((m * 2 ^ e : Nat) / d : ℚ) - w| =
      |(((m * 2 ^ e : Nat) : Int) - (w * d : Nat) : Int)| := by
    rw [← abs_of_pos hd0, ← abs_mul, abs_of_pos hd0, mul_sub, mul_div_cancel₀ _ (ne_of_gt hd0)]
    push_cast
    rw [mul_comm (d : ℚ) w]
  have hpow : ((2 ^ min e k : Nat) : Int) ∣ ((m * 2 ^ e : Nat) : Int) - (w * d : Nat) := by
    refine Int.dvd_sub ?_ ?_
    · exact_mod_cast Nat.dvd_mul_left_of_dvd (Nat.pow_dvd_pow 2 (Nat.min_le_left e k)) m
    · exact_mod_cast Nat.dvd_mul_right_of_dvd
        (Nat.dvd_trans (Nat.pow_dvd_pow 2 (Nat.min_le_right e k)) hw) d
  have hapart : ((m * 2 ^ e : Nat) : Int) - (w * d : Nat) ≠ 0 := by
    intro h
    refine hne ((div_eq_iff (ne_of_gt hd0)).mpr ?_)
    exact_mod_cast Int.sub_eq_zero.mp h
  rw [hscale]
  exact_mod_cast Int.le_of_dvd (abs_pos.mpr hapart) ((dvd_abs _ _).mpr hpow)

/-- If the divisor has no more than `p` bits, nor has the dividend, it stays farther away than
rounding to a middle allows. -/
theorem two_pow_lt_of_ne {m e k w d p : Nat} (hd : 0 < d) (hm : m < 2 ^ p) (hdp : d < 2 ^ p)
    (hw : 2 ^ k ∣ w) (hkw : 2 ^ k ≤ w) (hne : ((m * 2 ^ e : Nat) / d : ℚ) ≠ w) :
    ((2 ^ k : Nat) : ℚ) < (2 ^ p + 1 : Nat) * |((m * 2 ^ e : Nat) / d : ℚ) - w| := by
  have hmin := two_pow_min_le hd hw hne
  have hd0 : (0 : ℚ) < d := by exact_mod_cast hd
  have hdp : (d : ℚ) < (2 ^ p : Nat) := by exact_mod_cast hdp
  have hq : d * ((m * 2 ^ e : Nat) / d : ℚ) = m * (2 ^ e : Nat) := by
    rw [mul_div_cancel₀ _ (ne_of_gt hd0), Nat.cast_mul]
  have hapart := sub_ne_zero.mpr hne
  generalize ((m * 2 ^ e : Nat) / d : ℚ) = q at hmin hq hapart ⊢
  have hpos : 0 < |q - w| := abs_pos.mpr hapart
  rw [Nat.cast_succ]
  rcases Nat.le_total k e with hke | hek
  · rw [Nat.min_eq_right hke] at hmin
    have hless := mul_lt_mul_of_pos_right hdp hpos
    linarith
  · rw [Nat.min_eq_left hek] at hmin
    have hm : (m : ℚ) < (2 ^ p : Nat) := by exact_mod_cast hm
    have hpow : (0 : ℚ) < (2 ^ e : Nat) := by exact_mod_cast Nat.two_pow_pos e
    have hdividend : (d : ℚ) * q < d * ((2 ^ p : Nat) * |q - w|) :=
      calc (d : ℚ) * q = m * (2 ^ e : Nat) := hq
        _ < (2 ^ p : Nat) * (2 ^ e : Nat) := mul_lt_mul_of_pos_right hm hpow
        _ ≤ (2 ^ p : Nat) * (d * |q - w|) := mul_le_mul_of_nonneg_left hmin (Nat.cast_nonneg _)
        _ = d * ((2 ^ p : Nat) * |q - w|) := mul_left_comm ..
    have hless := lt_of_mul_lt_mul_left hdividend (le_of_lt hd0)
    have hle : ((2 ^ k : Nat) : ℚ) ≤ w := by exact_mod_cast hkw
    have hleft := neg_le_abs (q - w)
    linarith

/-! ## Room for two significands -/

/-- A significand of the wider format has room for two of the narrow one and a bit more, also
where both have their least spacing, and the product of least magnitudes is not too small. -/
structure FitsTwiceIn (f g : Format) : Prop extends f.CoarserThan g where
  twice : 2 * f.precision + 1 ≤ g.precision
  depth : g.precision + g.quantum ≤ f.precision + f.quantum
  product : unitExponent + g.quantum ≤ 2 * f.quantum
  quotient : f.top ≤ f.quantum + unitExponent + f.precision

theorem fitsTwiceIn_double (hf : f ≠ .double) : f.FitsTwiceIn .double := by
  refine ⟨coarserThan_of_ne_double hf, ?_, ?_, ?_, ?_⟩ <;>
  · cases f with
    | half => decide
    | single => decide
    | double => exact absurd rfl hf

/-- The spacing at a representable count is not that of an infinity. -/
theorem Representable.step_le {n : Nat} (hn : f.Representable n) :
    f.step n ≤ f.top - f.precision := by
  have htop := f.quantum_add_precision_le_top
  refine step_le_of_lt (by omega) ?_
  rw [Nat.add_sub_cancel' (by omega)]
  exact hn.1

namespace FitsTwiceIn

variable {num den l v : Nat}

theorem quantum_pos (hfg : f.FitsTwiceIn g) : 0 < f.quantum :=
  Nat.lt_of_le_of_lt (Nat.zero_le _) hfg.quantum

/-- What is rounded to a middle lies where the wider spacing is much smaller. -/
theorem step_le (hfg : f.FitsTwiceIn g) (hden : 0 < den) (h : f.Middle l v)
    (hv : g.nearest num den = v) :
    g.step (num / den) + g.precision ≤ f.precision + f.step l := by
  have hquantum := f.quantum_le_step l
  have hdepth := hfg.depth
  have hlt : num / den < 2 ^ (f.precision + f.step l) := by
    by_contra hge
    have hfloor : ((num / den : Nat) : ℚ) ≤ num / den := Nat.cast_div_le
    have hle : ((2 ^ (f.precision + f.step l) : Nat) : ℚ) ≤ num / den :=
      le_trans (by exact_mod_cast Nat.le_of_not_lt hge) hfloor
    have hnear := le_nearest hden (onGrid_two_pow (f := g) (by omega)) hle
    have hmiddle := h.lt_two_pow
    omega
  have hstep : g.step (num / den) ≤ f.precision + f.step l - g.precision :=
    step_le_of_lt (by omega) (by rwa [Nat.add_sub_cancel' (by omega)])
  omega

/-- What is rounded to a middle is close to it. -/
theorem close (hfg : f.FitsTwiceIn g) (hden : 0 < den) (h : f.Middle l v)
    (hv : g.nearest num den = v) :
    (2 ^ (f.precision + 2) : Nat) * |(num / den : ℚ) - v| ≤ (2 ^ f.step l : Nat) := by
  have hstep := hfg.step_le hden h hv
  have htwice := hfg.twice
  obtain ⟨n, hn, -, hnear⟩ := g.nearest_eq_mul num hden
  have hlow := hnear.low
  have hhigh := hnear.high
  have herror : 2 * |(num / den : ℚ) - v| ≤ (2 ^ g.step (num / den) : Nat) := by
    rw [← hv, hn, Nat.cast_mul]
    rcases abs_cases ((num / den : ℚ) - n * (2 ^ g.step (num / den) : Nat)) with
      ⟨habs, -⟩ | ⟨habs, -⟩ <;> rw [habs] <;> linarith
  have hpow : (2 ^ (f.precision + 1) : Nat) * (2 ^ g.step (num / den) : Nat) ≤
      2 ^ f.step l := by
    rw [← Nat.pow_add]
    exact Nat.pow_le_pow_right (by decide) (by omega)
  calc ((2 ^ (f.precision + 2) : Nat) : ℚ) * |(num / den : ℚ) - v|
      = (2 ^ (f.precision + 1) : Nat) * (2 * |(num / den : ℚ) - v|) := by
        rw [Nat.pow_succ 2 (f.precision + 1), Nat.cast_mul]
        push_cast
        ring
    _ ≤ (2 ^ (f.precision + 1) : Nat) * (2 ^ g.step (num / den) : Nat) :=
        mul_le_mul_of_nonneg_left herror (Nat.cast_nonneg _)
    _ ≤ (2 ^ f.step l : Nat) := by exact_mod_cast hpow

/-- The same for a whole number of units. -/
theorem close_units (hfg : f.FitsTwiceIn g) {n : Nat} (h : f.Middle l v)
    (hv : g.nearest n 1 = v) :
    4 * n ≤ 4 * v + 2 ^ f.step l ∧ 4 * v ≤ 4 * n + 2 ^ f.step l := by
  have hclose := hfg.close Nat.one_pos h hv
  rw [Nat.cast_one, div_one] at hclose
  have hpow : ((4 : Nat) : ℚ) ≤ (2 ^ (f.precision + 2) : Nat) := by
    exact_mod_cast Nat.pow_le_pow_right (n := 2) (by decide) (Nat.le_add_left 2 f.precision)
  have hfour : ((4 : Nat) : ℚ) * |(n : ℚ) - v| ≤ (2 ^ f.step l : Nat) :=
    le_trans (mul_le_mul_of_nonneg_right hpow (abs_nonneg _)) hclose
  have hright := le_abs_self ((n : ℚ) - v)
  have hleft := neg_le_abs ((n : ℚ) - v)
  rw [Nat.cast_ofNat] at hfour
  constructor
  · have hle : (4 : ℚ) * n ≤ 4 * v + (2 ^ f.step l : Nat) := by linarith
    exact_mod_cast hle
  · have hle : (4 : ℚ) * v ≤ 4 * n + (2 ^ f.step l : Nat) := by linarith
    exact_mod_cast hle

/-! ## Products -/

theorem mul_eq_significands (hfg : f.FitsTwiceIn g) {a b : Nat} (ha : f.OnGrid a)
    (hb : f.OnGrid b) :
    a * b = f.significand a * f.significand b * 2 ^ (f.step a + f.step b - unitExponent) *
      unitsPerOne := by
  have hproduct := hfg.product
  have hi := f.quantum_le_step a
  have hj := f.quantum_le_step b
  calc a * b = f.significand a * 2 ^ f.step a * (f.significand b * 2 ^ f.step b) := by
        rw [← ha.eq_mul, ← hb.eq_mul]
    _ = f.significand a * f.significand b * (2 ^ f.step a * 2 ^ f.step b) :=
        Nat.mul_mul_mul_comm ..
    _ = _ := by
        rw [Nat.mul_assoc _ _ unitsPerOne, unitsPerOne_eq, ← Nat.pow_add, ← Nat.pow_add,
          Nat.sub_add_cancel (by omega)]

/-- The product of two narrow numbers is a number of the wider format. -/
theorem nearest_nearest_mul (hfg : f.FitsTwiceIn g) {a b : Nat} (ha : f.OnGrid a)
    (hb : f.OnGrid b) :
    f.nearest (g.nearest (a * b) unitsPerOne) 1 = f.nearest (a * b) unitsPerOne := by
  have hU := unitsPerOne_pos
  have hproduct := hfg.product
  have htwice := hfg.twice
  have hi := f.quantum_le_step a
  have hj := f.quantum_le_step b
  have hle : f.significand a * f.significand b ≤ 2 ^ g.precision :=
    calc f.significand a * f.significand b ≤ 2 ^ f.precision * 2 ^ f.precision :=
          Nat.mul_le_mul (Nat.le_of_lt (f.significand_lt a)) (Nat.le_of_lt (f.significand_lt b))
      _ = 2 ^ (f.precision + f.precision) := (Nat.pow_add ..).symm
      _ ≤ 2 ^ g.precision := Nat.pow_le_pow_right (by decide) (by omega)
  have hgrid : g.OnGrid (f.significand a * f.significand b *
      2 ^ (f.step a + f.step b - unitExponent)) := onGrid_mul_two_pow hle (by omega)
  have hexact : ((a * b : Nat) / unitsPerOne : ℚ) =
      (f.significand a * f.significand b * 2 ^ (f.step a + f.step b - unitExponent) : Nat) := by
    have hU0 : (unitsPerOne : ℚ) ≠ 0 := by exact_mod_cast Nat.ne_of_gt hU
    rw [hfg.mul_eq_significands ha hb, Nat.cast_mul, mul_div_cancel_right₀ _ hU0]
  refine nearest_nearest_of_exact hfg.toCoarserThan hU fun l v _ hv => ?_
  rw [← hv, nearest_of_eq hU hgrid hexact, hexact]

/-! ## Sums -/

/-- A sum or a difference of magnitudes. If it is not exact, the operand with the finer spacing is
too small to take it as far as the middle from the other one, which is a narrow number. -/
theorem nearest_nearest_sum (hfg : f.FitsTwiceIn g) {a b n : Nat} (ha : f.OnGrid a)
    (hlow : a ≤ n + b) (hhigh : n ≤ a + b) (hdvd : 2 ^ f.step b ∣ n) :
    f.nearest (g.nearest n 1) 1 = f.nearest n 1 := by
  refine nearest_nearest_of_exact hfg.toCoarserThan Nat.one_pos fun l v hmiddle hv => ?_
  rw [Nat.cast_one, div_one, Nat.cast_inj]
  have hstep := hfg.step_le Nat.one_pos hmiddle hv
  rw [Nat.div_one] at hstep
  rcases Nat.lt_or_ge (f.step b) (g.step n) with hinexact | hexact
  · exfalso
    have htwice := hfg.twice
    have hsmall : 4 * b < 2 ^ f.step l :=
      calc 4 * b < 4 * 2 ^ (f.precision + f.step b) :=
            Nat.mul_lt_mul_of_pos_left (f.lt_two_pow_step b) (by decide)
        _ = 2 ^ (f.precision + f.step b + 2) := by rw [Nat.pow_add _ _ 2, Nat.mul_comm]
        _ ≤ 2 ^ f.step l := Nat.pow_le_pow_right (by decide) (by omega)
    obtain ⟨habove, hbelow⟩ := hfg.close_units hmiddle hv
    have haway := hmiddle.away ha
    omega
  · exact (nearest_one_of_onGrid (Nat.dvd_trans (Nat.pow_dvd_pow 2 hexact) hdvd)).symm.trans hv

/-- With their signs. -/
theorem nearest_nearest_add (hfg : f.FitsTwiceIn g) {a b : Nat} (ha : f.OnGrid a)
    (hb : f.OnGrid b) (s t : Bool) :
    f.nearest (g.nearest (signed s a + signed t b).natAbs 1) 1 =
      f.nearest (signed s a + signed t b).natAbs 1 := by
  have hlow : a ≤ (signed s a + signed t b).natAbs + b := by
    cases s <;> cases t <;> simp [signed] <;> omega
  have hlow' : b ≤ (signed s a + signed t b).natAbs + a := by
    cases s <;> cases t <;> simp [signed] <;> omega
  have hhigh : (signed s a + signed t b).natAbs ≤ a + b := by
    cases s <;> cases t <;> simp [signed] <;> omega
  rcases Nat.le_total (f.step b) (f.step a) with h | h
  · have hdvd := Nat.dvd_trans (Nat.pow_dvd_pow 2 h) ha
    exact hfg.nearest_nearest_sum ha hlow hhigh (dvd_natAbs_add hdvd hb s t)
  · have hdvd := Nat.dvd_trans (Nat.pow_dvd_pow 2 h) hb
    exact hfg.nearest_nearest_sum hb hlow' (by omega) (dvd_natAbs_add ha hdvd s t)

/-! ## Quotients -/

theorem div_eq_significands (hfg : f.FitsTwiceIn g) {a b : Nat} (ha : f.OnGrid a)
    (hb : f.Representable b) :
    ((a * unitsPerOne : Nat) / b : ℚ) =
      (f.significand a * 2 ^ (f.step a + unitExponent - f.step b) : Nat) / f.significand b := by
  have hquotient := hfg.quotient
  have hi := f.quantum_le_step a
  have hj := hb.step_le
  have hpow : (0 : ℚ) < (2 ^ f.step b : Nat) := by exact_mod_cast Nat.two_pow_pos _
  have hdividend : a * unitsPerOne =
      f.significand a * 2 ^ (f.step a + unitExponent - f.step b) * 2 ^ f.step b := by
    rw [Nat.mul_assoc, ← Nat.pow_add, Nat.sub_add_cancel (by omega), Nat.pow_add,
      ← Nat.mul_assoc, ← ha.eq_mul, unitsPerOne_eq]
  rw [hb.onGrid.cast_eq_mul, hdividend, Nat.cast_mul, mul_div_mul_right _ _ (ne_of_gt hpow)]

/-- What is rounded to a middle is nearer to it than the significands of a quotient allow. -/
theorem close_half (hfg : f.FitsTwiceIn g) (hden : 0 < den) (h : f.Middle l v)
    (hv : g.nearest num den = v) {k : Nat} (hk : f.step l = k + 1) :
    (2 ^ f.precision + 1 : Nat) * |(num / den : ℚ) - v| ≤ (2 ^ k : Nat) := by
  have hclose := hfg.close hden h hv
  have hbits : 2 * (2 ^ f.precision + 1) ≤ 2 ^ (f.precision + 2) := by
    have hone : 1 ≤ 2 ^ f.precision := Nat.one_le_two_pow
    rw [Nat.pow_add]
    omega
  have hroom := mul_le_mul_of_nonneg_right (Nat.cast_le (α := ℚ).mpr hbits)
    (abs_nonneg ((num / den : ℚ) - v))
  rw [hk, Nat.pow_succ 2 k, Nat.cast_mul _ 2, Nat.cast_two] at hclose
  rw [Nat.cast_mul 2, Nat.cast_two, mul_assoc] at hroom
  linarith

/-- A quotient that is not in the middle is farther away from it than it may be if it is rounded
to it. -/
theorem nearest_nearest_div (hfg : f.FitsTwiceIn g) {a b : Nat} (ha : f.OnGrid a)
    (hb : f.Representable b) (h0 : 0 < b) :
    f.nearest (g.nearest (a * unitsPerOne) b) 1 = f.nearest (a * unitsPerOne) b := by
  refine nearest_nearest_of_exact hfg.toCoarserThan h0 fun l v hmiddle hv => ?_
  by_contra hne
  obtain ⟨k, hk, hdvd, hle⟩ := hmiddle.exists_half hfg.quantum_pos
  have hpos : 0 < f.significand b := by
    by_contra hzero
    rw [hb.onGrid.eq_mul, Nat.eq_zero_of_not_pos hzero, Nat.zero_mul] at h0
    exact Nat.lt_irrefl 0 h0
  have hclose := hfg.close_half h0 hmiddle hv hk
  rw [hfg.div_eq_significands ha hb] at hne hclose
  have hfar := two_pow_lt_of_ne hpos (f.significand_lt a) (f.significand_lt b) hdvd hle hne
  exact absurd hclose (not_le.mpr hfar)

end FitsTwiceIn

end Format

/-! ## Values -/

namespace Binary

variable {s : Bool} {num den : Nat}

/-- Narrowing what was rounded in a wider format gives what rounding at once gives, overflow
included, if the counts do. -/
theorem convert_round (hfg : f.CoarserThan g) (hden : 0 < den)
    (h : f.nearest (g.nearest num den) 1 = f.nearest num den) :
    (round s num den : Binary g).convert f = round s num den := by
  by_cases hlt : g.nearest num den < 2 ^ g.top
  · rw [round_of_nearest (Format.representable_nearest hlt) rfl]
    exact round_congr h
  · have htop : 2 ^ f.top ≤ f.nearest num den :=
      Nat.le_of_not_lt (mt (hfg.nearest_lt hden) hlt)
    rw [round_of_top_le (Nat.le_of_not_lt hlt), round_of_top_le htop]
    rfl

theorem convert_signedZero : (signedZero s : Binary g).convert f = signedZero s :=
  convert_finite f.representable_zero

theorem convert_neg (x : Binary f) : x.neg.convert g = (x.convert g).neg := by
  cases x with
  | nan => rfl
  | infinity s => rfl
  | finite s n hn => exact (neg_round s n 1).symm

/-! ## The operations of the narrow format -/

theorem narrow_mul (x y : Binary f) :
    ((x.convert .double).mul (y.convert .double)).convert f = x.mul y := by
  by_cases hf : f = .double
  · subst hf
    simp only [convert_self]
  have hfits := Format.fitsTwiceIn_double hf
  cases x with
  | nan => rfl
  | infinity s =>
    cases y with
    | nan => rfl
    | infinity t => rfl
    | finite t b hb =>
      rw [convert_finite hb.widen]
      exact apply_ite (convert f) (b = 0) nan (infinity (s ^^ t))
  | finite s a ha =>
    rw [convert_finite ha.widen]
    cases y with
    | nan => rfl
    | infinity t => exact apply_ite (convert f) (a = 0) nan (infinity (s ^^ t))
    | finite t b hb =>
      rw [convert_finite hb.widen]
      exact convert_round hfits.toCoarserThan Format.unitsPerOne_pos
        (hfits.nearest_nearest_mul ha.onGrid hb.onGrid)

theorem narrow_div (x y : Binary f) :
    ((x.convert .double).div (y.convert .double)).convert f = x.div y := by
  by_cases hf : f = .double
  · subst hf
    simp only [convert_self]
  have hfits := Format.fitsTwiceIn_double hf
  cases x with
  | nan => rfl
  | infinity s =>
    cases y with
    | nan => rfl
    | infinity t => rfl
    | finite t b hb =>
      rw [convert_finite hb.widen]
      rfl
  | finite s a ha =>
    rw [convert_finite ha.widen]
    cases y with
    | nan => rfl
    | infinity t => exact convert_signedZero
    | finite t b hb =>
      rw [convert_finite hb.widen]
      dsimp only [div]
      split
      · split <;> rfl
      · next hb0 =>
        have hpos := Nat.pos_of_ne_zero hb0
        exact convert_round hfits.toCoarserThan hpos (hfits.nearest_nearest_div ha.onGrid hb hpos)

theorem narrow_add (x y : Binary f) :
    ((x.convert .double).add (y.convert .double)).convert f = x.add y := by
  by_cases hf : f = .double
  · subst hf
    simp only [convert_self]
  have hfits := Format.fitsTwiceIn_double hf
  cases x with
  | nan => rfl
  | infinity s =>
    cases y with
    | nan => rfl
    | infinity t => exact apply_ite (convert f) (s = t) (infinity s) nan
    | finite t b hb =>
      rw [convert_finite hb.widen]
      rfl
  | finite s a ha =>
    rw [convert_finite ha.widen]
    cases y with
    | nan => rfl
    | infinity t => rfl
    | finite t b hb =>
      rw [convert_finite hb.widen]
      dsimp only [add]
      split
      · exact convert_signedZero
      · exact convert_round hfits.toCoarserThan Nat.one_pos
          (hfits.nearest_nearest_add ha.onGrid hb.onGrid s t)

theorem narrow_sub (x y : Binary f) :
    ((x.convert .double).sub (y.convert .double)).convert f = x.sub y := by
  unfold sub
  rw [← convert_neg, narrow_add]

end Binary

end ColorAlgebra
