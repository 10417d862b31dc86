import ColorAlgebra.Proofs.Binary.TwoRoundings

/-!
# Dividing and multiplying back

A number is divided by a whole number, the quotient is rounded, multiplied by the same number and
rounded again. How far that leads from the start depends on the significands. If that of the
number is less than that of the divisor, the quotient has a finer spacing, and rounding it
errs by too little to be seen after the multiplication. Otherwise the error is the distance to a
multiple of the divisor, and the number is lost if it is half a spacing or more.
-/

namespace ColorAlgebra.Format

variable {f : Format} {n d k s : Nat}

/-! ## Distances -/

/-- The distance of `n` to the nearest multiple of `d`. -/
def toMultiple (n d : Nat) : Nat := min (n % d) (d - n % d)

theorem two_mul_toMultiple_le (n d : Nat) : 2 * toMultiple n d ≤ d := by
  unfold toMultiple
  omega

/-- The nearest multiple is above or below by the distance. -/
theorem roundDiv_mul_eq (n : Nat) (hd : 0 < d) :
    roundDiv n d * d = n + toMultiple n d ∨ roundDiv n d * d + toMultiple n d = n := by
  have hdiv : n / d * d + n % d = n := Nat.div_add_mod' n d
  have hlt := Nat.mod_lt n hd
  unfold roundDiv toMultiple
  dsimp only
  split
  · right
    omega
  · left
    rw [Nat.succ_mul]
    omega

theorem roundDiv_mul_mul (n d : Nat) (hk : 0 < k) :
    roundDiv (n * k) (d * k) = roundDiv n d := by
  have hiff : (2 * (n % d * k) < d * k ∨ 2 * (n % d * k) = d * k ∧ n / d % 2 = 0) ↔
      (2 * (n % d) < d ∨ 2 * (n % d) = d ∧ n / d % 2 = 0) := by
    rw [← Nat.mul_assoc, Nat.mul_lt_mul_right hk, Nat.mul_left_inj (Nat.ne_of_gt hk)]
  unfold roundDiv
  dsimp only
  rw [Nat.mul_mod_mul_right, Nat.mul_div_mul_right n d hk]
  exact if_congr hiff rfl rfl

/-! ## Spacing -/

/-- A rounded quotient, where its spacing is known. -/
theorem nearest_quotient_of_step (h : f.step (n / d) = s) :
    f.nearest n d = roundDiv n (d * 2 ^ s) * 2 ^ s := by
  unfold nearest
  rw [h]

theorem two_pow_le_significand (h : f.quantum < f.step n) :
    2 ^ (f.precision - 1) ≤ f.significand n := by
  obtain ⟨j, hj⟩ : ∃ j, f.step n = j + 1 := ⟨f.step n - 1, by omega⟩
  have hprec := f.precision_pos
  have hle : 2 ^ (f.precision + j) ≤ n := two_pow_le_of_lt_step (by omega) (by omega)
  refine (Nat.le_div_iff_mul_le (Nat.two_pow_pos _)).mpr ?_
  rw [hj, ← Nat.pow_add]
  rwa [show f.precision - 1 + (j + 1) = f.precision + j by omega]

/-! ## Back to a count -/

/-- Below the least significand the spacing is half as wide. -/
theorem OnGrid.exists_previous (hn : f.OnGrid n) (hquantum : f.quantum < f.step n) :
    ∃ l, n = l + 2 ^ f.step l ∧ f.OnGrid l ∧
      (f.step n = f.step l ∧ f.significand n = f.significand l + 1 ∨
        f.step n = f.step l + 1 ∧ f.significand l % 2 = 1 ∧
          f.significand n = 2 ^ (f.precision - 1)) := by
  have hleast := two_pow_le_significand hquantum
  have hpos := Nat.two_pow_pos (f.precision - 1)
  have h0 : 0 < n := by
    rw [hn.eq_mul]
    exact Nat.mul_pos (by omega) (Nat.two_pow_pos _)
  obtain ⟨l, hl, hlg⟩ := hn.sub h0
  refine ⟨l, hl, hlg, ?_⟩
  have hsame := hlg.step_add
  have hnext := hlg.add_eq_mul
  rw [← hl] at hsame hnext
  rcases hsame with ⟨hstep, hsig⟩ | ⟨hstep, hodd⟩
  · exact .inl ⟨hstep, hsig⟩
  · refine .inr ⟨hstep, hodd, ?_⟩
    have hprec := f.precision_pos
    have hlt := f.significand_lt l
    have hmul := hn.eq_mul
    rw [hstep, Nat.pow_succ', ← Nat.mul_assoc] at hmul
    have htwice := Nat.mul_right_cancel (Nat.two_pow_pos _) (hmul.symm.trans hnext)
    obtain ⟨j, hj⟩ : ∃ j, f.precision = j + 1 := ⟨f.precision - 1, by omega⟩
    rw [hj, Nat.pow_succ] at hlt
    rw [hj, Nat.add_sub_cancel] at hleast ⊢
    omega

theorem nearest_above_iff {e : Nat} (hn : f.OnGrid n) (he : e < 2 ^ f.step n) :
    f.nearest (n + e) 1 = n ↔
      2 * e < 2 ^ f.step n ∨ 2 * e = 2 ^ f.step n ∧ f.significand n % 2 = 0 := by
  rw [nearest_one_eq_lower_iff hn (Nat.le_add_right n e) (by omega)]
  omega

theorem nearest_below_iff {v e : Nat} (hn : f.OnGrid n) (hquantum : f.quantum < f.step n)
    (hsig : f.significand n ≠ 2 ^ (f.precision - 1)) (hv : v + e = n) (h0 : 0 < e)
    (he : e < 2 ^ f.step n) :
    f.nearest v 1 = n ↔
      2 * e < 2 ^ f.step n ∨ 2 * e = 2 ^ f.step n ∧ f.significand n % 2 = 0 := by
  obtain ⟨l, hl, hlg, ⟨hstep, hnext⟩ | ⟨-, -, hleast⟩⟩ := hn.exists_previous hquantum
  · rw [hstep] at he ⊢
    have hiff := nearest_one_eq_upper_iff (v := v) hlg (by omega) (by omega)
    rw [← hl] at hiff
    rw [hiff, hnext]
    omega
  · exact absurd hleast hsig

/-- Less than half a spacing below, and for the least significand no more than a quarter. -/
theorem nearest_just_below {v e : Nat} (hn : f.OnGrid n) (hquantum : f.quantum < f.step n)
    (hv : v + e = n) (h0 : 0 < e) (he : 2 * e < 2 ^ f.step n)
    (hleast : f.significand n = 2 ^ (f.precision - 1) → 4 * e ≤ 2 ^ f.step n) :
    f.nearest v 1 = n := by
  obtain ⟨l, hl, hlg, ⟨hstep, -⟩ | ⟨hstep, hodd, hsig⟩⟩ := hn.exists_previous hquantum
  · rw [hstep] at he
    have hiff := nearest_one_eq_upper_iff (v := v) hlg (by omega) (by omega)
    rw [← hl] at hiff
    exact hiff.mpr (.inl (by omega))
  · have hquarter := hleast hsig
    rw [hstep, Nat.pow_succ] at hquarter
    have hiff := nearest_one_eq_upper_iff (v := v) hlg (by omega) (by omega)
    rw [← hl] at hiff
    exact hiff.mpr (by omega)

/-! ## Which numbers come back -/

/-- The significand `m` is less than that of the divisor, or the multiple of the divisor that is
nearest to it, both taken to the same size, is less than half of a power of two away, or half and
the significand is even. -/
def Returns (f : Format) (d m : Nat) : Prop :=
  m < d * 2 ^ (f.precision - 1 - d.log2) ∨
    2 * toMultiple (m * 2 ^ d.log2) d < 2 ^ d.log2 ∨
      2 * toMultiple (m * 2 ^ d.log2) d = 2 ^ d.log2 ∧ m % 2 = 0

instance (f : Format) (d m : Nat) : Decidable (f.Returns d m) :=
  inferInstanceAs (Decidable (_ ∨ _ ∨ _ ∧ _))

/-- The quotient of a power of two errs by no more than a quarter of a spacing. -/
def PowersReturn (f : Format) (d : Nat) : Prop :=
  2 * 2 ^ (f.precision + d.log2) ≤
    2 * (roundDiv (2 ^ (f.precision + d.log2)) d * d) + 2 ^ d.log2

instance (f : Format) (d : Nat) : Decidable (f.PowersReturn d) :=
  inferInstanceAs (Decidable (_ ≤ _))

section
variable (hd : 0 < d) (hbits : d.log2 < f.precision) (hn : f.OnGrid n)
  (hstep : f.quantum + d.log2 < f.step n)
include hd hbits hn hstep

/-- A significand less than that of the divisor. -/
theorem nearest_mul_nearest_of_lt (hpowers : f.PowersReturn d)
    (hlt : f.significand n < d * 2 ^ (f.precision - 1 - d.log2)) :
    f.nearest (f.nearest n d * d) 1 = n := by
  obtain ⟨s, hs⟩ : ∃ s, f.step n = d.log2 + 1 + s := ⟨f.step n - d.log2 - 1, by omega⟩
  have hpos := Nat.two_pow_pos s
  have hleast := two_pow_le_significand (show f.quantum < f.step n by omega)
  have hmul := hn.eq_mul
  rw [hs] at hmul
  have hquotient : f.step (n / d) = s := by
    refine step_quotient hd (by omega) ?_ ?_
    · calc 2 ^ (f.precision - 1 + s) * d ≤ 2 ^ (f.precision - 1 + s) * 2 ^ (d.log2 + 1) :=
            Nat.mul_le_mul_left _ (Nat.le_of_lt Nat.lt_log2_self)
        _ = 2 ^ (f.precision - 1) * 2 ^ (d.log2 + 1 + s) := by
            rw [← Nat.pow_add, ← Nat.pow_add, Nat.add_assoc, Nat.add_comm s]
        _ ≤ f.significand n * 2 ^ (d.log2 + 1 + s) := Nat.mul_le_mul_right _ hleast
        _ = n := hmul.symm
    · calc n = f.significand n * 2 ^ (d.log2 + 1 + s) := hmul
        _ < d * 2 ^ (f.precision - 1 - d.log2) * 2 ^ (d.log2 + 1 + s) :=
            Nat.mul_lt_mul_of_pos_right hlt (Nat.two_pow_pos _)
        _ = 2 ^ (f.precision + s) * d := by
            rw [Nat.mul_assoc, ← Nat.pow_add, Nat.mul_comm]
            congr 2
            omega
  -- the quotient errs by less than half a spacing, once it is multiplied
  have herror : 2 * toMultiple n (d * 2 ^ s) < 2 ^ f.step n :=
    calc 2 * toMultiple n (d * 2 ^ s) ≤ d * 2 ^ s := two_mul_toMultiple_le _ _
      _ < 2 ^ (d.log2 + 1) * 2 ^ s := Nat.mul_lt_mul_of_pos_right Nat.lt_log2_self hpos
      _ = 2 ^ f.step n := by rw [hs, Nat.pow_add _ _ s]
  rw [nearest_quotient_of_step hquotient, Nat.mul_assoc, Nat.mul_comm (2 ^ s) d]
  rcases roundDiv_mul_eq n (Nat.mul_pos hd hpos) with habove | hbelow
  · rw [habove]
    exact (nearest_above_iff hn (by omega)).mpr (.inl herror)
  rcases Nat.eq_zero_or_pos (toMultiple n (d * 2 ^ s)) with hzero | he
  · rw [hzero, Nat.add_zero] at hbelow
    rw [hbelow]
    exact nearest_one_of_onGrid hn
  refine nearest_just_below hn (by omega) hbelow he herror fun hsig => ?_
  -- a power of two has the spacing of the quotient just below it
  have hpower : n = 2 ^ (f.precision + d.log2) * 2 ^ s := by
    rw [hmul, hsig, ← Nat.pow_add, ← Nat.pow_add]
    congr 1
    omega
  have hscaled := Nat.mul_le_mul_right (2 ^ s) hpowers
  have hround : roundDiv n (d * 2 ^ s) = roundDiv (2 ^ (f.precision + d.log2)) d := by
    rw [hpower, roundDiv_mul_mul _ _ hpos]
  rw [hround, ← Nat.mul_assoc] at hbelow
  rw [Nat.add_mul, Nat.mul_assoc, Nat.mul_assoc, ← hpower] at hscaled
  rw [hs, Nat.pow_add, Nat.pow_succ, Nat.mul_right_comm]
  omega

/-- A significand not less than that of the divisor. -/
theorem nearest_mul_nearest_iff_of_le
    (hle : d * 2 ^ (f.precision - 1 - d.log2) ≤ f.significand n) :
    f.nearest (f.nearest n d * d) 1 = n ↔
      2 * toMultiple (f.significand n * 2 ^ d.log2) d < 2 ^ d.log2 ∨
        2 * toMultiple (f.significand n * 2 ^ d.log2) d = 2 ^ d.log2 ∧
          f.significand n % 2 = 0 := by
  obtain ⟨s, hs⟩ : ∃ s, f.step n = d.log2 + s := ⟨f.step n - d.log2, by omega⟩
  have hpos := Nat.two_pow_pos s
  have hlog := Nat.log2_self_le (Nat.ne_of_gt hd)
  have hmul := hn.eq_mul
  rw [hs, Nat.pow_add, ← Nat.mul_assoc] at hmul
  have hquotient : f.step (n / d) = s := by
    refine step_quotient hd (by omega) ?_ ?_
    · calc 2 ^ (f.precision - 1 + s) * d
          = d * 2 ^ (f.precision - 1 - d.log2) * 2 ^ d.log2 * 2 ^ s := by
            rw [Nat.mul_assoc _ _ (2 ^ d.log2), ← Nat.pow_add, Nat.mul_assoc, ← Nat.pow_add,
              Nat.mul_comm]
            congr 3
            omega
        _ ≤ f.significand n * 2 ^ d.log2 * 2 ^ s :=
            Nat.mul_le_mul_right _ (Nat.mul_le_mul_right _ hle)
        _ = n := hmul.symm
    · calc n < 2 ^ (f.precision + f.step n) := f.lt_two_pow_step n
        _ = 2 ^ (f.precision + s) * 2 ^ d.log2 := by
            rw [hs, ← Nat.pow_add, Nat.add_comm d.log2, Nat.add_assoc]
        _ ≤ 2 ^ (f.precision + s) * d := Nat.mul_le_mul_left _ hlog
  have hproduct : f.nearest n d * d = roundDiv (f.significand n * 2 ^ d.log2) d * d * 2 ^ s := by
    have hround : roundDiv n (d * 2 ^ s) = roundDiv (f.significand n * 2 ^ d.log2) d := by
      conv_lhs => rw [hmul]
      exact roundDiv_mul_mul _ _ hpos
    rw [nearest_quotient_of_step hquotient, hround, Nat.mul_right_comm]
  have hless : 2 ^ d.log2 * 2 ^ s = 2 ^ f.step n := by rw [hs, Nat.pow_add]
  have herror : toMultiple (f.significand n * 2 ^ d.log2) d * 2 ^ s < 2 ^ f.step n := by
    have htwice := two_mul_toMultiple_le (f.significand n * 2 ^ d.log2) d
    have hlt : d < 2 ^ (d.log2 + 1) := Nat.lt_log2_self
    rw [Nat.pow_succ] at hlt
    rw [← hless]
    exact Nat.mul_lt_mul_of_pos_right (by omega) hpos
  generalize he : toMultiple (f.significand n * 2 ^ d.log2) d = e at herror ⊢
  have hscale : 2 * (e * 2 ^ s) < 2 ^ f.step n ∨
      2 * (e * 2 ^ s) = 2 ^ f.step n ∧ f.significand n % 2 = 0 ↔
        2 * e < 2 ^ d.log2 ∨ 2 * e = 2 ^ d.log2 ∧ f.significand n % 2 = 0 := by
    rw [← hless, ← Nat.mul_assoc, Nat.mul_lt_mul_right hpos,
      Nat.mul_left_inj (Nat.ne_of_gt hpos)]
  rw [hproduct, ← hscale]
  rcases roundDiv_mul_eq (f.significand n * 2 ^ d.log2) hd with habove | hbelow
  · rw [habove, he, Nat.add_mul, ← hmul]
    exact nearest_above_iff hn herror
  rw [he] at hbelow
  rcases Nat.eq_zero_or_pos e with hzero | hepos
  · subst hzero
    rw [Nat.add_zero] at hbelow
    rw [hbelow, ← hmul]
    simpa using nearest_above_iff hn herror
  refine nearest_below_iff hn (by omega) (fun hsig => ?_) ?_ (Nat.mul_pos hepos hpos) herror
  · -- the least significand is not that of the divisor, unless the divisor is a power of two
    have hsplit : 2 ^ (f.precision - 1) = 2 ^ d.log2 * 2 ^ (f.precision - 1 - d.log2) := by
      rw [← Nat.pow_add, Nat.add_sub_cancel' (by omega)]
    rw [hsig, hsplit] at hle
    have hd2 : d = 2 ^ d.log2 :=
      Nat.le_antisymm (Nat.le_of_mul_le_mul_right hle (Nat.two_pow_pos _)) hlog
    rw [← hd2, toMultiple, Nat.mul_mod_left, Nat.zero_min] at he
    exact Nat.ne_of_lt hepos he
  · rw [← Nat.add_mul, hbelow, ← hmul]

end

/-- Which numbers come back. -/
theorem nearest_mul_nearest_iff (hd : 0 < d) (hbits : d.log2 < f.precision) (hn : f.OnGrid n)
    (hstep : f.quantum + d.log2 < f.step n) (hpowers : f.PowersReturn d) :
    f.nearest (f.nearest n d * d) 1 = n ↔ f.Returns d (f.significand n) := by
  unfold Returns
  rcases Nat.lt_or_ge (f.significand n) (d * 2 ^ (f.precision - 1 - d.log2)) with hlt | hge
  · exact iff_of_true (nearest_mul_nearest_of_lt hd hbits hn hstep hpowers hlt) (.inl hlt)
  · rw [nearest_mul_nearest_iff_of_le hd hbits hn hstep hge, or_iff_right (Nat.not_lt.mpr hge)]

/-- A power of two only moves the exponent. -/
theorem returns_two_pow (f : Format) (b m : Nat) : f.Returns (2 ^ b) m := by
  refine .inr (.inl ?_)
  rw [Nat.log2_two_pow, toMultiple, Nat.mul_mod_left, Nat.zero_min]
  exact Nat.two_pow_pos b

end ColorAlgebra.Format
