import ColorAlgebra.Proofs.Binary.Rounding

/-!
# Rounding twice

A number that is rounded to a finer format first and from there to a coarser one may
end at another count than if it is rounded to the coarser format at once. It does so
in one case only: the finer count lies midway between two coarser ones, and the
coarser count that the number itself is nearest to has an odd significand.
-/

namespace ColorAlgebra

namespace Format

/-- The finer format has a longer significand, a lower least spacing and a higher top. -/
structure CoarserThan (f g : Format) : Prop where
  precision : f.precision < g.precision
  quantum : g.quantum < f.quantum
  top : f.top < g.top

theorem coarserThan_of_ne_double {f : Format} (h : f ≠ .double) : f.CoarserThan .double := by
  cases f with
  | half => exact ⟨by decide, by decide, by decide⟩
  | single => exact ⟨by decide, by decide, by decide⟩
  | double => exact absurd rfl h

/-- The second count is midway between the first, which is on the grid, and one of its
neighbours a spacing away. -/
def Midway (f : Format) (n v : Nat) : Prop :=
  2 * v = 2 * n + 2 ^ f.step n ∨ 2 * n = 2 * v + 2 ^ f.step n

/-- A count with an odd significand that is not nearest to the one midway. -/
def Slips (f : Format) (n v : Nat) : Prop :=
  f.significand n % 2 = 1 ∧ f.Midway n v

instance (f : Format) (n v : Nat) : Decidable (f.Slips n v) :=
  inferInstanceAs (Decidable (_ ∧ (_ ∨ _)))

variable {f g : Format}

/-! ## The finer grid -/

namespace CoarserThan

theorem onGrid (hfg : f.CoarserThan g) {n : Nat} (hn : f.OnGrid n) : g.OnGrid n := by
  have hprec := hfg.precision
  have hquantum := hfg.quantum
  refine Nat.dvd_trans (Nat.pow_dvd_pow 2 ?_) hn
  unfold step
  omega

/-- The middle between two neighbours is on the finer grid. -/
theorem onGrid_middle (hfg : f.CoarserThan g) {n : Nat} (hn : f.OnGrid n) :
    ∃ v, 2 * v = 2 * n + 2 ^ f.step n ∧ g.OnGrid v := by
  have hquantum := hfg.quantum
  have hstep := f.quantum_le_step n
  obtain ⟨k, hk⟩ : ∃ k, f.step n = k + 1 := ⟨f.step n - 1, by omega⟩
  have hmul := hn.eq_mul
  have hlt := f.significand_lt n
  rw [hk] at hmul
  refine ⟨(2 * f.significand n + 1) * 2 ^ k, ?_, onGrid_mul_two_pow ?_ (by omega)⟩
  · generalize f.significand n = s at hmul
    rw [hk, hmul]
    ring
  · calc 2 * f.significand n + 1 ≤ 2 ^ f.precision * 2 := by omega
      _ = 2 ^ (f.precision + 1) := (Nat.pow_succ ..).symm
      _ ≤ 2 ^ g.precision := Nat.pow_le_pow_right (by decide) hfg.precision

theorem representable (hfg : f.CoarserThan g) {n : Nat} (hn : f.Representable n) :
    g.Representable n :=
  ⟨Nat.lt_trans hn.1 (Nat.pow_lt_pow_right (by decide) hfg.top), hfg.onGrid hn.onGrid⟩

/-- What the coarser format has room for does not overflow in the finer one. -/
theorem nearest_lt (hfg : f.CoarserThan g) {num den : Nat} (hden : 0 < den)
    (h : f.nearest num den < 2 ^ f.top) : g.nearest num den < 2 ^ g.top := by
  have hquantum := f.quantum_add_precision_le_top
  have hfine := hfg.quantum
  have hle : (num / den : ℚ) ≤ (2 ^ f.top : Nat) := by
    by_contra hgt
    have := le_nearest hden (onGrid_two_pow (f := f) (by omega)) (le_of_lt (lt_of_not_ge hgt))
    omega
  exact Nat.lt_of_le_of_lt (nearest_le hden (onGrid_two_pow (by omega)) hle)
    (Nat.pow_lt_pow_right (by decide) hfg.top)

end CoarserThan

/-! ## Where the finer count lies -/

section
variable {num den : Nat}

/-- For a quotient not below its coarser count, the finer count is at most in the
middle above. -/
theorem nearest_above (hfg : f.CoarserThan g) (hden : 0 < den)
    (h : (f.nearest num den : ℚ) ≤ num / den) :
    f.nearest num den ≤ g.nearest num den ∧
      2 * g.nearest num den ≤ 2 * f.nearest num den + 2 ^ f.step (f.nearest num den) := by
  have hu := f.onGrid_nearest num den
  generalize hn : f.nearest num den = n at h hu ⊢
  have hpos := Nat.two_pow_pos (f.step n)
  have hhigh : (num / den : ℚ) < n + (2 ^ f.step n : Nat) := by
    by_contra hge
    have hnext : ((n + 2 ^ f.step n : Nat) : ℚ) ≤ num / den := by
      rw [Nat.cast_add]
      exact le_of_not_gt hge
    have := le_nearest hden hu.add hnext
    omega
  have hmid : 2 * (num / den : ℚ) ≤ 2 * n + (2 ^ f.step n : Nat) := by
    rcases (nearest_eq_lower_iff hden hu h hhigh).1 hn with hlt | ⟨heq, -⟩
    · exact le_of_lt hlt
    · exact le_of_eq heq
  obtain ⟨m, hm, hmg⟩ := hfg.onGrid_middle hu
  have hmq : (2 * m : ℚ) = 2 * n + (2 ^ f.step n : Nat) := by exact_mod_cast hm
  have htop : g.nearest num den ≤ m := nearest_le hden hmg (by linarith)
  exact ⟨le_nearest hden (hfg.onGrid hu) h, by omega⟩

/-- For a quotient below its coarser count, the finer count is at least in the middle
below. -/
theorem nearest_below (hfg : f.CoarserThan g) (hden : 0 < den)
    (h : (num / den : ℚ) < f.nearest num den) :
    ∃ l, f.nearest num den = l + 2 ^ f.step l ∧ f.OnGrid l ∧
      g.nearest num den ≤ f.nearest num den ∧ 2 * l + 2 ^ f.step l ≤ 2 * g.nearest num den := by
  have hu := f.onGrid_nearest num den
  generalize hn : f.nearest num den = n at h hu ⊢
  have hn0 : 0 < n := by
    have hq : (0 : ℚ) ≤ num / den := by positivity
    exact_mod_cast lt_of_le_of_lt hq h
  obtain ⟨l, hl, hlg⟩ := hu.sub hn0
  have hpos := Nat.two_pow_pos (f.step l)
  have hlow : (l : ℚ) ≤ num / den := by
    by_contra hge
    have := nearest_le hden hlg (le_of_lt (lt_of_not_ge hge))
    omega
  have hlq : (n : ℚ) = l + (2 ^ f.step l : Nat) := by exact_mod_cast hl
  have hmid : 2 * (l : ℚ) + (2 ^ f.step l : Nat) ≤ 2 * (num / den) := by
    rcases (nearest_eq_upper_iff hden hlg hlow (by rwa [← hlq])).1 (hn.trans hl) with hlt | ⟨heq, -⟩
    · exact le_of_lt hlt
    · exact le_of_eq heq.symm
  obtain ⟨m, hm, hmg⟩ := hfg.onGrid_middle hlg
  have hmq : (2 * m : ℚ) = 2 * l + (2 ^ f.step l : Nat) := by exact_mod_cast hm
  have hbot : m ≤ g.nearest num den := le_nearest hden hmg (by linarith)
  exact ⟨l, hl, hlg, nearest_le hden (hfg.onGrid hu) (le_of_lt h), by omega⟩

/-- The finer count is at most half a spacing away from the coarser one. -/
theorem nearest_close (hfg : f.CoarserThan g) (hden : 0 < den) :
    2 * g.nearest num den ≤ 2 * f.nearest num den + 2 ^ f.step (f.nearest num den) ∧
      2 * f.nearest num den ≤ 2 * g.nearest num den + 2 ^ f.step (f.nearest num den) := by
  rcases le_or_gt (f.nearest num den : ℚ) (num / den) with h | h
  · obtain ⟨hlow, hhigh⟩ := nearest_above hfg hden h
    omega
  · obtain ⟨l, hl, hlg, hhigh, hlow⟩ := nearest_below hfg hden h
    have hstep : 2 ^ f.step l ≤ 2 ^ f.step (f.nearest num den) :=
      Nat.pow_le_pow_right (by decide) (step_mono (by omega))
    omega

/-! ## Rounding twice -/

/-- Rounding to a finer format first changes nothing unless the count slips. -/
theorem nearest_nearest_eq_iff (hfg : f.CoarserThan g) (hden : 0 < den) :
    f.nearest (g.nearest num den) 1 = f.nearest num den ↔
      ¬ f.Slips (f.nearest num den) (g.nearest num den) := by
  have hu := f.onGrid_nearest num den
  rcases le_or_gt (f.nearest num den : ℚ) (num / den) with h | h
  · obtain ⟨hlow, hhigh⟩ := nearest_above hfg hden h
    generalize f.nearest num den = n at hu hlow hhigh ⊢
    have hpos := Nat.two_pow_pos (f.step n)
    rw [nearest_one_eq_lower_iff hu hlow (by omega)]
    unfold Slips Midway
    omega
  · obtain ⟨l, hl, hlg, hhigh, hlow⟩ := nearest_below hfg hden h
    generalize f.nearest num den = n at hl hu hhigh ⊢
    generalize g.nearest num den = v at hhigh hlow ⊢
    have hpos := Nat.two_pow_pos (f.step l)
    rcases Nat.eq_or_lt_of_le hhigh with rfl | hlt
    · refine iff_of_true (nearest_one_of_onGrid hu) ?_
      rintro ⟨-, hmidway⟩
      have hstep := Nat.two_pow_pos (f.step v)
      unfold Midway at hmidway
      omega
    · have hiff := nearest_one_eq_upper_iff hlg (show l ≤ v by omega) (by omega)
      have hsucc := hlg.step_add
      rw [← hl] at hiff hsucc
      rw [hiff]
      unfold Slips Midway
      rcases hsucc with ⟨hstep, hsig⟩ | ⟨hstep, hodd⟩
      · rw [hstep, hsig]
        omega
      · -- the spacing below is half of that at the count, and so no neighbour is midway
        rw [hstep, Nat.pow_succ]
        omega

end

/-- A count on the grid is nearest to what is less than a quarter of a spacing away. The
spacing below it may be half of its own. -/
theorem nearest_of_close {n v : Nat} (hn : f.OnGrid n) (hhigh : 4 * v < 4 * n + 2 ^ f.step n)
    (hlow : 4 * n < 4 * v + 2 ^ f.step n) : f.nearest v 1 = n := by
  rcases Nat.lt_or_ge v n with h | h
  · obtain ⟨l, hl, hlg⟩ := hn.sub (by omega)
    have hstep : 2 ^ f.step n ≤ 2 * 2 ^ f.step l := by
      rw [← Nat.pow_succ', hl]
      refine Nat.pow_le_pow_right (by decide) ?_
      rcases hlg.step_add with ⟨hs, -⟩ | ⟨hs, -⟩ <;> omega
    rw [hl, nearest_one_eq_upper_iff hlg (by omega) (by omega)]
    exact .inl (by omega)
  · rw [nearest_one_eq_lower_iff hn h (by omega)]
    exact .inl (by omega)

end Format

end ColorAlgebra
