import Mathlib.Algebra.Order.Group.Unbundled.Abs
import ColorAlgebra.Proofs.Binary.Rounding

namespace ColorAlgebra.Format

variable {f : Format}

/-- No count on the grid is nearer to `q` than `n`, and if another one is as near, then
`n` is the one with the even significand. The grid goes on above the largest finite
magnitude, so that a number is not drawn to it from far above. -/
structure IsNearest (f : Format) (q : ℚ) (n : Nat) : Prop where
  onGrid : f.OnGrid n
  least : ∀ m, f.OnGrid m → |q - n| ≤ |q - m|
  even : ∀ m, f.OnGrid m → m ≠ n → |q - n| = |q - m| → f.significand n % 2 = 0

/-! ## Neighbours -/

/-- There is nothing between a count on the grid and the next. -/
theorem OnGrid.add_le {n m : Nat} (hn : f.OnGrid n) (hm : f.OnGrid m) (hlt : n < m) :
    n + 2 ^ f.step n ≤ m := by
  have hdvd : 2 ^ f.step n ∣ m :=
    Nat.dvd_trans (Nat.pow_dvd_pow 2 (step_mono (Nat.le_of_lt hlt))) hm
  have hgap := Nat.le_of_dvd (Nat.sub_pos_of_lt hlt) (Nat.dvd_sub hdvd hn)
  omega

/-- A count on the grid is not above another, or not below the one after that. -/
theorem OnGrid.le_or_add_le {n m : Nat} (hn : f.OnGrid n) (hm : f.OnGrid m) :
    (m : ℚ) ≤ n ∨ (n : ℚ) + (2 ^ f.step n : Nat) ≤ m := by
  rcases Nat.lt_or_ge n m with hlt | hge
  · exact .inr (by exact_mod_cast hn.add_le hm hlt)
  · exact .inl (by exact_mod_cast hge)

/-- The significands of neighbours differ in parity. -/
theorem OnGrid.significand_add {n : Nat} (hn : f.OnGrid n) :
    f.significand (n + 2 ^ f.step n) % 2 = (f.significand n + 1) % 2 := by
  rcases hn.step_add with ⟨-, hsig⟩ | ⟨hstep, hodd⟩
  · rw [hsig]
  -- the significand is full, and the next one is the least with a leading one
  · have hnext := hn.add_eq_mul
    have hmul := hn.add.eq_mul
    have hpos := Nat.two_pow_pos (f.step n)
    have hfull : 2 ^ (f.precision + f.step n) ≤ n + 2 ^ f.step n :=
      two_pow_le_of_lt_step (f.quantum_le_step n) (by omega)
    rw [hnext, Nat.pow_add] at hfull
    have hfull := Nat.le_of_mul_le_mul_right hfull hpos
    have hlt := f.significand_lt n
    rw [hstep, Nat.pow_succ', ← Nat.mul_assoc] at hmul
    have htwice := Nat.mul_right_cancel hpos (hnext.symm.trans hmul)
    obtain ⟨k, hk⟩ : ∃ k, f.precision = k + 2 := ⟨f.precision - 2, by cases f <;> rfl⟩
    rw [hk, Nat.pow_add] at hfull hlt
    omega

/-! ## The nearest count -/

/-- Between two neighbours, the lower one is nearest below the middle, and in the middle
if its significand is even. -/
theorem isNearest_lower {q : ℚ} {n : Nat} (hn : f.OnGrid n) (hlow : (n : ℚ) ≤ q)
    (h : 2 * q < 2 * n + (2 ^ f.step n : Nat) ∨
      2 * q = 2 * n + (2 ^ f.step n : Nat) ∧ f.significand n % 2 = 0) : f.IsNearest q n := by
  have hdist : |q - n| = q - n := abs_of_nonneg (by linarith)
  refine ⟨hn, fun m hm => ?_, fun m hm hne htie => ?_⟩
  · have hright := le_abs_self (q - m)
    have hleft := neg_le_abs (q - m)
    rcases hn.le_or_add_le hm with hle | hge
    · linarith
    · rcases h with h | ⟨h, -⟩ <;> linarith
  · have hright := le_abs_self (q - m)
    have hleft := neg_le_abs (q - m)
    rcases hn.le_or_add_le hm with hle | hge
    · have hlt : (m : ℚ) < n := lt_of_le_of_ne hle (by exact_mod_cast hne)
      linarith
    · rcases h with h | ⟨-, heven⟩
      · linarith
      · exact heven

/-- The upper one is nearest above the middle, and in the middle if the significand of
the lower one is odd. -/
theorem isNearest_upper {q : ℚ} {n : Nat} (hn : f.OnGrid n)
    (hhigh : q < n + (2 ^ f.step n : Nat))
    (h : 2 * (n : ℚ) + (2 ^ f.step n : Nat) < 2 * q ∨
      2 * q = 2 * n + (2 ^ f.step n : Nat) ∧ f.significand n % 2 = 1) :
    f.IsNearest q (n + 2 ^ f.step n) := by
  have hcast : ((n + 2 ^ f.step n : Nat) : ℚ) = n + (2 ^ f.step n : Nat) := Nat.cast_add _ _
  have hdist : |q - (n + 2 ^ f.step n : Nat)| = n + (2 ^ f.step n : Nat) - q := by
    rw [hcast, abs_of_nonpos (by linarith)]
    ring
  refine ⟨hn.add, fun m hm => ?_, fun m hm hne htie => ?_⟩
  · have hright := le_abs_self (q - m)
    have hleft := neg_le_abs (q - m)
    rcases hn.le_or_add_le hm with hle | hge
    · rcases h with h | ⟨h, -⟩ <;> linarith
    · linarith
  · have hright := le_abs_self (q - m)
    have hleft := neg_le_abs (q - m)
    rcases hn.le_or_add_le hm with hle | hge
    · rcases h with h | ⟨-, hodd⟩
      · linarith
      · rw [hn.significand_add]
        omega
    · have hlt : (n : ℚ) + (2 ^ f.step n : Nat) < m :=
        lt_of_le_of_ne hge fun heq => hne (by exact_mod_cast heq.symm)
      linarith

theorem isNearest_nearest {num den : Nat} (hden : 0 < den) :
    f.IsNearest (num / den) (f.nearest num den) := by
  generalize hn : f.nearest num den = n
  have hgrid : f.OnGrid n := hn ▸ f.onGrid_nearest num den
  rcases le_or_gt (n : ℚ) (num / den) with hle | hgt
  · have hnext : (num / den : ℚ) < n + (2 ^ f.step n : Nat) := by
      by_contra hge
      have hpos := Nat.two_pow_pos (f.step n)
      have := le_nearest hden hgrid.add (by exact_mod_cast not_lt.mp hge)
      omega
    exact isNearest_lower hgrid hle ((nearest_eq_lower_iff hden hgrid hle hnext).mp hn)
  · have h0 : 0 < n := by
      by_contra hzero
      have hnonneg : (0 : ℚ) ≤ num / den := by positivity
      rw [Nat.eq_zero_of_not_pos hzero, Nat.cast_zero] at hgt
      linarith
    obtain ⟨m, rfl, hm⟩ := hgrid.sub h0
    have hle : (m : ℚ) ≤ num / den := by
      by_contra hlt
      have hpos := Nat.two_pow_pos (f.step m)
      have := nearest_le hden hm (le_of_lt (not_le.mp hlt))
      omega
    rw [Nat.cast_add] at hgt
    exact isNearest_upper hm hgt ((nearest_eq_upper_iff hden hm hle hgt).mp hn)

/-- The opposite of the nearest count is as near only if the count is zero. -/
theorem IsNearest.eq_zero_of_opposite {q : ℚ} {n : Nat} (h : f.IsNearest q n) (h0 : 0 ≤ q)
    (htie : |q - n| = n + q) : (n : ℚ) = 0 := by
  have hzero := h.least 0 f.representable_zero.onGrid
  rw [Nat.cast_zero, sub_zero, abs_of_nonneg h0, htie] at hzero
  exact le_antisymm (by linarith) (Nat.cast_nonneg n)

/-- Two counts that are equally near are neighbours, and one significand is odd. -/
theorem IsNearest.not_lt {q : ℚ} {n m : Nat} (hn : f.IsNearest q n) (hm : f.IsNearest q m) :
    ¬ n < m := by
  intro hlt
  have htie : |q - n| = |q - m| := le_antisymm (hn.least m hm.onGrid) (hm.least n hn.onGrid)
  have heven := hn.even m hm.onGrid (Nat.ne_of_gt hlt) htie
  have heven' := hm.even n hn.onGrid (Nat.ne_of_lt hlt) htie.symm
  have hcast : (n : ℚ) < m := by exact_mod_cast hlt
  have hmiddle : 2 * q = n + m := by
    rcases abs_eq_abs.mp htie with h | h <;> linarith
  rcases Nat.lt_or_eq_of_le (hn.onGrid.add_le hm.onGrid hlt) with hinside | hnext
  · -- what lies between them on the grid would be nearer
    have hleast := hn.least _ hn.onGrid.add
    have hpos : (n : ℚ) < (n + 2 ^ f.step n : Nat) := by
      exact_mod_cast Nat.lt_add_of_pos_right (Nat.two_pow_pos _)
    have hlt : ((n + 2 ^ f.step n : Nat) : ℚ) < m := by exact_mod_cast hinside
    have hcloser : |q - (n + 2 ^ f.step n : Nat)| < q - n := abs_lt.mpr ⟨by linarith, by linarith⟩
    rw [abs_of_nonneg (by linarith : (0 : ℚ) ≤ q - n)] at hleast
    linarith
  · have hparity := hn.onGrid.significand_add
    rw [hnext] at hparity
    omega

/-- Rounding finds the nearest count. -/
theorem nearest_eq_iff {num den n : Nat} (hden : 0 < den) :
    f.nearest num den = n ↔ f.IsNearest (num / den) n := by
  constructor
  · rintro rfl
    exact isNearest_nearest hden
  · intro h
    have hnear : f.IsNearest (num / den) (f.nearest num den) := isNearest_nearest hden
    exact Nat.le_antisymm (Nat.le_of_not_lt (h.not_lt hnear)) (Nat.le_of_not_lt (hnear.not_lt h))

end ColorAlgebra.Format
