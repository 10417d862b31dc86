import Mathlib.Algebra.Order.Field.Rat
import Mathlib.Data.Nat.Cast.Order.Field
import Mathlib.Tactic.FieldSimp
import Mathlib.Tactic.Linarith
import Mathlib.Tactic.NormNum
import Mathlib.Tactic.Positivity
import Mathlib.Tactic.Ring
import ColorAlgebra.Binary.Basic

/-!
# Rounding to a format

The count of units that a quotient is rounded to depends on the value of the
quotient alone, and follows its order.

* `NearestMultiple`: a multiple nearest to a number, a tie going to the even one.
* `Format.OnGrid`: the counts that the format has at their size, those past its
  largest magnitude included.

Results:
1. `Format.nearest_eq_mul`: rounding finds the nearest multiple of the spacing.
2. `Format.nearest_of_eq`: a count on the grid is its own rounding.
3. `Format.nearest_mono`, `Format.nearest_congr`.
4. `Format.nearest_eq_lower_iff`, `Format.nearest_eq_upper_iff`: which of two neighbours
   on the grid is nearest.
5. `Binary.round_of_nearest`, `Binary.round_of_top_le`: the rounded value, from its count.
-/

namespace ColorAlgebra

/-! ## Multiples -/

/-- `n * p` is a multiple of `p` nearest to `q`, and `n` is even if `q` lies midway
between two multiples. -/
structure NearestMultiple (p q : ℚ) (n : Nat) : Prop where
  low : (2 * n - 1) * p ≤ 2 * q
  high : 2 * q ≤ (2 * n + 1) * p
  tie : 2 * q = (2 * n - 1) * p ∨ 2 * q = (2 * n + 1) * p → n % 2 = 0

namespace NearestMultiple

theorem mono {p q q' : ℚ} {n n' : Nat} (hp : 0 < p) (h : NearestMultiple p q n)
    (h' : NearestMultiple p q' n') (hq : q ≤ q') : n ≤ n' := by
  by_contra hlt
  have hcast : (n' : ℚ) + 1 ≤ n := by exact_mod_cast Nat.lt_of_not_le hlt
  have hmul : (n' + 1 : ℚ) * p ≤ n * p := mul_le_mul_of_nonneg_right hcast (le_of_lt hp)
  have hlow := h.low
  have hhigh := h'.high
  -- all the inequalities are equalities, so both numbers are even, and they are neighbours
  have hn := h.tie (.inl (by linarith))
  have hn' := h'.tie (.inr (by linarith))
  have hsucc : (n : ℚ) * p = (n' + 1) * p := by linarith
  have : n = n' + 1 := by exact_mod_cast mul_right_cancel₀ (ne_of_gt hp) hsucc
  omega

theorem unique {p q : ℚ} {n n' : Nat} (hp : 0 < p) (h : NearestMultiple p q n)
    (h' : NearestMultiple p q n') : n = n' :=
  Nat.le_antisymm (h.mono hp h' (le_refl q)) (h'.mono hp h (le_refl q))

/-- A multiple less than half a spacing away is the nearest. -/
theorem of_lt {p q : ℚ} {n : Nat} (hlow : (2 * n - 1) * p < 2 * q)
    (hhigh : 2 * q < (2 * n + 1) * p) : NearestMultiple p q n := by
  refine ⟨le_of_lt hlow, le_of_lt hhigh, ?_⟩
  rintro (h | h)
  · exact absurd h (ne_of_gt hlow)
  · exact absurd h (ne_of_lt hhigh)

theorem of_eq {p q : ℚ} {n : Nat} (hp : 0 < p) (hq : q = n * p) : NearestMultiple p q n := by
  subst hq
  exact of_lt (by linarith) (by linarith)

/-- A multiple not above the number is nearest if it is less than half a spacing away, or
half a spacing and even. -/
theorem lower_iff {p q : ℚ} {n : Nat} (hp : 0 < p) (hlow : n * p ≤ q) :
    NearestMultiple p q n ↔
      2 * q < (2 * n + 1) * p ∨ (2 * q = (2 * n + 1) * p ∧ n % 2 = 0) := by
  constructor
  · intro h
    rcases lt_or_eq_of_le h.high with hlt | heq
    · exact .inl hlt
    · exact .inr ⟨heq, h.tie (.inr heq)⟩
  · rintro (h | ⟨h, heven⟩)
    · exact of_lt (by linarith) h
    · exact ⟨by linarith, le_of_eq h, fun _ => heven⟩

/-- The same for the next multiple, which is above the number. -/
theorem upper_iff {p q : ℚ} {n : Nat} (hhigh : q < (n + 1) * p) :
    NearestMultiple p q (n + 1) ↔
      (2 * n + 1) * p < 2 * q ∨ (2 * q = (2 * n + 1) * p ∧ n % 2 = 1) := by
  have hcast : ((n + 1 : Nat) : ℚ) = n + 1 := Nat.cast_add_one n
  have hhalf : (2 * ((n + 1 : Nat) : ℚ) - 1) * p = (2 * n + 1) * p := by
    rw [hcast]
    ring
  constructor
  · intro h
    have hle := h.low
    have htie := h.tie
    rw [hhalf] at hle htie
    rcases lt_or_eq_of_le hle with hlt | heq
    · exact .inl hlt
    · have heven := htie (.inl heq.symm)
      exact .inr ⟨heq.symm, by omega⟩
  · rintro (h | ⟨h, hodd⟩)
    · exact of_lt (by rwa [hhalf]) (by rw [hcast]; linarith)
    · exact ⟨by rw [hhalf, h], by rw [hcast]; linarith, fun _ => by omega⟩

end NearestMultiple

namespace Format

variable {f : Format}

/-- Rounding a quotient to a whole number finds the nearest multiple of any size. -/
theorem nearestMultiple_roundDiv {num den p : Nat} (hden : 0 < den) (hp : 0 < p) :
    NearestMultiple p (num / den : ℚ) (roundDiv num (den * p)) := by
  have hd : (den : ℚ) ≠ 0 := by exact_mod_cast Nat.ne_of_gt hden
  have hd0 : (0 : ℚ) < den := by exact_mod_cast hden
  have hp0 : (0 : ℚ) < p := by exact_mod_cast hp
  have hdiv : (num : ℚ) = den * p * (num / (den * p) : Nat) + (num % (den * p) : Nat) := by
    exact_mod_cast (Nat.div_add_mod num (den * p)).symm
  have hmod : num % (den * p) < den * p := Nat.mod_lt num (Nat.mul_pos hden hp)
  unfold roundDiv
  dsimp only
  generalize num / (den * p) = a at hdiv ⊢
  generalize num % (den * p) = r at hdiv hmod ⊢
  have hq : (num / den : ℚ) = p * a + r / den := by
    rw [hdiv]
    field_simp
  have hs0 : (0 : ℚ) ≤ r / den := by positivity
  have hscale : (r / den : ℚ) * den = r := div_mul_cancel₀ _ hd
  rw [hq]
  generalize (r / den : ℚ) = s at hs0 hscale ⊢
  split
  · next h =>
    have hr : (2 * r : ℚ) ≤ den * p := by
      exact_mod_cast show 2 * r ≤ den * p by omega
    have hs : 2 * s ≤ p := by nlinarith
    refine ⟨by linarith, by linarith, ?_⟩
    rintro (ht | ht)
    · exact absurd ht (by linarith)
    · have hsp : 2 * s = p := by linarith
      have hrp : (2 * r : ℚ) = den * p := by rw [← hscale, ← hsp]; ring
      rcases h with h | h
      · exact absurd (by exact_mod_cast hrp) (Nat.ne_of_lt h)
      · exact h.2
  · next h =>
    have hr : (den * p : ℚ) ≤ 2 * r := by
      exact_mod_cast show den * p ≤ 2 * r by omega
    have hrp : (r : ℚ) < den * p := by exact_mod_cast hmod
    have hs : (p : ℚ) ≤ 2 * s := by nlinarith
    have hsp : s < p := by nlinarith
    have hcast : ((a + 1 : Nat) : ℚ) = a + 1 := Nat.cast_add_one a
    refine ⟨by rw [hcast]; linarith, by rw [hcast]; linarith, ?_⟩
    rw [hcast]
    rintro (ht | ht)
    · have hsp' : 2 * s = p := by linarith
      have htie : (2 * r : ℚ) = den * p := by rw [← hscale, ← hsp']; ring
      have htie' : 2 * r = den * p := by exact_mod_cast htie
      omega
    · exact absurd ht (by linarith)

/-- A multiple of the divisor is divided exactly. -/
theorem roundDiv_mul {k d : Nat} (hd : 0 < d) : roundDiv (k * d) d = k := by
  unfold roundDiv
  simp [Nat.mul_div_cancel k hd, hd]

/-! ## Spacing -/

theorem step_mono {m n : Nat} (h : m ≤ n) : f.step m ≤ f.step n := by
  have hlog : m.log2 ≤ n.log2 := by
    by_cases h0 : m = 0
    · subst h0
      exact Nat.zero_le _
    · exact (Nat.le_log2 (by omega)).2 (Nat.le_trans (Nat.log2_self_le h0) h)
  unfold step
  omega

/-- Above the least spacing, a significand has its full length. -/
theorem two_pow_le_of_lt_step {n k : Nat} (hk : f.quantum ≤ k) (h : k < f.step n) :
    2 ^ (f.precision + k) ≤ n := by
  by_contra hn
  exact absurd (step_le_of_lt hk (Nat.lt_of_not_le hn)) (Nat.not_le_of_lt h)

/-- The size of a number with a full significand gives its spacing. -/
theorem step_eq {n s : Nat} (hs : f.quantum ≤ s) (hlow : 2 ^ (f.precision + s) ≤ 2 * n)
    (hhigh : n < 2 ^ (f.precision + s)) : f.step n = s := by
  refine Nat.le_antisymm (step_le_of_lt hs hhigh) ?_
  by_contra hlt
  have hless := f.lt_two_pow_step n
  have hpow : 2 * 2 ^ (f.precision + f.step n) ≤ 2 ^ (f.precision + s) := by
    rw [← Nat.pow_succ']
    exact Nat.pow_le_pow_right (by decide) (by omega)
  omega

/-- The same for a quotient. -/
theorem step_quotient {n d s : Nat} (hd : 0 < d) (hs : f.quantum ≤ s)
    (hlow : 2 ^ (f.precision - 1 + s) * d ≤ n) (hhigh : n < 2 ^ (f.precision + s) * d) :
    f.step (n / d) = s := by
  have hprec := f.precision_pos
  have hdouble : 2 ^ (f.precision + s) = 2 * 2 ^ (f.precision - 1 + s) := by
    rw [← Nat.pow_succ']
    congr 1
    omega
  refine step_eq hs ?_ ((Nat.div_lt_iff_lt_mul hd).mpr hhigh)
  rw [hdouble]
  exact Nat.mul_le_mul_left 2 ((Nat.le_div_iff_mul_le hd).mpr hlow)

/-! ## Nearest counts -/

/-- The count lies on the grid that the format has at its size. -/
def OnGrid (f : Format) (n : Nat) : Prop := 2 ^ f.step n ∣ n

theorem Representable.onGrid {n : Nat} (h : f.Representable n) : f.OnGrid n := h.2

theorem onGrid_nearest (f : Format) (num den : Nat) : f.OnGrid (f.nearest num den) :=
  f.two_pow_step_dvd_nearest num den

theorem onGrid_mul_two_pow {m k : Nat} (hm : m ≤ 2 ^ f.precision) (hk : f.quantum ≤ k) :
    f.OnGrid (m * 2 ^ k) :=
  two_pow_step_dvd hm hk

theorem onGrid_two_pow {k : Nat} (hk : f.quantum ≤ k) : f.OnGrid (2 ^ k) := by
  have h := onGrid_mul_two_pow (Nat.one_le_two_pow (n := f.precision)) hk
  rwa [Nat.one_mul] at h

theorem nearest_eq_mul (f : Format) (num : Nat) {den : Nat} (hden : 0 < den) :
    ∃ n, f.nearest num den = n * 2 ^ f.step (num / den) ∧ n ≤ 2 ^ f.precision ∧
      NearestMultiple (2 ^ f.step (num / den) : Nat) (num / den : ℚ) n := by
  refine ⟨_, rfl, ?_, nearestMultiple_roundDiv hden (Nat.two_pow_pos _)⟩
  have hr := roundDiv_le_succ num (den * 2 ^ f.step (num / den))
  have hq := f.quotient_lt num den
  omega

/-- A quotient that is a count on the grid is rounded to that count. -/
theorem nearest_of_eq {num den n : Nat} (hden : 0 < den) (hn : f.OnGrid n)
    (h : (num / den : ℚ) = n) : f.nearest num den = n := by
  have hd : (den : ℚ) ≠ 0 := by exact_mod_cast Nat.ne_of_gt hden
  have hnum : num = n * den := by exact_mod_cast (div_eq_iff hd).1 h
  have hstep : num / den = n := by rw [hnum, Nat.mul_div_cancel n hden]
  obtain ⟨m, hm, -, hnear⟩ := f.nearest_eq_mul num hden
  rw [hstep] at hm hnear
  obtain ⟨m', hm'⟩ := hn
  have hpos : (0 : ℚ) < (2 ^ f.step n : Nat) := by exact_mod_cast Nat.two_pow_pos _
  have heq : (num / den : ℚ) = m' * (2 ^ f.step n : Nat) := by
    rw [h, mul_comm]
    exact_mod_cast hm'
  rw [hm, hnear.unique hpos (.of_eq hpos heq), Nat.mul_comm]
  exact hm'.symm

theorem nearest_one_of_onGrid {n : Nat} (hn : f.OnGrid n) : f.nearest n 1 = n :=
  nearest_of_eq Nat.one_pos hn (by simp)

theorem div_le_div {num den num' den' : Nat} (hden : 0 < den) (hden' : 0 < den')
    (h : (num / den : ℚ) ≤ num' / den') : num / den ≤ num' / den' := by
  have hd : (0 : ℚ) < den := by exact_mod_cast hden
  have hd' : (0 : ℚ) < den' := by exact_mod_cast hden'
  rw [Nat.le_div_iff_mul_le hden']
  have hfloor : ((num / den : Nat) : ℚ) ≤ num / den := Nat.cast_div_le
  have hle : ((num / den : Nat) : ℚ) * den' ≤ num' :=
    (le_div_iff₀ hd').1 (le_trans hfloor h)
  exact_mod_cast hle

/-- Rounding follows the order of the quotients. -/
theorem nearest_mono {num den num' den' : Nat} (hden : 0 < den) (hden' : 0 < den')
    (h : (num / den : ℚ) ≤ num' / den') : f.nearest num den ≤ f.nearest num' den' := by
  obtain ⟨n, hn, hle, hnear⟩ := f.nearest_eq_mul num hden
  obtain ⟨n', hn', -, hnear'⟩ := f.nearest_eq_mul num' hden'
  have hstep := step_mono (f := f) (div_le_div hden hden' h)
  have hquantum := f.quantum_le_step (num / den)
  rw [hn, hn']
  rcases Nat.eq_or_lt_of_le hstep with heq | hlt
  · rw [← heq] at hnear' ⊢
    have hpos : (0 : ℚ) < (2 ^ f.step (num / den) : Nat) := by exact_mod_cast Nat.two_pow_pos _
    exact Nat.mul_le_mul_right _ (hnear.mono hpos hnear' h)
  · -- the power of two at which the wider spacing starts lies between the two counts
    have hprec := f.precision_pos
    generalize f.step (num / den) = k at *
    generalize hk' : f.step (num' / den') = k' at *
    obtain ⟨j, rfl⟩ : ∃ j, k' = j + 1 := ⟨k' - 1, by omega⟩
    have hbinade : 2 ^ (f.precision + j) ≤ num' / den' :=
      two_pow_le_of_lt_step (by omega) (by rw [hk']; exact Nat.lt_succ_self j)
    have hpow : 2 ^ (f.precision + j) = 2 ^ (f.precision - 1) * 2 ^ (j + 1) := by
      rw [← Nat.pow_add]
      congr 1
      omega
    have hpos : (0 : ℚ) < (2 ^ (j + 1) : Nat) := by exact_mod_cast Nat.two_pow_pos _
    have hfloor : ((num' / den' : Nat) : ℚ) ≤ num' / den' := Nat.cast_div_le
    have hlow : 2 ^ (f.precision - 1) ≤ n' := by
      refine (NearestMultiple.of_eq hpos rfl).mono hpos hnear' (le_trans ?_ hfloor)
      exact_mod_cast hpow ▸ hbinade
    calc n * 2 ^ k ≤ 2 ^ f.precision * 2 ^ j :=
          Nat.mul_le_mul hle (Nat.pow_le_pow_right (by decide) (by omega))
      _ = 2 ^ (f.precision - 1) * 2 ^ (j + 1) := by rw [← Nat.pow_add, hpow]
      _ ≤ n' * 2 ^ (j + 1) := Nat.mul_le_mul_right _ hlow

theorem nearest_congr {num den num' den' : Nat} (hden : 0 < den) (hden' : 0 < den')
    (h : (num / den : ℚ) = num' / den') : f.nearest num den = f.nearest num' den' :=
  Nat.le_antisymm (nearest_mono hden hden' (le_of_eq h)) (nearest_mono hden' hden (le_of_eq h.symm))

/-- What lies at or above a count on the grid is rounded to that count or above. -/
theorem le_nearest {num den n : Nat} (hden : 0 < den) (hn : f.OnGrid n)
    (h : (n : ℚ) ≤ num / den) : n ≤ f.nearest num den := by
  rw [← nearest_one_of_onGrid hn]
  exact nearest_mono Nat.one_pos hden (by simpa using h)

/-- What lies at or below a count on the grid is rounded to that count or below. -/
theorem nearest_le {num den n : Nat} (hden : 0 < den) (hn : f.OnGrid n)
    (h : (num / den : ℚ) ≤ n) : f.nearest num den ≤ n := by
  rw [← nearest_one_of_onGrid hn]
  exact nearest_mono hden Nat.one_pos (by simpa using h)

/-! ## Neighbours on the grid -/

/-- How many spacings a count is worth. -/
def significand (f : Format) (n : Nat) : Nat := n / 2 ^ f.step n

theorem significand_lt (f : Format) (n : Nat) : f.significand n < 2 ^ f.precision := by
  have h := f.lt_two_pow_step n
  rw [Nat.pow_add] at h
  exact (Nat.div_lt_iff_lt_mul (Nat.two_pow_pos _)).2 h

theorem OnGrid.eq_mul {n : Nat} (hn : f.OnGrid n) : n = f.significand n * 2 ^ f.step n :=
  (Nat.div_mul_cancel hn).symm

theorem OnGrid.add_eq_mul {n : Nat} (hn : f.OnGrid n) :
    n + 2 ^ f.step n = (f.significand n + 1) * 2 ^ f.step n := by
  rw [Nat.succ_mul, ← hn.eq_mul]

/-- The count on the grid after another. -/
theorem OnGrid.add {n : Nat} (hn : f.OnGrid n) : f.OnGrid (n + 2 ^ f.step n) := by
  rw [hn.add_eq_mul]
  exact onGrid_mul_two_pow (f.significand_lt n) (f.quantum_le_step n)

/-- The spacing at the next count is the same, or twice that of a full significand. -/
theorem OnGrid.step_add {n : Nat} (hn : f.OnGrid n) :
    (f.step (n + 2 ^ f.step n) = f.step n ∧
        f.significand (n + 2 ^ f.step n) = f.significand n + 1) ∨
      (f.step (n + 2 ^ f.step n) = f.step n + 1 ∧ f.significand n % 2 = 1) := by
  have hnext := hn.add_eq_mul
  have hle : f.step (n + 2 ^ f.step n) ≤ f.step n + 1 := by
    refine step_le_of_lt (Nat.le_succ_of_le (f.quantum_le_step n)) ?_
    have hlt := f.lt_two_pow_step n
    have hpow : 2 ^ f.step n ≤ 2 ^ (f.precision + f.step n) :=
      Nat.pow_le_pow_right (by decide) (Nat.le_add_left _ _)
    rw [← Nat.add_assoc, Nat.pow_succ]
    omega
  have hge : f.step n ≤ f.step (n + 2 ^ f.step n) := step_mono (Nat.le_add_right _ _)
  have hmul := hn.add.eq_mul
  have hpos := Nat.two_pow_pos (f.step n)
  rcases Nat.eq_or_lt_of_le hge with heq | hlt
  · refine .inl ⟨heq.symm, ?_⟩
    rw [← heq] at hmul
    exact (Nat.mul_right_cancel hpos (hnext.symm.trans hmul)).symm
  · have hstep : f.step (n + 2 ^ f.step n) = f.step n + 1 := by omega
    refine .inr ⟨hstep, ?_⟩
    rw [hstep, Nat.pow_succ', ← Nat.mul_assoc] at hmul
    have hodd := Nat.mul_right_cancel hpos (hnext.symm.trans hmul)
    omega

theorem OnGrid.cast_eq_mul {n : Nat} (hn : f.OnGrid n) :
    (n : ℚ) = f.significand n * (2 ^ f.step n : Nat) := by
  exact_mod_cast hn.eq_mul

/-- Twice the middle between a count and the next one. -/
theorem OnGrid.middle_eq {n : Nat} (hn : f.OnGrid n) :
    (2 * (f.significand n : ℚ) + 1) * (2 ^ f.step n : Nat) = 2 * n + (2 ^ f.step n : Nat) := by
  rw [hn.cast_eq_mul]
  ring

/-- From a count on the grid up to the next one the spacing does not change. -/
theorem nearest_eq_mul_iff {num den n m : Nat} (hden : 0 < den) (hn : f.OnGrid n)
    (hlow : (n : ℚ) ≤ num / den) (hhigh : (num / den : ℚ) < n + (2 ^ f.step n : Nat)) :
    f.nearest num den = m * 2 ^ f.step n ↔
      NearestMultiple (2 ^ f.step n : Nat) (num / den : ℚ) m := by
  have hd : (0 : ℚ) < den := by exact_mod_cast hden
  have hge : n ≤ num / den := by
    rw [Nat.le_div_iff_mul_le hden]
    exact_mod_cast (le_div_iff₀ hd).1 hlow
  have hlt : num / den < n + 2 ^ f.step n := by
    rw [Nat.div_lt_iff_lt_mul hden]
    exact_mod_cast (div_lt_iff₀ hd).1 hhigh
  have hnext : n + 2 ^ f.step n ≤ 2 ^ (f.precision + f.step n) := by
    calc n + 2 ^ f.step n = (f.significand n + 1) * 2 ^ f.step n := hn.add_eq_mul
      _ ≤ 2 ^ f.precision * 2 ^ f.step n := Nat.mul_le_mul_right _ (f.significand_lt n)
      _ = 2 ^ (f.precision + f.step n) := (Nat.pow_add ..).symm
  have hstep : f.step (num / den) = f.step n :=
    Nat.le_antisymm (step_le_of_lt (f.quantum_le_step n) (Nat.lt_of_lt_of_le hlt hnext))
      (step_mono hge)
  obtain ⟨k, hk, -, hnear⟩ := f.nearest_eq_mul num hden
  rw [hstep] at hk hnear
  have hpos : 0 < 2 ^ f.step n := Nat.two_pow_pos _
  rw [hk, Nat.mul_left_inj (Nat.ne_of_gt hpos)]
  constructor
  · rintro rfl
    exact hnear
  · intro h
    exact hnear.unique (by exact_mod_cast hpos) h

/-- Between two neighbours on the grid, the lower one is nearest below the middle, and
in the middle if its significand is even. -/
theorem nearest_eq_lower_iff {num den n : Nat} (hden : 0 < den) (hn : f.OnGrid n)
    (hlow : (n : ℚ) ≤ num / den) (hhigh : (num / den : ℚ) < n + (2 ^ f.step n : Nat)) :
    f.nearest num den = n ↔ 2 * (num / den : ℚ) < 2 * n + (2 ^ f.step n : Nat) ∨
      (2 * (num / den : ℚ) = 2 * n + (2 ^ f.step n : Nat) ∧ f.significand n % 2 = 0) := by
  have hiff := nearest_eq_mul_iff (m := f.significand n) hden hn hlow hhigh
  have hpos : (0 : ℚ) < (2 ^ f.step n : Nat) := by exact_mod_cast Nat.two_pow_pos _
  rw [← hn.eq_mul] at hiff
  rw [hiff, NearestMultiple.lower_iff hpos (by rwa [← hn.cast_eq_mul]), hn.middle_eq]

/-- The upper one is nearest above the middle, and in the middle if the significand of
the lower one is odd. -/
theorem nearest_eq_upper_iff {num den n : Nat} (hden : 0 < den) (hn : f.OnGrid n)
    (hlow : (n : ℚ) ≤ num / den) (hhigh : (num / den : ℚ) < n + (2 ^ f.step n : Nat)) :
    f.nearest num den = n + 2 ^ f.step n ↔ 2 * (n : ℚ) + (2 ^ f.step n : Nat) < 2 * (num / den) ∨
      (2 * (num / den : ℚ) = 2 * n + (2 ^ f.step n : Nat) ∧ f.significand n % 2 = 1) := by
  have hiff := nearest_eq_mul_iff (m := f.significand n + 1) hden hn hlow hhigh
  have hbelow : (num / den : ℚ) < (f.significand n + 1) * (2 ^ f.step n : Nat) := by
    rwa [add_mul, one_mul, ← hn.cast_eq_mul]
  rw [← hn.add_eq_mul] at hiff
  rw [hiff, NearestMultiple.upper_iff hbelow, hn.middle_eq]

/-- The same for a whole number of units. -/
theorem nearest_one_eq_lower_iff {n v : Nat} (hn : f.OnGrid n) (hlow : n ≤ v)
    (hhigh : v < n + 2 ^ f.step n) :
    f.nearest v 1 = n ↔ 2 * v < 2 * n + 2 ^ f.step n ∨
      (2 * v = 2 * n + 2 ^ f.step n ∧ f.significand n % 2 = 0) := by
  have hiff := @nearest_eq_lower_iff f v 1 n Nat.one_pos hn
  rw [Nat.cast_one, div_one] at hiff
  exact_mod_cast hiff (by exact_mod_cast hlow) (by exact_mod_cast hhigh)

theorem nearest_one_eq_upper_iff {n v : Nat} (hn : f.OnGrid n) (hlow : n ≤ v)
    (hhigh : v < n + 2 ^ f.step n) :
    f.nearest v 1 = n + 2 ^ f.step n ↔ 2 * n + 2 ^ f.step n < 2 * v ∨
      (2 * v = 2 * n + 2 ^ f.step n ∧ f.significand n % 2 = 1) := by
  have hiff := @nearest_eq_upper_iff f v 1 n Nat.one_pos hn
  rw [Nat.cast_one, div_one] at hiff
  exact_mod_cast hiff (by exact_mod_cast hlow) (by exact_mod_cast hhigh)

/-- The count on the grid before a positive one. -/
theorem OnGrid.sub {n : Nat} (hn : f.OnGrid n) (h0 : 0 < n) :
    ∃ m, n = m + 2 ^ f.step m ∧ f.OnGrid m := by
  have hstep : f.step (n - 1) ≤ f.step n := step_mono (Nat.sub_le n 1)
  have hdvd : 2 ^ f.step (n - 1) ∣ n := Nat.dvd_trans (Nat.pow_dvd_pow 2 hstep) hn
  have hle : 2 ^ f.step (n - 1) ≤ n := Nat.le_of_dvd h0 hdvd
  have hpos := Nat.two_pow_pos (f.step (n - 1))
  have hsame : f.step (n - 2 ^ f.step (n - 1)) = f.step (n - 1) := by
    refine Nat.le_antisymm (step_mono (by omega)) ?_
    by_contra hlt
    obtain ⟨j, hj⟩ : ∃ j, f.step (n - 1) = j + 1 := ⟨f.step (n - 1) - 1, by omega⟩
    have hquantum := f.quantum_le_step (n - 2 ^ f.step (n - 1))
    have hbelow := f.lt_two_pow_step (n - 2 ^ f.step (n - 1))
    have hbinade : 2 ^ (f.precision + j) ≤ n - 1 := two_pow_le_of_lt_step (by omega) (by omega)
    have hpow : 2 ^ (f.precision + f.step (n - 2 ^ f.step (n - 1))) ≤ 2 ^ (f.precision + j) :=
      Nat.pow_le_pow_right (by decide) (by omega)
    -- the start of the wider spacing is a multiple of it, as `n` is, and is less than `n`
    have hmul : 2 ^ f.step (n - 1) ∣ 2 ^ (f.precision + j) := by
      have hprec := f.precision_pos
      exact Nat.pow_dvd_pow 2 (by omega)
    have hgap : 2 ^ f.step (n - 1) ≤ n - 2 ^ (f.precision + j) :=
      Nat.le_of_dvd (by omega) (Nat.dvd_sub hdvd hmul)
    omega
  refine ⟨n - 2 ^ f.step (n - 1), by rw [hsame]; omega, ?_⟩
  unfold OnGrid
  rw [hsame]
  exact Nat.dvd_sub hdvd (Nat.dvd_refl _)

/-! ## Ends of the range -/

/-- Less than half a unit is rounded to zero. -/
theorem nearest_eq_zero {num den : Nat} (h : 2 * num < den) : f.nearest num den = 0 := by
  have hpow := Nat.two_pow_pos (f.step (num / den))
  have hlt : 2 * num < den * 2 ^ f.step (num / den) :=
    Nat.lt_of_lt_of_le h (Nat.le_mul_of_pos_right den hpow)
  unfold nearest roundDiv
  dsimp only
  rw [Nat.div_eq_of_lt (b := den * 2 ^ f.step (num / den)) (by omega),
    Nat.mod_eq_of_lt (by omega), if_pos (.inl hlt), Nat.zero_mul]

theorem two_pow_top_le_nearest {num den : Nat} (hden : 0 < den)
    (h : ((2 ^ f.top : Nat) : ℚ) ≤ num / den) : 2 ^ f.top ≤ f.nearest num den :=
  le_nearest hden (onGrid_two_pow (by cases f <;> decide)) h

theorem top_le_double (f : Format) : f.top ≤ Format.double.top := by
  cases f <;> decide

end Format

/-! ## Rounded values -/

namespace Binary

variable {f : Format} {negative : Bool} {num den : Nat}

theorem round_of_nearest {n : Nat} (h : f.Representable n) (hn : f.nearest num den = n) :
    round negative num den = finite negative n h := by
  subst hn
  unfold round
  rw [dif_pos h.1]

/-- What is rounded to the same number of units is the same value. -/
theorem round_congr {num' den' : Nat} (h : f.nearest num den = f.nearest num' den') :
    (round negative num den : Binary f) = round negative num' den' := by
  unfold round
  simp only [h]

theorem round_of_top_le (h : 2 ^ f.top ≤ f.nearest num den) :
    round negative num den = (infinity negative : Binary f) := by
  unfold round
  rw [dif_neg (Nat.not_lt.2 h)]

theorem nearest_of_round {n : Nat} {h : f.Representable n}
    (hr : round negative num den = finite negative n h) : f.nearest num den = n := by
  unfold round at hr
  split at hr
  · exact (Binary.finite.inj hr).2
  · cases hr

/-- A finite rank is that of one finite number of the sign. -/
theorem nearest_of_rank_round {n : Nat} (hn : f.Representable n)
    (hr : (round false num den : Binary f).rank = some (n : Int)) : f.nearest num den = n := by
  unfold round at hr
  split at hr
  · rw [rank_finite] at hr
    exact Int.ofNat.inj (Option.some.inj hr)
  · have htop : 2 ^ f.top ≤ 2 ^ Format.double.top :=
      Nat.pow_le_pow_right (by decide) f.top_le_double
    have heq : ((2 ^ Format.double.top : Nat) : Int) = n := by
      rw [Nat.cast_pow]
      exact Option.some.inj hr
    have hlt := hn.1
    omega

end Binary

end ColorAlgebra
