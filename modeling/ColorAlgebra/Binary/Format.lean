/-!
# Binary interchange formats

Every magnitude that a half, single or double precision number can have is a
whole multiple of one unit, `2 ^ (-1074)`, the least positive double. This
module says which multiples each format has.
-/

namespace ColorAlgebra

-- Powers of natural numbers are those of core, here and in every module that imports this
-- one: with all of Mathlib in scope there is a second instance, equal to this one.
attribute [instance (2000)] instPowNat

/-- The three formats that a color channel can be stored in. -/
inductive Format where
  | half
  | single
  | double
  deriving DecidableEq, Repr

/-- Exponent of the unit: one is `2 ^ unitExponent` units. -/
def unitExponent : Nat := 1074

/-- The number one, in units. It is a power of more than three hundred digits, which no
proof has to write out. -/
@[irreducible]
def unitsPerOne : Nat := 2 ^ unitExponent

theorem unitsPerOne_eq : unitsPerOne = 2 ^ unitExponent := by
  unfold unitsPerOne
  rfl

theorem two_pow_mul_unitsPerOne (k : Nat) : 2 ^ k * unitsPerOne = 2 ^ (k + unitExponent) := by
  rw [unitsPerOne_eq, Nat.pow_add]

namespace Format

/-- Bits of the significand, the leading one included. -/
def precision : Format → Nat
  | half => 11
  | single => 24
  | double => 53

/-- The least positive magnitude is `2 ^ quantum` units. -/
def quantum : Format → Nat
  | half => 1050
  | single => 925
  | double => 0

/-- Finite magnitudes stay below `2 ^ top` units. -/
def top : Format → Nat
  | half => 1090
  | single => 1202
  | double => 2098

/-- The name a channel of this format goes by in printed colors. -/
def name : Format → String
  | half => "f16"
  | single => "f32"
  | double => "f64"

/-- Exponent of the distance between neighbours around `n` units: a full
significand fits above it, and it never drops below the quantum. -/
def step (f : Format) (n : Nat) : Nat :=
  max f.quantum (n.log2 + 1 - f.precision)

/-- `n` units is a finite magnitude of the format: it lies on the grid that the
format has at its size, and below the overflow threshold. -/
def Representable (f : Format) (n : Nat) : Prop :=
  n < 2 ^ f.top ∧ 2 ^ f.step n ∣ n

instance (f : Format) (n : Nat) : Decidable (f.Representable n) :=
  inferInstanceAs (Decidable (_ ∧ _))

/-! ## Rounding to the grid -/

/-- The whole number nearest to `num / den`, a tie going to the even one. -/
def roundDiv (num den : Nat) : Nat :=
  let q := num / den
  let r := num % den
  if 2 * r < den ∨ (2 * r = den ∧ q % 2 = 0) then q else q + 1

/-- The count on the grid of the format nearest to `num / den` units. Overflow
is not looked at: the grid goes on above the largest finite magnitude. -/
def nearest (f : Format) (num den : Nat) : Nat :=
  let k := f.step (num / den)
  roundDiv num (den * 2 ^ k) * 2 ^ k

/-! ## Lemmas -/

theorem precision_pos (f : Format) : 0 < f.precision := by
  cases f <;> decide

theorem quantum_add_precision_le_top (f : Format) : f.quantum + f.precision ≤ f.top := by
  cases f <;> decide

theorem representable_zero (f : Format) : f.Representable 0 :=
  ⟨Nat.two_pow_pos _, Nat.dvd_zero _⟩

theorem roundDiv_le_succ (num den : Nat) : roundDiv num den ≤ num / den + 1 := by
  unfold roundDiv
  dsimp only
  split <;> omega

theorem le_roundDiv (num den : Nat) : num / den ≤ roundDiv num den := by
  unfold roundDiv
  dsimp only
  split <;> omega

theorem quantum_le_step (f : Format) (n : Nat) : f.quantum ≤ f.step n := Nat.le_max_left _ _

theorem lt_two_pow_step (f : Format) (n : Nat) : n < 2 ^ (f.precision + f.step n) := by
  refine Nat.lt_of_lt_of_le Nat.lt_log2_self (Nat.pow_le_pow_right (by decide) ?_)
  unfold step
  omega

theorem step_le_of_lt {f : Format} {n k : Nat} (hk : f.quantum ≤ k)
    (hn : n < 2 ^ (f.precision + k)) : f.step n ≤ k := by
  unfold step
  by_cases h0 : n = 0
  · subst h0
    have := f.precision_pos
    simp only [Nat.log2_zero]
    omega
  · have := (Nat.log2_lt h0).2 hn
    omega

/-- A significand of at most `precision` bits, or the power of two just above,
shifted by at least the quantum, lies on the grid. -/
theorem two_pow_step_dvd {f : Format} {m k : Nat} (hm : m ≤ 2 ^ f.precision)
    (hk : f.quantum ≤ k) : 2 ^ f.step (m * 2 ^ k) ∣ m * 2 ^ k := by
  rcases Nat.lt_or_eq_of_le hm with h | h
  · have : f.step (m * 2 ^ k) ≤ k := step_le_of_lt hk (by
      rw [Nat.pow_add]
      exact Nat.mul_lt_mul_of_pos_right h (Nat.two_pow_pos k))
    exact Nat.dvd_trans (Nat.pow_dvd_pow 2 this) (Nat.dvd_mul_left _ _)
  · subst h
    rw [← Nat.pow_add]
    have hp := f.precision_pos
    have : f.step (2 ^ (f.precision + k)) ≤ k + 1 :=
      step_le_of_lt (by omega) (Nat.pow_lt_pow_right (by decide) (by omega))
    exact Nat.pow_dvd_pow 2 (by omega)

theorem representable_mul_two_pow {f : Format} {m k : Nat} (hm : m ≤ 2 ^ f.precision)
    (hk : f.quantum ≤ k) (htop : m * 2 ^ k < 2 ^ f.top) : f.Representable (m * 2 ^ k) :=
  ⟨htop, two_pow_step_dvd hm hk⟩

theorem quotient_lt (f : Format) (num den : Nat) :
    num / (den * 2 ^ f.step (num / den)) < 2 ^ f.precision := by
  rw [← Nat.div_div_eq_div_mul]
  refine (Nat.div_lt_iff_lt_mul (Nat.two_pow_pos _)).2 ?_
  rw [← Nat.pow_add]
  exact f.lt_two_pow_step (num / den)

/-- Rounding a quotient lands on the grid. -/
theorem two_pow_step_dvd_nearest (f : Format) (num den : Nat) :
    2 ^ f.step (f.nearest num den) ∣ f.nearest num den := by
  have hq := f.quotient_lt num den
  have hr := roundDiv_le_succ num (den * 2 ^ f.step (num / den))
  exact two_pow_step_dvd (by omega) (f.quantum_le_step _)

/-- A rounded quotient is representable unless it overflows. -/
theorem representable_nearest {f : Format} {num den : Nat}
    (h : f.nearest num den < 2 ^ f.top) : f.Representable (f.nearest num den) :=
  ⟨h, f.two_pow_step_dvd_nearest num den⟩

/-- A representable count is its own rounding. -/
theorem nearest_of_representable {f : Format} {n : Nat} (h : f.Representable n) :
    f.nearest n 1 = n := by
  obtain ⟨m, hm⟩ := h.2
  unfold nearest
  simp only [Nat.div_one, Nat.one_mul]
  have hpos := Nat.two_pow_pos (f.step n)
  generalize hk : 2 ^ f.step n = p at hm hpos
  rw [hm]
  have hq : p * m / p = m := Nat.mul_div_cancel_left m hpos
  have hr : p * m % p = 0 := Nat.mul_mod_right p m
  unfold roundDiv
  simp only [hq, hr]
  rw [if_pos (Or.inl (by omega)), Nat.mul_comm]

end Format

end ColorAlgebra
