import ColorAlgebra.Binary.Arithmetic
import ColorAlgebra.Proofs.Binary.TwoRoundings

namespace ColorAlgebra

variable {f g : Format}

namespace Format

theorem Representable.widen {n : Nat} (h : f.Representable n) : Format.double.Representable n := by
  by_cases hf : f = .double
  · subst hf
    exact h
  · exact (coarserThan_of_ne_double hf).representable h

theorem unitsPerOne_pos : 0 < unitsPerOne := by
  rw [unitsPerOne_eq]
  exact Nat.two_pow_pos _

theorem representable_unitsPerOne (f : Format) : f.Representable unitsPerOne := by
  have hquantum : f.quantum ≤ unitExponent := by cases f <;> decide
  have htop : unitExponent < f.top := by cases f <;> decide
  rw [unitsPerOne_eq]
  exact ⟨Nat.pow_lt_pow_right (by decide) htop, onGrid_two_pow hquantum⟩

/-- The quotient of a finite number and a whole one does not overflow. -/
theorem Representable.nearest_div {units d : Nat} (h : f.Representable units) (hpos : 0 < d) :
    f.Representable (f.nearest units d) := by
  have hle : (units / d : ℚ) ≤ units := by
    refine div_le_self (Nat.cast_nonneg units) ?_
    exact_mod_cast hpos
  exact representable_nearest
    (Nat.lt_of_le_of_lt (nearest_le hpos h.onGrid hle) h.1)

end Format

namespace Binary

/-! ## Conversions -/

theorem convert_finite {negative : Bool} {units : Nat} {h : f.Representable units}
    (hg : g.Representable units) :
    (finite negative units h : Binary f).convert g = finite negative units hg :=
  ofUnits_of_representable negative hg

theorem narrow_widen (x : Binary f) : (x.convert .double).convert f = x := by
  cases x with
  | nan => rfl
  | infinity negative => rfl
  | finite negative units h => rw [convert_finite h.widen, convert_finite h]

theorem round_eq_finite_iff {negative : Bool} {num den units : Nat} (h : f.Representable units) :
    round negative num den = finite negative units h ↔ f.nearest num den = units :=
  ⟨nearest_of_round, round_of_nearest h⟩

/-- A conversion gives the nearest number of the other format. -/
theorem convert_eq_finite_iff {negative : Bool} {units n : Nat} {h : f.Representable units}
    (hn : g.Representable n) :
    (finite negative units h : Binary f).convert g = finite negative n hn ↔
      g.nearest units 1 = n := by
  dsimp only [convert, ofUnits]
  exact round_eq_finite_iff hn

/-! ## The number one -/

theorem one_eq : (one : Binary f) = finite false unitsPerOne f.representable_unitsPerOne := by
  unfold one ofNat
  rw [Nat.one_mul]
  exact ofUnits_of_representable false f.representable_unitsPerOne

theorem round_mul_unitsPerOne {units : Nat} (negative : Bool) (h : f.Representable units) :
    round negative (units * unitsPerOne) unitsPerOne = finite negative units h := by
  refine round_of_nearest h (Format.nearest_of_eq Format.unitsPerOne_pos h.onGrid ?_)
  have hone : (unitsPerOne : ℚ) ≠ 0 := by exact_mod_cast Nat.ne_of_gt Format.unitsPerOne_pos
  rw [Nat.cast_mul, mul_div_cancel_right₀ _ hone]

theorem mul_one (x : Binary f) : x.mul one = x := by
  rw [one_eq]
  cases x with
  | nan => rfl
  | infinity negative =>
    dsimp only [mul]
    rw [if_neg (Nat.ne_of_gt Format.unitsPerOne_pos), Bool.xor_false]
  | finite negative units h =>
    dsimp only [mul]
    rw [Bool.xor_false]
    exact round_mul_unitsPerOne negative h

theorem div_one (x : Binary f) : x.div one = x := by
  rw [one_eq]
  cases x with
  | nan => rfl
  | infinity negative =>
    dsimp only [div]
    rw [Bool.xor_false]
  | finite negative units h =>
    dsimp only [div]
    rw [if_neg (Nat.ne_of_gt Format.unitsPerOne_pos), Bool.xor_false]
    exact round_mul_unitsPerOne negative h

/-! ## Whole numbers -/

section
variable {negative : Bool} {units d : Nat} (hd : f.Representable (d * unitsPerOne))

theorem div_whole (hpos : 0 < d) (h : f.Representable units) :
    (finite negative units h).div (finite false (d * unitsPerOne) hd) =
      finite negative (f.nearest units d) (h.nearest_div hpos) := by
  have hone : (unitsPerOne : ℚ) ≠ 0 := by exact_mod_cast Nat.ne_of_gt Format.unitsPerOne_pos
  have hwhole : 0 < d * unitsPerOne := Nat.mul_pos hpos Format.unitsPerOne_pos
  dsimp only [div]
  rw [if_neg (Nat.ne_of_gt hwhole), Bool.xor_false]
  refine round_of_nearest (h.nearest_div hpos) (Format.nearest_congr hwhole hpos ?_)
  rw [Nat.cast_mul, Nat.cast_mul, mul_div_mul_right _ _ hone]

theorem mul_whole (h : f.Representable units) :
    (finite negative units h).mul (finite false (d * unitsPerOne) hd) =
      ofUnits negative (units * d) := by
  have hone : (unitsPerOne : ℚ) ≠ 0 := by exact_mod_cast Nat.ne_of_gt Format.unitsPerOne_pos
  dsimp only [mul]
  rw [Bool.xor_false]
  refine round_congr (Format.nearest_congr Format.unitsPerOne_pos Nat.one_pos ?_)
  rw [← Nat.mul_assoc, Nat.cast_mul, mul_div_cancel_right₀ _ hone]
  simp

end

end Binary

end ColorAlgebra
