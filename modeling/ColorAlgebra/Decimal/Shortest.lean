import ColorAlgebra.Decimal.Basic

/-!
# Shortest decimals

`Decimal.shortest` gives the digits that a binary number is printed with: the
fewest that read back as the same number, and of those the nearest to it. It
tries grids of one digit, two digits and so on, each a tenth as wide as the one
before. A grid has a decimal that reads back exactly when one of the two
neighbours of the number on that grid does.
-/

namespace ColorAlgebra.Decimal

variable {f : Format}

/-- Reading the decimal in the format gives the positive number of `units`. -/
def ReadsAs (f : Format) (units : Nat) (d : Decimal) : Prop :=
  (d.toBinary f false).rank = some (units : Int)

instance (f : Format) (units : Nat) (d : Decimal) : Decidable (ReadsAs f units d) :=
  inferInstanceAs (Decidable (_ = _))

/-- A count of units over a power of ten, as a quotient. -/
def overPower (units : Nat) (exponent : Int) : Nat × Nat :=
  (units * 10 ^ (-exponent).toNat, unitsPerOne * 10 ^ exponent.toNat)

/-- The exponent of the leading digit. A magnitude from `2 ^ b` up to
`2 ^ (b + 1)` leads with the power of ten at `b log₁₀ 2`, rounded down, or with
the next one. -/
def leadingExponent (units : Nat) : Int :=
  let low := (units.log2 - (unitExponent : Int)) * 30103 / 100000
  let next := overPower units (low + 1)
  if next.2 ≤ next.1 then low + 1 else low

/-- The decimal on the grid of `10 ^ exponent` that reads back and is nearest to
the number. Of two equally near ones the larger is taken. -/
def onGrid? (f : Format) (units : Nat) (exponent : Int) : Option Decimal :=
  let (num, den) := overPower units exponent
  let below : Decimal := ⟨num / den, exponent⟩
  let above : Decimal := ⟨num / den + 1, exponent⟩
  if ReadsAs f units above then
    if ReadsAs f units below ∧ 2 * (num % den) < den then some below else some above
  else if ReadsAs f units below then some below
  else none

/-- Seventeen digits tell any two doubles apart. -/
def mostDigits : Nat := 17

/-- Every digit of the binary expansion: a unit is `5 ^ 1074` over
`10 ^ 1074`. -/
def exact (units : Nat) : Decimal :=
  ⟨units * 5 ^ unitExponent, -unitExponent⟩

/-- The digits that a positive number of `units` is printed with. -/
def shortest (f : Format) (units : Nat) : Decimal :=
  let lead := leadingExponent units
  let found := (List.range mostDigits).findSome? fun k : Nat => onGrid? f units (lead - k)
  (found.getD (exact units)).trimmed

/-! ## Lemmas -/

theorem onGrid?_readsAs {units : Nat} {exponent : Int} {d : Decimal}
    (h : onGrid? f units exponent = some d) : ReadsAs f units d := by
  simp only [onGrid?] at h
  split at h
  · next ha =>
    split at h
    · next hb => cases h; exact hb.1
    · cases h; exact ha
  · split at h
    · next hb => cases h; exact hb
    · cases h

theorem shortest_eq_or_exact (f : Format) (units : Nat) :
    (∃ d, ReadsAs f units d ∧ shortest f units = d.trimmed) ∨
      shortest f units = (exact units).trimmed := by
  simp only [shortest]
  cases h : (List.range mostDigits).findSome? fun k : Nat => onGrid? f units (leadingExponent units - k) with
  | none => exact Or.inr rfl
  | some d =>
    obtain ⟨k, _, hk⟩ := List.exists_of_findSome?_eq_some h
    exact Or.inl ⟨d, onGrid?_readsAs hk, rfl⟩

end ColorAlgebra.Decimal
