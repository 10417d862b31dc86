import ColorAlgebra.Binary.Basic

namespace ColorAlgebra

/-- The number `digits * 10 ^ exponent`. -/
structure Decimal where
  digits : Nat
  exponent : Int
  deriving DecidableEq, Repr

namespace Decimal

/-- No format has a magnitude as large as ten to this power, or a positive one
as small as ten to minus this power. -/
def reach : Nat := 400

/-- The nearest value of a format, with the given sign. -/
def toBinary (f : Format) (negative : Bool) (d : Decimal) : Binary f :=
  if d.digits = 0 then
    Binary.signedZero negative
  else if (reach : Int) < d.exponent then
    Binary.infinity negative
  else if d.exponent + (d.digits.log2 + 1) < -reach then
    Binary.signedZero negative
  else
    Binary.round negative (d.digits * 10 ^ d.exponent.toNat * unitsPerOne)
      (10 ^ (-d.exponent).toNat)

/-- Moves the zeros at the end of the digits into the exponent. -/
def trimmed (d : Decimal) : Decimal :=
  if h : d.digits ≠ 0 ∧ d.digits % 10 = 0 then
    trimmed ⟨d.digits / 10, d.exponent + 1⟩
  else d
termination_by d.digits
decreasing_by omega

end Decimal

namespace Binary

variable {f : Format}

/-- Rounds to a number of decimal places, a tie going to the even last digit.
The choice is made on the exact value, so a number just above a tie goes up. -/
def roundPlaces (places : Nat) : Binary f → Binary f
  | nan => nan
  | infinity negative => infinity negative
  | finite negative units _ =>
    (Decimal.mk (Format.roundDiv (units * 10 ^ places) unitsPerOne) (-places)).toBinary f negative

end Binary

end ColorAlgebra
