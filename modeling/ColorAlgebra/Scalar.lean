import ColorAlgebra.Binary.Power
import ColorAlgebra.Decimal.Basic

namespace ColorAlgebra.Scalar

open Binary

/-- The remainder of `x` by `y` with the sign of `y`, a zero included. There is
none for a zero divisor. -/
def floorMod (x y : Double) : Double :=
  if y.isZero then nan
  else
    let r := x.rem y
    if r.isZero then signedZero y.isNegative
    else if r.less zero ≠ y.less zero then r.add y
    else r

def powMod (x y z : Double) : Double := floorMod (x.pow y) z

/-! ## Decimal rounding -/

/-- The finest digit at which rounding can change a finite double. -/
def finestDigit : Int := 323

/-- The coarsest digit at which rounding can leave a finite double nonzero. -/
def coarsestDigit : Int := -308

/-- The product of `r` and `b` if the last bit of the exponent calls for it, else `r`. -/
def timesBit (r b : Double) (exponent : Nat) : Double := if exponent % 2 = 1 then r.mul b else r

/-- The product of `r` and a power of `b`, which is squared from each bit of the exponent
to the next. -/
def timesPower (r b : Double) (exponent : Nat) : Double :=
  if exponent / 2 = 0 then timesBit r b exponent
  else timesPower (timesBit r b exponent) (b.mul b) (exponent / 2)
termination_by exponent

/-- A power of ten, multiplied out. Every product is rounded, so that large powers are
not always the nearest doubles. -/
def powerOfTen (exponent : Int) : Double := timesPower one (ofNat 10) exponent.toNat

/-- Rounds to tens, hundreds and so on: to the whole multiple of `p` nearest to
the quotient by `p`. A zero has the sign of `x`. -/
def roundMultiple (x p : Double) : Double :=
  let y := (x.div p).roundEven.mul p
  if y.isZero then zero.mul x else y

/-- Rounds to `digits` decimal places, or for negative `digits` to the left of
the point, where it takes the powers of ten that are given. NaNs and infinities stay
as they are. -/
def roundDigitsBy (power : Int → Double) (x : Double) (digits : Int) : Double :=
  if !x.isFinite ∨ finestDigit < digits then x
  else if digits < coarsestDigit then zero.mul x
  else if 0 ≤ digits then x.roundPlaces digits.toNat
  else roundMultiple x (power (-digits))

def roundDigits (x : Double) (digits : Int) : Double := roundDigitsBy powerOfTen x digits

/-! ## Intervals -/

/-- Reflects `x` within zero and `full`. -/
def reflect (full x : Double) : Double := full.sub x

/-- The number of an interval nearest to `x`. -/
def clamp (low high x : Double) : Double :=
  if x.less low then low else if high.less x then high else x

/-- The point a fraction `t` of the way from `a` to `b`. At one it is `b`
itself, which the sum may miss by a rounding. -/
def lerp (a b t : Double) : Double :=
  if t.equal one then b else a.add ((b.sub a).mul t)

end ColorAlgebra.Scalar
