import ColorAlgebra.Binary.Arithmetic

/-!
# Powers

`Binary.pow x y` is `x ^ y`, rounded once to the nearest value. A power of
finite numbers is `exp (y * ln x)`, taken in fixed point with several hundred
bits below the point, far more than it takes to see on which side of a rounding
boundary a power that is not on it lies.
-/

namespace ColorAlgebra

namespace Power

/-! ## Fixed point series -/

/-- Bits below the point. -/
def bits : Nat := 512

/-- The number one in fixed point. -/
def point : Nat := 2 ^ bits

/-- The tail `p / k + p t² / (k + 2) + …` of the series below, `terms` long. -/
def artanhTail (square : Nat) : Nat → Nat → Nat → Nat
  | 0, _, _ => 0
  | terms + 1, p, k => p / k + artanhTail square terms (p * square / point) (k + 2)

/-- `artanh t = t + t³ / 3 + t⁵ / 5 + …`, for `t` at most a third. Each term is
less than a ninth of the one before. -/
def artanh (t : Nat) : Nat := artanhTail (t * t / point) 180 t 1

/-- The tail `p + p r / k + p r² / (k (k + 1)) + …` of the series below. -/
def expTail (r : Nat) : Nat → Nat → Nat → Nat
  | 0, _, _ => 0
  | terms + 1, p, k => p + expTail r terms (p * r / (k * point)) (k + 1)

/-- `exp r = 1 + r + r² / 2 + …`, for `r` below one. -/
def exp (r : Nat) : Nat := expTail r 120 point 1

/-- `ln 2 = 2 artanh (1/3)`. -/
def ln2 : Nat := 2 * artanh (point / 3)

/-- `ln m = 2 artanh ((m - 1) / (m + 1))`, for `m` from one to two. -/
def lnSignificand (m : Nat) : Nat := 2 * artanh ((m - point) * point / (m + point))

/-- The natural logarithm of a positive count of units. -/
def ln (units : Nat) : Int :=
  let k := units.log2
  ((k : Int) - unitExponent) * ln2 + lnSignificand (units * point / 2 ^ k)

/-! ## Magnitudes -/

/-- A quotient that shares this many bits with a rounding boundary is on it:
powers that only come near one stay much farther away. -/
def sharedBits : Nat := 200

/-- Rounds an approximate quotient of units. Halves of the distance between
neighbours are the rounding boundaries. -/
def roundNear (f : Format) (negative : Bool) (num den : Nat) : Binary f :=
  let spacing := 2 ^ f.step (num / den)
  let halves := Format.roundDiv (2 * num) (den * spacing)
  if ((2 * num : Nat) - (halves * den * spacing : Nat) : Int).natAbs * 2 ^ sharedBits < num then
    Binary.round negative (halves * spacing) 2
  else
    Binary.round negative num den

/-- `a ^ y` with the given sign, where `a` is positive and both are in units. -/
def magnitude (f : Format) (negative : Bool) (a : Nat) (y : Int) : Binary f :=
  let z := ln a * y / unitsPerOne
  let n := z / ln2
  let exponent := n + unitExponent
  if (f.top : Int) < exponent then
    Binary.infinity negative
  else if exponent + 2 < f.quantum then
    Binary.signedZero negative
  else
    roundNear f negative (exp (z % ln2).toNat * 2 ^ exponent.toNat)
      (point * 2 ^ (-exponent).toNat)

end Power

namespace Binary

variable {f : Format}

/-- Whether a count of units is a whole number. -/
def isWhole (units : Nat) : Bool := units % unitsPerOne = 0

/-- Whether a count of units is an odd whole number. -/
def isOddWhole (units : Nat) : Bool := isWhole units && units / unitsPerOne % 2 = 1

/-- `x` to the power `y`. -/
def pow (x y : Binary f) : Binary f :=
  if y.isZero || x = one then one
  else
    match x, y with
    | nan, _ => nan
    | _, nan => nan
    | x, infinity downward =>
      if x.abs.equal one then one
      else if x.abs.less one = downward then infinity false
      else zero
    | infinity s, finite t b _ =>
      if t then signedZero (s && isOddWhole b) else infinity (s && isOddWhole b)
    | finite s a _, finite t b _ =>
      let negative := s && isOddWhole b
      if a = 0 then (if t then infinity negative else signedZero negative)
      else if s && !isWhole b then nan
      else Power.magnitude f negative a (signed t b)

end Binary

end ColorAlgebra
