import ColorAlgebra.Binary.Basic

/-!
# Arithmetic

Each operation takes the exact result and rounds it once. The exact result is a
whole number or a quotient of units, so nothing is lost before the rounding.
The sign of a zero follows the usual rules: a sum that cancels is `+0` unless
both terms are negative, and a product or quotient of unlike signs is negative.
-/

namespace ColorAlgebra

/-- The largest number whose square is at most `n`. -/
def isqrt (n : Nat) : Nat :=
  if h : n = 0 then 0
  else
    let r := 2 * isqrt (n / 4)
    if (r + 1) * (r + 1) ≤ n then r + 1 else r
termination_by n
decreasing_by omega

namespace Binary

variable {f : Format}

/-! ## Signs -/

def neg : Binary f → Binary f
  | nan => nan
  | infinity negative => infinity (!negative)
  | finite negative units h => finite (!negative) units h

def abs : Binary f → Binary f
  | nan => nan
  | infinity _ => infinity false
  | finite _ units h => finite false units h

/-! ## Field operations -/

def add : Binary f → Binary f → Binary f
  | nan, _ => nan
  | _, nan => nan
  | infinity s, infinity t => if s = t then infinity s else nan
  | infinity s, finite .. => infinity s
  | finite .., infinity t => infinity t
  | finite s a _, finite t b _ =>
    let sum := signed s a + signed t b
    if sum = 0 then signedZero (s && t) else ofUnits (sum < 0) sum.natAbs

def sub (x y : Binary f) : Binary f := x.add y.neg

def mul : Binary f → Binary f → Binary f
  | nan, _ => nan
  | _, nan => nan
  | infinity s, infinity t => infinity (s ^^ t)
  | infinity s, finite t b _ => if b = 0 then nan else infinity (s ^^ t)
  | finite s a _, infinity t => if a = 0 then nan else infinity (s ^^ t)
  | finite s a _, finite t b _ => round (s ^^ t) (a * b) unitsPerOne

/-- A nonzero number over zero is an infinity; zero over zero is a NaN. -/
def div : Binary f → Binary f → Binary f
  | nan, _ => nan
  | _, nan => nan
  | infinity _, infinity _ => nan
  | infinity s, finite t _ _ => infinity (s ^^ t)
  | finite s _ _, infinity t => signedZero (s ^^ t)
  | finite s a _, finite t b _ =>
    if b = 0 then (if a = 0 then nan else infinity (s ^^ t))
    else round (s ^^ t) (a * unitsPerOne) b

/-- What is left of `x` after the whole multiples of `y` nearest zero are taken
away. It has the sign of `x` and is exact. -/
def rem : Binary f → Binary f → Binary f
  | nan, _ => nan
  | _, nan => nan
  | infinity _, _ => nan
  | finite s a h, infinity _ => finite s a h
  | finite s a _, finite _ b _ => if b = 0 then nan else ofUnits s (a % b)

/-- The nearest value to the square root; a negative number has none. The exact
root of `a` units is that of `a * unitsPerOne`; when it is not whole it lies between
two neighbours, and the point midway rounds as it does. -/
def sqrt : Binary f → Binary f
  | nan => nan
  | infinity negative => if negative then nan else infinity false
  | finite negative units h =>
    if units = 0 then finite negative units h
    else if negative then nan
    else
      let root := isqrt (units * unitsPerOne)
      if root * root = units * unitsPerOne then round false root 1 else round false (2 * root + 1) 2

/-! ## Whole numbers -/

/-- Applies a rule for counts of units that fall on whole numbers. -/
def wholeBy (rule : Bool → Nat → Nat) : Binary f → Binary f
  | nan => nan
  | infinity negative => infinity negative
  | finite negative units _ => ofUnits negative (rule negative units * unitsPerOne)

/-- The whole part of a magnitude. -/
def wholeBelow (units : Nat) : Nat := units / unitsPerOne

/-- The least whole number not below a magnitude. -/
def wholeAbove (units : Nat) : Nat := (units + (unitsPerOne - 1)) / unitsPerOne

def floor (x : Binary f) : Binary f :=
  x.wholeBy fun negative units => if negative then wholeAbove units else wholeBelow units

def ceil (x : Binary f) : Binary f :=
  x.wholeBy fun negative units => if negative then wholeBelow units else wholeAbove units

def trunc (x : Binary f) : Binary f := x.wholeBy fun _ units => wholeBelow units

/-- The nearest whole number, ties to the even one. -/
def roundEven (x : Binary f) : Binary f :=
  x.wholeBy fun _ units => Format.roundDiv units unitsPerOne

/-- The whole part toward zero, moved into an interval of integers. A NaN gives
zero. -/
def toIntWithin (low high : Int) : Binary f → Int
  | nan => 0
  | infinity negative => if negative then low else high
  | finite negative units _ => Max.max low (Min.min high (signed negative (wholeBelow units)))

/-! ## Extremes -/

def max (x y : Binary f) : Binary f :=
  if x.isNaN then y else if y.isNaN then x else if x.less y then y else x

def min (x y : Binary f) : Binary f :=
  if x.isNaN then y else if y.isNaN then x else if y.less x then y else x

/-! ## Lemmas -/

theorem neg_neg (x : Binary f) : x.neg.neg = x := by
  cases x <;> simp [neg]

theorem isNaN_neg (x : Binary f) : x.neg.isNaN = x.isNaN := by
  cases x <;> rfl

theorem add_comm (x y : Binary f) : x.add y = y.add x := by
  cases x <;> cases y <;> simp only [add]
  · rename_i s t
    cases s <;> cases t <;> rfl
  · rename_i s a _ t b _
    rw [Int.add_comm, Bool.and_comm]

theorem mul_comm (x y : Binary f) : x.mul y = y.mul x := by
  cases x <;> cases y <;> simp only [mul, Bool.xor_comm, Nat.mul_comm]

end Binary

end ColorAlgebra
