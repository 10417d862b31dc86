import ColorAlgebra.Decimal.Shortest

namespace ColorAlgebra

/-- The choices in writing a number: the leading exponents for which no exponent
is written (all of them for `none`), and what ends a whole number. -/
structure Layout where
  positional : Option (Int × Int)
  wholeEnd : List Char

namespace Layout

def plain : Layout := ⟨none, []⟩

def marked : Layout := ⟨some (-4, 15), ['.', '0']⟩

/-- The exponent of the first of `count` digits that end at `exponent`. -/
def lead (count : Nat) (exponent : Int) : Int := exponent + count - 1

/-- Whether a number with this leading exponent is written without one. -/
def isPositional (l : Layout) (lead : Int) : Bool :=
  match l.positional with
  | none => true
  | some (low, high) => low ≤ lead && lead ≤ high

/-- Digits with the point where the exponent puts it. -/
def writePositional (l : Layout) (digits : List Char) (exponent : Int) : List Char :=
  if 0 ≤ exponent then
    digits ++ List.replicate exponent.toNat '0' ++ l.wholeEnd
  else
    let places := (-exponent).toNat
    if places < digits.length then
      digits.take (digits.length - places) ++ '.' :: digits.drop (digits.length - places)
    else
      '0' :: '.' :: List.replicate (places - digits.length) '0' ++ digits

/-- One digit, the others after a point, and the exponent of the first. -/
def writeExponential (digits : List Char) (exponent : Int) : List Char :=
  let head := match digits with
    | first :: second :: rest => first :: '.' :: second :: rest
    | short => short
  let e := lead digits.length exponent
  head ++ 'e' :: (if e < 0 then ['-'] else []) ++ Nat.toDigits 10 e.natAbs

/-- The text of a decimal. -/
def writeDecimal (l : Layout) (d : Decimal) : List Char :=
  let digits := Nat.toDigits 10 d.digits
  if l.isPositional (lead digits.length d.exponent) then l.writePositional digits d.exponent
  else writeExponential digits d.exponent

/-- The text of a number: its shortest digits, with its sign. -/
def write {f : Format} (l : Layout) : Binary f → List Char
  | .nan => ['N', 'a', 'N']
  | .infinity negative => (if negative then ['-'] else []) ++ ['i', 'n', 'f']
  | .finite negative units _ =>
    (if negative then ['-'] else []) ++
      l.writeDecimal (if units = 0 then ⟨0, 0⟩ else Decimal.shortest f units)

end Layout

end ColorAlgebra
