import ColorAlgebra.Decimal.Basic

/-!
# Reading numbers

A numeral is an optional sign, digits with an optional point on either side of
them, at least one digit in all, and an optional exponent: `e` or `E`, an
optional sign and at least one digit. Words for infinity and for a value that
is not a number are no numerals.
-/

namespace ColorAlgebra

/-- What a numeral stands for: a sign and a magnitude. -/
structure Numeral where
  negative : Bool
  magnitude : Decimal
  deriving DecidableEq, Repr

namespace Numeral

/-- Takes an optional sign off, and tells whether it was a minus. -/
def takeSign : List Char → Bool × List Char
  | '-' :: rest => (true, rest)
  | '+' :: rest => (false, rest)
  | text => (false, text)

/-- Splits the digits off the front. -/
def takeDigits (text : List Char) : List Char × List Char :=
  (text.takeWhile Char.isDigit, text.dropWhile Char.isDigit)

/-- Splits a point and the digits behind it off the front. -/
def takeFraction : List Char → List Char × List Char
  | '.' :: rest => takeDigits rest
  | text => ([], text)

/-- The value of an exponent, which must be all that is left. -/
def readExponent? : List Char → Option Int
  | [] => some 0
  | mark :: rest =>
    if mark = 'e' ∨ mark = 'E' then
      let (negative, text) := takeSign rest
      let (digits, after) := takeDigits text
      if digits ≠ [] ∧ after = [] then some (signed negative (Nat.ofDigitChars 10 digits 0))
      else none
    else none

/-- Reads a whole text as a numeral. -/
def read? (text : List Char) : Option Numeral :=
  let (negative, text) := takeSign text
  let (whole, text) := takeDigits text
  let (fraction, text) := takeFraction text
  if whole = [] ∧ fraction = [] then none
  else
    (readExponent? text).map fun exponent =>
      ⟨negative, Nat.ofDigitChars 10 (whole ++ fraction) 0, exponent - fraction.length⟩

/-- The nearest value of a format to what a numeral stands for. -/
def toBinary (f : Format) (n : Numeral) : Binary f := n.magnitude.toBinary f n.negative

/-! ## Lemmas -/

theorem takeDigits_append (text : List Char) :
    (takeDigits text).1 ++ (takeDigits text).2 = text :=
  List.takeWhile_append_dropWhile

theorem isDigit_of_mem_takeDigits {text : List Char} {c : Char} (h : c ∈ (takeDigits text).1) :
    c.isDigit = true :=
  List.all_eq_true.1 List.all_takeWhile c h

end Numeral

end ColorAlgebra
