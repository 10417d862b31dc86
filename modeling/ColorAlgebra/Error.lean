import ColorAlgebra.Text.Quoted

/-!
# What can go wrong

Color math is total. What can fail is keyed access, slicing, pairwise math of
lists of unlike length, reading a color from text, and looking for a color that
a list does not hold. Each failure is a value; a list that an operation fails on
stays as it was.
-/

namespace ColorAlgebra

/-- Why a slice cannot be resolved. -/
inductive SliceError where
  | zeroStep
  deriving DecidableEq, Repr

def SliceError.message : SliceError → String
  | zeroStep => "slice step cannot be zero"

inductive Error where
  | indexOutOfRange (key : Int) (length : Nat)
  | lengthMismatch (expected got : Nat)
  | invalidSlice (problem : String)
  | parse (input : String)
  | notFound
  deriving DecidableEq, Repr

namespace Error

def ofSlice (e : SliceError) : Error := invalidSlice e.message

def message : Error → String
  | indexOutOfRange key length =>
    "index " ++ toString key ++ " out of range for list of length " ++ toString length
  | lengthMismatch expected got =>
    "length mismatch: expected " ++ toString expected ++ ", got " ++ toString got
  | invalidSlice problem => "invalid slice: " ++ problem
  | parse input => "cannot parse color from " ++ Text.quote input
  | notFound => "color not in list"

/-- The cause by its name, with the name and value of each field. -/
def fields : Error → String
  | indexOutOfRange key length =>
    "IndexOutOfRange \x7b key: " ++ toString key ++ ", len: " ++ toString length ++ " \x7d"
  | lengthMismatch expected got =>
    "LengthMismatch \x7b expected: " ++ toString expected ++ ", got: " ++ toString got ++ " \x7d"
  | invalidSlice problem => "InvalidSlice(" ++ Text.quote problem ++ ")"
  | parse input => "Parse \x7b input: " ++ Text.quote input ++ " \x7d"
  | notFound => "NotFound"

/-- A key or slice that does not fit its list. -/
def isIndexError : Error → Bool
  | indexOutOfRange .. | invalidSlice _ => true
  | _ => false

def isLengthError : Error → Bool
  | lengthMismatch .. => true
  | _ => false

def isParseError : Error → Bool
  | parse _ => true
  | _ => false

end Error

/-- An index that is not below the length it is used on. -/
structure OutOfBounds where
  length : Nat
  index : Nat
  deriving DecidableEq, Repr

def OutOfBounds.message (e : OutOfBounds) : String :=
  "index out of bounds: the len is " ++ toString e.length ++
    " but the index is " ++ toString e.index

/-- What ends a computation for a mistake of the caller: an index out of bounds, or a sum
that no word can hold. -/
inductive Fault where
  | outOfBounds (e : OutOfBounds)
  | overflow
  deriving DecidableEq, Repr

def Fault.message : Fault → String
  | outOfBounds e => e.message
  | overflow => "attempt to add with overflow"

end ColorAlgebra
