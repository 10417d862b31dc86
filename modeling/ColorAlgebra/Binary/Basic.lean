import ColorAlgebra.Binary.Format

namespace ColorAlgebra

/-- A value of the binary floating point format `f`. All NaNs are one value: neither sign
nor payload is ever looked at. A zero keeps its sign. -/
inductive Binary (f : Format) where
  | nan
  | infinity (negative : Bool)
  | finite (negative : Bool) (units : Nat) (representable : f.Representable units)
  deriving DecidableEq

/-- The format that every computation runs in. -/
abbrev Double := Binary .double

/-- The whole number of a sign and a magnitude. -/
def signed (negative : Bool) (magnitude : Nat) : Int :=
  if negative then -magnitude else magnitude

namespace Binary

variable {f g : Format}

/-! ## Constants and classes -/

/-- The zero of a sign. -/
def signedZero (negative : Bool) : Binary f :=
  finite negative 0 f.representable_zero

def zero : Binary f := signedZero false

instance : Inhabited (Binary f) := ⟨zero⟩

def isNaN : Binary f → Bool
  | nan => true
  | _ => false

def isFinite : Binary f → Bool
  | finite .. => true
  | _ => false

def isZero : Binary f → Bool
  | finite _ 0 _ => true
  | _ => false

/-- Whether the sign is negative, that of a zero included. -/
def isNegative : Binary f → Bool
  | nan => false
  | infinity negative => negative
  | finite negative _ _ => negative

/-! ## Order -/

/-- The place of a value on the line of units. Infinities stand where the
finite magnitudes of the widest format end. -/
def rank : Binary f → Option Int
  | nan => none
  | infinity negative => some (signed negative (2 ^ Format.double.top))
  | finite negative units _ => some (signed negative units)

/-- Two values stand in a relation when both have a rank and the ranks do. -/
def related (r : Int → Int → Bool) (x y : Binary f) : Bool :=
  match x.rank, y.rank with
  | some a, some b => r a b
  | _, _ => false

/-- Numeric equality: `0` equals `-0`, and a NaN equals nothing. -/
def equal (x y : Binary f) : Bool := related (fun a b => decide (a = b)) x y

def less (x y : Binary f) : Bool := related (fun a b => decide (a < b)) x y

def atMost (x y : Binary f) : Bool := related (fun a b => decide (a ≤ b)) x y

/-! ## Rounding -/

/-- The value nearest to `num / den` units, ties to the even significand. A
magnitude that rounds past the largest finite one is an infinity, and the sign
stays on a zero. -/
def round (negative : Bool) (num den : Nat) : Binary f :=
  if h : f.nearest num den < 2 ^ f.top then
    finite negative (f.nearest num den) (Format.representable_nearest h)
  else
    infinity negative

/-- The value nearest to a whole count of units. -/
def ofUnits (negative : Bool) (units : Nat) : Binary f := round negative units 1

/-- The value nearest to a natural number. -/
def ofNat (n : Nat) : Binary f := ofUnits false (n * unitsPerOne)

def one : Binary f := ofNat 1

/-- The nearest value of format `g`. From a narrower format to a wider one it
is the same number. For half precision, which is converted by a library, this is an
assumption: that a double is rounded to a half once, to nearest and with ties to even as
IEEE 754 has it, and not by way of single precision. -/
def convert (g : Format) : Binary f → Binary g
  | nan => nan
  | infinity negative => infinity negative
  | finite negative units _ => ofUnits negative units

/-! ## Lemmas -/

theorem rank_finite (negative : Bool) (units : Nat) (h : f.Representable units) :
    (finite negative units h).rank = some (signed negative units) := rfl

theorem rank_eq_none_iff {x : Binary f} : x.rank = none ↔ x = nan := by
  cases x <;> simp [rank]

theorem ofUnits_of_representable {n : Nat} (negative : Bool) (h : f.Representable n) :
    ofUnits negative n = finite negative n h := by
  have hn := Format.nearest_of_representable h
  unfold ofUnits round
  simp only [hn]
  rw [dif_pos h.1]

theorem convert_self (x : Binary f) : x.convert f = x := by
  cases x with
  | nan => rfl
  | infinity => rfl
  | finite negative units h => exact ofUnits_of_representable negative h

theorem equal_comm (x y : Binary f) : x.equal y = y.equal x := by
  unfold equal related
  cases x.rank <;> cases y.rank <;> simp [eq_comm]

end Binary

end ColorAlgebra
