import ColorAlgebra.Binary.Basic

/-!
# Bit patterns of doubles

The 64-bit pattern of a double holds a sign, an exponent field and a fraction.
Read as one number, the magnitude of a finite double is `step * 2 ^ 52` plus
its significand, the leading bit included: below the normal range the step is
zero, and the leading bit of a normal significand carries into the exponent
field.
-/

namespace ColorAlgebra.Binary

def fractionBits : Nat := 52

def exponentBits : Nat := 11

/-- The pattern of a minus sign alone. -/
def signBit : Nat := 0x8000000000000000

/-- The exponent field of infinities and NaNs. -/
def fullExponent : Nat := 2047

/-- The pattern of a magnitude, without its sign. -/
def magnitudeBits : Double → Nat
  | nan => fullExponent * 2 ^ fractionBits + 2 ^ (fractionBits - 1)
  | infinity _ => fullExponent * 2 ^ fractionBits
  | finite _ units _ =>
    let k := Format.double.step units
    k * 2 ^ fractionBits + units / 2 ^ k

def toBits (x : Double) : UInt64 :=
  UInt64.ofNat (x.magnitudeBits + if x.isNegative then signBit else 0)

def ofBits (bits : UInt64) : Double :=
  let negative := decide (signBit ≤ bits.toNat)
  let exponent := bits.toNat / 2 ^ fractionBits % 2 ^ exponentBits
  let fraction := bits.toNat % 2 ^ fractionBits
  if exponent = fullExponent then
    if fraction = 0 then infinity negative else nan
  else if exponent = 0 then
    ofUnits negative fraction
  else
    ofUnits negative ((2 ^ fractionBits + fraction) * 2 ^ (exponent - 1))

end ColorAlgebra.Binary
