import ColorAlgebra.Color.Basic

/-!
# Packed colors

A packed color is a word with one byte for each channel, the first channel
highest. A byte stands for its number over 255. Going the other way, a channel
is clamped to the normalized range and rounded to the nearest byte, ties to
even, so that every packed color comes back unchanged. The top byte of the word
means nothing.
-/

namespace ColorAlgebra

namespace Hex

def byteMax : Double := Binary.ofNat 255

/-- The byte of a word from bit `shift` on. -/
def byteAt (word : UInt32) (shift : UInt32) : Nat := ((word >>> shift) &&& 0xff).toNat

def decodeByte (byte : Nat) : Double := (Binary.ofNat byte).div byteMax

/-- The normalized triple of a packed color. -/
def decode (word : UInt32) : Triple Double :=
  ⟨decodeByte (byteAt word 16), decodeByte (byteAt word 8), decodeByte (byteAt word 0)⟩

/-- A number moved into the normalized interval. -/
def clampUnit (v : Double) : Double :=
  if v.less .zero then .zero else if Binary.less .one v then .one else v

/-- The byte of a normalized channel. A NaN is byte zero. -/
def encodeByte (v : Double) : UInt32 :=
  if v.isNaN then 0
  else UInt32.ofNat (((clampUnit v).mul byteMax).roundEven.toIntWithin 0 0xffffffff).toNat

/-- The packed color of a normalized triple. -/
def encode (n : Triple Double) : UInt32 :=
  (((encodeByte n.first <<< 8) ||| encodeByte n.second) <<< 8) ||| encodeByte n.third

end Hex

namespace Color

variable {r : Range} {t : Format}

def ofHex (word : UInt32) : Color r t := ofNormalized (Hex.decode word)

def toHex (c : Color r t) : UInt32 := Hex.encode c.toNormalized

end Color

end ColorAlgebra
