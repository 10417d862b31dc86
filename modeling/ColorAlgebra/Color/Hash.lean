import ColorAlgebra.Binary.Bits
import ColorAlgebra.Color.Basic
import ColorAlgebra.Hash.Sip

namespace ColorAlgebra.Color

variable {r : Range} {t : Format}

/-- How many values a hash can have. -/
def hashBuckets : Double := Binary.ofNat 256

/-- The bytes of a triple, the bits of each double lowest byte first. Adding zero
makes the two zeros one. -/
def hashBytes (n : Triple Double) : List UInt8 :=
  n.toList.flatMap fun v => Sip.bytesOfWord (v.add .zero).toBits

/-- The 64-bit hash of a triple, by SipHash-1-3 under the key of zeros. -/
def wordHash (n : Triple Double) : UInt64 := Sip.hash 1 3 0 0 (hashBytes n)

/-- The top 53 bits of the hash as a fraction below one, which is exact. -/
def unitHash (n : Triple Double) : Double :=
  (Binary.ofNat (wordHash n >>> 11).toNat).div (Binary.ofNat 0x20000000000000)

/-- The bucket of a fraction, as a 64-bit integer: the whole part of the product,
moved into range. -/
def hashWith (c : Color r t) (unit : Triple Double → Double) : Int :=
  ((unit c.toNormalized).mul hashBuckets).toIntWithin (-0x8000000000000000) 0x7fffffffffffffff

def hash (c : Color r t) : Int := c.hashWith unitHash

end ColorAlgebra.Color
