import ColorAlgebra.Binary.Arithmetic

namespace ColorAlgebra

/-- A channel range: the name that printed colors show, the name of the range by
itself, and the value of a full channel. -/
structure Range where
  name : String
  label : String
  full : Double
  deriving DecidableEq

namespace Range

def normal : Range := ⟨"normal", "Normal", Binary.one⟩

def byte : Range := ⟨"255", "Range255", Binary.ofNat 255⟩

def wide : Range := ⟨"256", "Range256", Binary.ofNat 256⟩

def percent : Range := ⟨"100", "Range100", Binary.ofNat 100⟩

/-- From the normalized number to the range. -/
def scale (r : Range) (v : Double) : Double := v.mul r.full

/-- From the range to the normalized number. -/
def unscale (r : Range) (v : Double) : Double := v.div r.full

end Range

end ColorAlgebra
