import ColorAlgebra.Color.Range
import ColorAlgebra.Color.Triple

/-!
# Colors

A color is three channels in the format `t`. Its range `r` says what a full
channel is worth; it is a parameter, so colors of unlike ranges do not mix.
Channels are plain numbers, whatever color model they stand for.

All math runs on doubles: the channels are widened, an operation is applied, and
each result is narrowed once to the channel format.
-/

namespace ColorAlgebra

/-- A color of range `r` with channels of format `t`. -/
structure Color (r : Range) (t : Format) where
  channels : Triple (Binary t)
  deriving DecidableEq

namespace Color

variable {r s : Range} {t u : Format}

/-- The number of channels. -/
def arity : Nat := 3

def splat (v : Binary t) : Color r t := ⟨.splat v⟩

def zero : Color r t := splat Binary.zero

instance : Inhabited (Color r t) := ⟨zero⟩

/-- The channels, widened. -/
def toDoubles (c : Color r t) : Triple Double := c.channels.map (Binary.convert .double)

/-- The color of three doubles, each narrowed. -/
def ofDoubles (v : Triple Double) : Color r t := ⟨v.map (Binary.convert t)⟩

/-- Applies a rule for doubles to every channel. -/
def mapDouble (f : Double → Double) (c : Color r t) : Color r t := ofDoubles (c.toDoubles.map f)

/-- Applies a rule for two doubles to every pair of channels. -/
def zipDouble (f : Double → Double → Double) (a b : Color r t) : Color r t :=
  ofDoubles (a.toDoubles.zipWith f b.toDoubles)

/-! ## Normalized form -/

/-- Multiplies every channel by the range. -/
def scale (c : Color r t) : Color r t := c.mapDouble r.scale

/-- Divides every channel by the range. -/
def unscale (c : Color r t) : Color r t := c.mapDouble r.unscale

def toNormalized (c : Color r t) : Triple Double := c.toDoubles.map r.unscale

def ofNormalized (n : Triple Double) : Color r t := ofDoubles (n.map r.scale)

/-! ## Conversions -/

/-- The same channels, read in another range. -/
def castRange (s : Range) (c : Color r t) : Color s t := ⟨c.channels⟩

/-- The color of the same normalized triple in another range. -/
def convertRange (s : Range) (c : Color r t) : Color s t := ofNormalized c.toNormalized

/-- The color with its channels in another format. -/
def convertChannel (u : Format) (c : Color r t) : Color r u := ofDoubles c.toDoubles

/-! ## Equality -/

/-- Numeric equality of all channels. A color with a NaN equals no color. -/
def equal (a b : Color r t) : Bool := Triple.all Binary.equal a.channels b.channels

/-! ## Lemmas -/

theorem toDoubles_ofDoubles (v : Triple Double) :
    (ofDoubles v : Color r .double).toDoubles = v := by
  simp [toDoubles, ofDoubles, Triple.map, Binary.convert_self]

theorem equal_comm (a b : Color r t) : a.equal b = b.equal a := by
  simp only [equal, Triple.all, Binary.equal_comm]

end Color

end ColorAlgebra
