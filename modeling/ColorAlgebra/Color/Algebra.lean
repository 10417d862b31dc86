import ColorAlgebra.Color.Basic
import ColorAlgebra.Scalar

namespace ColorAlgebra.Color

variable {r : Range} {t : Format}

/-! ## One color -/

def abs (c : Color r t) : Color r t := c.mapDouble Binary.abs

def floor (c : Color r t) : Color r t := c.mapDouble Binary.floor

def ceil (c : Color r t) : Color r t := c.mapDouble Binary.ceil

def trunc (c : Color r t) : Color r t := c.mapDouble Binary.trunc

def neg (c : Color r t) : Color r t := c.mapDouble Binary.neg

/-- Rounds every channel at a decimal digit. -/
def round (c : Color r t) (digits : Int) : Color r t :=
  c.mapDouble fun v => Scalar.roundDigits v digits

/-- Takes every channel from the full value of the range. -/
def invert (c : Color r t) : Color r t := c.mapDouble (Scalar.reflect r.full)

/-- Moves the channels a number of places on. -/
def rotated (c : Color r t) (places : Int) : Color r t := ⟨c.channels.rotate places⟩

/-! ## Two colors -/

def add (a b : Color r t) : Color r t := a.zipDouble Binary.add b

def sub (a b : Color r t) : Color r t := a.zipDouble Binary.sub b

def mul (a b : Color r t) : Color r t := a.zipDouble Binary.mul b

def div (a b : Color r t) : Color r t := a.zipDouble Binary.div b

/-- The remainder with the sign of the divisor. -/
def floorMod (a b : Color r t) : Color r t := a.zipDouble Scalar.floorMod b

def pow (a b : Color r t) : Color r t := a.zipDouble Binary.pow b

/-- Raises every channel to at least that of `low`. -/
def limitMin (c low : Color r t) : Color r t := c.zipDouble Binary.max low

/-- Lowers every channel to at most that of `high`. -/
def limitMax (c high : Color r t) : Color r t := c.zipDouble Binary.min high

instance : Add (Color r t) := ⟨add⟩
instance : Sub (Color r t) := ⟨sub⟩
instance : Mul (Color r t) := ⟨mul⟩
instance : Div (Color r t) := ⟨div⟩
instance : Mod (Color r t) := ⟨floorMod⟩
instance : Neg (Color r t) := ⟨neg⟩

/-! ## Three colors -/

/-- A power, then its remainder. The power is not narrowed in between. -/
def powMod (a b c : Color r t) : Color r t :=
  ofDoubles ⟨Scalar.powMod a.toDoubles.first b.toDoubles.first c.toDoubles.first,
    Scalar.powMod a.toDoubles.second b.toDoubles.second c.toDoubles.second,
    Scalar.powMod a.toDoubles.third b.toDoubles.third c.toDoubles.third⟩

end ColorAlgebra.Color
