import ColorAlgebra.Color.Algebra
import ColorAlgebra.Color.Order
import ColorAlgebra.Color.Spelling
import ColorAlgebra.Spread

namespace ColorAlgebra

abbrev Palette (r : Range) (t : Format) := List (Color r t)

namespace Palette

variable {r : Range} {t : Format}

/-! ## Search -/

/-- How many colors of the palette equal `c`. -/
def count (p : Palette r t) (c : Color r t) : Nat := p.countP fun x => x.equal c

/-- Where the first color that equals `c` is. -/
def indexOf? (p : Palette r t) (c : Color r t) : Option Nat := p.findIdx? fun x => x.equal c

/-- The same as a number, with minus one for a color that is not there. -/
def indexOrNeg (p : Palette r t) (c : Color r t) : Int :=
  match p.indexOf? c with
  | some i => i
  | none => -1

/-- Takes the first color that equals `c` out. -/
def remove (p : Palette r t) (c : Color r t) : Except Error (Palette r t) :=
  match Sequence.removeFirst? p fun x => x.equal c with
  | some rest => .ok rest
  | none => .error .notFound

/-- Equality color by color. -/
def equal (p q : Palette r t) : Bool :=
  p.length = q.length && (p.zip q).all fun (x, y) => x.equal y

/-! ## Order -/

/-- Sorts by `Color.sortOrder`; colors equal in that order stay in their order. -/
def sort (p : Palette r t) : Palette r t := p.mergeSort fun a b => (a.sortOrder b).isLE

/-- The least number in each channel, or infinity if there is none. -/
def minimum (p : Palette r t) : Color r t :=
  p.foldl (fun least c => least.zipDouble Binary.min c) (.splat (.infinity false))

/-- The greatest number in each channel, or minus infinity if there is none. -/
def maximum (p : Palette r t) : Color r t :=
  p.foldl (fun greatest c => greatest.zipDouble Binary.max c) (.splat (.infinity true))

/-! ## Growth -/

/-- The color a fraction of the way between two colors. -/
def between (start stop : Color r t) (fraction : Double) : Color r t :=
  start.zipDouble (fun a b => Scalar.lerp a b fraction) stop

/-- Grows the palette to `size` colors by a spread from its last color to
`stop`. An empty palette spreads from `stop` itself, and one that is large
enough stays as it is. The fault of a count that has no spread is passed on. -/
def spread (p : Palette r t) (size : Nat) (stop : Color r t) : Except Fault (Palette r t) :=
  if size ≤ p.length then .ok p
  else
    (Spread.fractions (size - p.length)).map fun qs =>
      p ++ qs.map (between (p.getLast?.getD stop) stop)

/-! ## Packed colors and text -/

def ofHexes (words : List UInt32) : Palette r t := words.map Color.ofHex

def toHexes (p : Palette r t) : List UInt32 := p.map Color.toHex

/-- Items between brackets. -/
def bracketed (items : List String) : String := "[" ++ ", ".intercalate items ++ "]"

def toText (p : Palette r t) : String := bracketed (p.map Color.toText)

def debug (p : Palette r t) : String := bracketed (p.map Color.debug)

/-! ## Lemmas -/

theorem sort_perm (p : Palette r t) : p.sort.Perm p := List.mergeSort_perm p _

theorem length_sort (p : Palette r t) : p.sort.length = p.length := p.sort_perm.length_eq

theorem indexOf?_eq_none_iff {p : Palette r t} {c : Color r t} :
    p.indexOf? c = none ↔ p.count c = 0 := by
  simp [indexOf?, count, List.findIdx?_eq_none_iff, List.countP_eq_zero]

theorem length_ofHexes (words : List UInt32) :
    (ofHexes words : Palette r t).length = words.length := by
  simp [ofHexes]

end Palette

end ColorAlgebra
