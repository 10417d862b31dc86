import ColorAlgebra.Color.Hex
import ColorAlgebra.Decimal.Basic

/-!
# Color names

A fixed table of names and their packed colors. A normalized triple has a name
when each of its channels is within a small tolerance of the named color's.
-/

namespace ColorAlgebra.Names

/-- The named colors, in the order in which they are listed. -/
def table : List (String × UInt32) := [
  ("black", 0x000000),
  ("white", 0xFFFFFF),
  ("red", 0xFF0000),
  ("lime", 0x00FF00),
  ("blue", 0x0000FF),
  ("yellow", 0xFFFF00),
  ("cyan", 0x00FFFF),
  ("magenta", 0xFF00FF),
  ("gray", 0x808080),
  ("silver", 0xC0C0C0),
  ("maroon", 0x800000),
  ("olive", 0x808000),
  ("green", 0x008000),
  ("purple", 0x800080),
  ("teal", 0x008080),
  ("navy", 0x000080),
  ("orange", 0xFFA500)
]

/-- The names alone. -/
def all : List String := table.map (·.1)

/-- The packed color of a name. -/
def hexOf? (name : List Char) : Option UInt32 :=
  (table.find? fun entry => entry.1.toList = name).map (·.2)

/-- The name of a packed color. -/
def ofHex? (word : UInt32) : Option String :=
  (table.find? fun entry => entry.2 = word).map (·.1)

/-- How far a channel may lie from that of a name. -/
def tolerance : Double := (Decimal.mk 1 (-6)).toBinary .double false

def near (a b : Double) : Bool := (a.sub b).abs.atMost tolerance

/-- The name of a normalized triple. Only the packed color nearest to it can be
near enough, so no other is looked at. -/
def of? (n : Triple Double) : Option String :=
  let word := Hex.encode n
  if Triple.all near n (Hex.decode word) then ofHex? word else none

end ColorAlgebra.Names
