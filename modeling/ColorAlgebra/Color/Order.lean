import ColorAlgebra.Color.Basic

namespace ColorAlgebra

/-! ## Relations -/

/-- How one color can stand to another. -/
inductive Relation where
  | lt
  | le
  | eq
  | ne
  | gt
  | ge
  deriving DecidableEq, Repr

namespace Relation

/-- All relations, in the order of their codes. -/
def all : List Relation := [lt, le, eq, ne, gt, ge]

/-- The relation of a code from zero to five. -/
def ofCode? (code : Int) : Option Relation :=
  if code < 0 then none else all[code.toNat]?

/-- Whether a signed comparison number means the relation. -/
def holds (rel : Relation) (cmp : Double) : Bool :=
  match rel with
  | lt => cmp.less .zero
  | le => cmp.atMost .zero
  | eq => cmp.equal .zero
  | ne => !cmp.equal .zero
  | gt => Binary.less .zero cmp
  | ge => Binary.atMost .zero cmp

def symbol : Relation → String
  | lt => "<"
  | le => "<="
  | eq => "=="
  | ne => "!="
  | gt => ">"
  | ge => ">="

end Relation

namespace Color

variable {r : Range} {t : Format}

/-! ## Comparison -/

/-- The difference of the first two channels that are not equal, or zero. -/
def compare (a b : Color r t) : Double :=
  match (a.toDoubles.toList.zip b.toDoubles.toList).find? fun (x, y) => !x.equal y with
  | some (x, y) => x.sub y
  | none => Binary.zero

def compareWith (rel : Relation) (a b : Color r t) : Bool := rel.holds (a.compare b)

/-- Which way two colors stand: by the sign of their comparison. -/
def order? (a b : Color r t) : Option Ordering :=
  let c := a.compare b
  if c.less .zero then some .lt
  else if Binary.less .zero c then some .gt
  else if c.equal .zero then some .eq
  else none

/-- Whether two colors stand in a relation. Equality is that of the channels; the
order is `order?`, and a pair without one is in no order. -/
def stands (rel : Relation) (a b : Color r t) : Bool :=
  match rel with
  | .lt => a.order? b = some .lt
  | .le => a.order? b = some .lt || a.order? b = some .eq
  | .eq => a.equal b
  | .ne => !a.equal b
  | .gt => a.order? b = some .gt
  | .ge => a.order? b = some .gt || a.order? b = some .eq

/-! ## Sorting -/

/-- Numbers by size, and NaNs, all alike, behind them. -/
def channelOrder (x y : Binary t) : Ordering :=
  match x.rank, y.rank with
  | some a, some b => Ord.compare a b
  | some _, none => .lt
  | none, some _ => .gt
  | none, none => .eq

/-- The order that palettes are sorted by. -/
def sortOrder (a b : Color r t) : Ordering :=
  ((channelOrder a.channels.first b.channels.first).then
    (channelOrder a.channels.second b.channels.second)).then
    (channelOrder a.channels.third b.channels.third)

/-! ## Distance -/

def square (v : Double) : Double := v.mul v

/-- The sum of the squared channel differences, added in order. -/
def distance2 (a b : Color r t) : Double :=
  let d := (a.toDoubles.zipWith Binary.sub b.toDoubles).map square
  (d.first.add d.second).add d.third

def distance (a b : Color r t) : Double := (a.distance2 b).sqrt

end Color

end ColorAlgebra
