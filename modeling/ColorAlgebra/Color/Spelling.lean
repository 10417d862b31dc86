import ColorAlgebra.Color.Names
import ColorAlgebra.Decimal.Layout
import ColorAlgebra.Decimal.Numeral
import ColorAlgebra.Text.Blank
import ColorAlgebra.Text.Split

/-!
# Colors as text

A color is written by its name if it has one, and else as its three normalized
channels in parentheses. Read are, whatever the case of letters and with blanks
around them: names, six hexadecimal digits behind `#` or `0x`, and three finite
numbers between commas, with or without parentheses around all of them.
-/

namespace ColorAlgebra

namespace Spelling

/-! ## Writing -/

/-- The format whose digits a channel is printed with. A half is printed as the
single it widens to. -/
def printed : Format → Format
  | .half => .single
  | f => f

/-- The text of a channel. -/
def writeChannel {t : Format} (l : Layout) (x : Binary t) : List Char :=
  l.write (x.convert (printed t))

/-- The text of a normalized triple: its name, or its channels in full. -/
def write {t : Format} (n : Triple (Binary t)) : String :=
  match Names.of? (n.map (Binary.convert .double)) with
  | some name => name
  | none =>
    String.ofList ('(' :: [',', ' '].intercalate (n.map (writeChannel .plain)).toList ++ [')'])

/-! ## Reading -/

def hexDigit? (c : Char) : Option Nat :=
  if c.isDigit then some (c.toNat - '0'.toNat)
  else if 'a' ≤ c ∧ c ≤ 'f' then some (c.toNat - 'a'.toNat + 10)
  else none

/-- What is behind the mark of a hexadecimal color. -/
def afterHexMark? : List Char → Option (List Char)
  | '#' :: rest => some rest
  | '0' :: 'x' :: rest => some rest
  | _ => none

/-- Six hexadecimal digits as a packed color. -/
def readHex? (text : List Char) : Option UInt32 :=
  match text.mapM hexDigit? with
  | some digits =>
    if digits.length = 6 then some (UInt32.ofNat (digits.foldl (fun n d => 16 * n + d) 0)) else none
  | none => none

/-- A finite number with blanks around it. -/
def readNumber? (text : List Char) : Option Double :=
  match Numeral.read? (Text.trim text) with
  | some numeral =>
    let x := numeral.toBinary .double
    if x.isFinite then some x else none
  | none => none

/-- A text without the parentheses around it. One that is opened must be
closed. -/
def unwrap? : List Char → Option (List Char)
  | '(' :: rest => if rest.getLast? = some ')' then some rest.dropLast else none
  | text => some text

/-- Three numbers between commas. -/
def readTuple? (text : List Char) : Option (Triple Double) :=
  match (unwrap? text).map (Text.split ',') with
  | some [a, b, c] =>
    match readNumber? a, readNumber? b, readNumber? c with
    | some x, some y, some z => some ⟨x, y, z⟩
    | _, _, _ => none
  | _ => none

/-- A text with neither blanks around it nor capital letters. -/
def simplify (text : List Char) : List Char := (Text.trim text).map Char.toLower

/-- The normalized triple that a simplified text spells. -/
def readSimplified? (text : List Char) : Option (Triple Double) :=
  match Names.hexOf? text with
  | some word => some (Hex.decode word)
  | none =>
    match afterHexMark? text with
    | some digits => (readHex? digits).map Hex.decode
    | none => readTuple? text

/-- The normalized triple that a text spells. -/
def read? (text : String) : Option (Triple Double) := readSimplified? (simplify text.toList)

end Spelling

namespace Color

variable {r : Range} {t : Format}

/-- The color as text. The channels are normalized in their own format, so the
digits are those of that format. -/
def toText (c : Color r t) : String := Spelling.write c.unscale.channels

/-- The color that a text spells. -/
def ofText (text : String) : Except Error (Color r t) :=
  match Spelling.read? text with
  | some n => .ok (ofNormalized n)
  | none => .error (.parse text)

/-- Range, channel format and channels, with the range not taken out. -/
def debug (c : Color r t) : String :=
  "Color<" ++ r.name ++ ", " ++ t.name ++ ">(" ++
    ", ".intercalate (c.channels.map fun x => String.ofList (Spelling.writeChannel .marked x)).toList
    ++ ")"

end Color

end ColorAlgebra
