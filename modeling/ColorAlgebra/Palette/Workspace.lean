import ColorAlgebra.Palette.Algebra

/-!
# Editing palettes

A workspace holds the palette that is being edited and a spare one. A command
does one operation on it and gives a reply. A command that fails leaves both
palettes as they were.
-/

namespace ColorAlgebra

variable {r : Range} {t : Format}

structure Workspace (r : Range) (t : Format) where
  current : Palette r t
  spare : Palette r t := []

/-- Where colors that a command takes come from. -/
inductive Source (r : Range) (t : Format) where
  | values (cs : List (Color r t))
  | spare

/-- The other side of an operation: one color for all, or one for each from a
list or one of the two palettes. -/
inductive Argument (r : Range) (t : Format) where
  | all (c : Color r t)
  | each (cs : List (Color r t))
  | current
  | spare

inductive Command (r : Range) (t : Format) where
  -- by key
  | get (key : Key)
  | setChannel (key : Key) (channel : Nat) (v : Double)
  | set (key : Key) (c : Color r t)
  | insert (key : Key) (c : Color r t)
  | pop (key : Key)
  | popLast
  -- by slice
  | extract (s : Slice)
  | extractToSpare (s : Slice)
  | assign (s : Slice) (values : Source r t)
  | delete (s : Slice)
  -- by color
  | count (c : Color r t)
  | indexOf (c : Color r t)
  | remove (c : Color r t)
  -- by index
  | index (i : Nat)
  | exchange (i j : Nat)
  -- the whole palette
  | push (c : Color r t)
  | append (values : Source r t)
  | rotate (places : Int)
  | reverse
  | sort
  | clear
  | ofHexes (words : List UInt32)
  | spread (size : Nat) (stop : Color r t)
  | change (x : Change)
  | combine (op : Operation) (x : Argument r t)
  -- questions
  | length
  | minimum
  | maximum
  | distances (c : Color r t)
  | toHexes
  | toText
  | debug
  -- both palettes
  | equalsSpare
  | copyToSpare
  | swap

/-- What a command answers. -/
inductive Reply (r : Range) (t : Format) where
  | done
  | failed (e : Error)
  | fault (e : Fault)
  | flag (b : Bool)
  | color? (c : Option (Color r t))
  | palette (p : Palette r t)
  | size (n : Nat)
  | place (index : Option Nat) (orNeg : Int)
  | words (ws : List UInt32)
  | doubles (vs : List Double)
  | text (s : String)

namespace Workspace

def colors (w : Workspace r t) : Source r t → List (Color r t)
  | .values cs => cs
  | .spare => w.spare

def operand (w : Workspace r t) : Argument r t → Operand r t
  | .all c => .all c
  | .each cs => .each cs
  | .current => .each w.current
  | .spare => .each w.spare

/-- The workspace with a new current palette. -/
def keep (w : Workspace r t) (p : Palette r t) : Reply r t × Workspace r t :=
  (.done, { w with current := p })

/-- Takes a new current palette over, or reports why there is none. -/
def attempt (w : Workspace r t) : Except Error (Palette r t) → Reply r t × Workspace r t
  | .ok p => w.keep p
  | .error e => (.failed e, w)

/-- Answers a question. -/
def answer (w : Workspace r t) (reply : Reply r t) : Reply r t × Workspace r t := (reply, w)

/-- Sets one channel of the color that a key names, and tells whether it names
one. The channel is looked at only then. -/
def setChannel (w : Workspace r t) (key : Key) (channel : Nat) (v : Double) :
    Reply r t × Workspace r t :=
  match Sequence.get? w.current key with
  | none => w.answer (.flag false)
  | some c =>
    match c.channels.set channel (v.convert t) with
    | .error e => w.answer (.fault (.outOfBounds e))
    | .ok channels =>
      (.flag true,
        { w with current := (Sequence.modify? w.current key fun _ => ⟨channels⟩).getD w.current })

/-- Runs one command. -/
def run (w : Workspace r t) : Command r t → Reply r t × Workspace r t
  | .get key => w.answer (.color? (Sequence.get? w.current key))
  | .setChannel key channel v => w.setChannel key channel v
  | .set key c => w.attempt (Sequence.set w.current key c)
  | .insert key c => w.keep (Sequence.insert w.current key c)
  | .pop key =>
    match Sequence.pop? w.current key with
    | some (c, rest) => (.color? (some c), { w with current := rest })
    | none => w.answer (.color? none)
  | .popLast =>
    match Sequence.popLast? w.current with
    | some (c, rest) => (.color? (some c), { w with current := rest })
    | none => w.answer (.color? none)
  | .extract s =>
    match Sequence.extract w.current s with
    | .ok p => w.answer (.palette p)
    | .error e => w.answer (.failed e)
  | .extractToSpare s =>
    match Sequence.extract w.current s with
    | .ok p => (.done, { w with spare := p })
    | .error e => w.answer (.failed e)
  | .assign s values => w.attempt (Sequence.assign w.current s (w.colors values))
  | .delete s => w.attempt (Sequence.delete w.current s)
  | .count c => w.answer (.size (w.current.count c))
  | .indexOf c => w.answer (.place (w.current.indexOf? c) (w.current.indexOrNeg c))
  | .remove c => w.attempt (w.current.remove c)
  | .index i =>
    match Sequence.index w.current i with
    | .ok c => w.answer (.color? (some c))
    | .error e => w.answer (.fault (.outOfBounds e))
  | .exchange i j =>
    match Sequence.exchange w.current i j with
    | .ok p => w.keep p
    | .error e => w.answer (.fault (.outOfBounds e))
  | .push c => w.keep (w.current ++ [c])
  | .append values => w.keep (w.current ++ w.colors values)
  | .rotate places => w.keep (Sequence.rotate w.current places)
  | .reverse => w.keep w.current.reverse
  | .sort => w.keep w.current.sort
  | .clear => w.keep []
  | .ofHexes words => w.keep (Palette.ofHexes words)
  | .spread size stop =>
    match w.current.spread size stop with
    | .ok p => w.keep p
    | .error e => w.answer (.fault e)
  | .change x => w.keep (w.current.change x)
  | .combine op x => w.attempt (w.current.combine op (w.operand x))
  | .length => w.answer (.size w.current.length)
  | .minimum => w.answer (.color? (some w.current.minimum))
  | .maximum => w.answer (.color? (some w.current.maximum))
  | .distances c => w.answer (.doubles (w.current.map fun x => x.distance2 c))
  | .toHexes => w.answer (.words w.current.toHexes)
  | .toText => w.answer (.text w.current.toText)
  | .debug => w.answer (.text w.current.debug)
  | .equalsSpare => w.answer (.flag (w.current.equal w.spare))
  | .copyToSpare => (.done, { w with spare := w.current })
  | .swap => (.done, ⟨w.spare, w.current⟩)

/-- Runs commands in a row, and gives the workspace at the end. -/
def runAll (w : Workspace r t) (commands : List (Command r t)) : Workspace r t :=
  commands.foldl (fun w command => (w.run command).2) w

end Workspace

end ColorAlgebra
