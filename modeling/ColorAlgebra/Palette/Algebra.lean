import ColorAlgebra.Palette.Basic

namespace ColorAlgebra

variable {r : Range} {t : Format}

/-! ## One color -/

/-- An operation on a single color. -/
inductive Change where
  | abs
  | floor
  | ceil
  | trunc
  | neg
  | invert
  | zero
  | round (digits : Int)
  | rotate (places : Int)
  deriving DecidableEq, Repr

def Change.apply (c : Color r t) : Change → Color r t
  | abs => c.abs
  | floor => c.floor
  | ceil => c.ceil
  | trunc => c.trunc
  | neg => c.neg
  | invert => c.invert
  | zero => .zero
  | round digits => c.round digits
  | rotate places => c.rotated places

/-- Changes every color. -/
def Palette.change (p : Palette r t) (x : Change) : Palette r t := p.map x.apply

/-! ## Two colors -/

/-- An operation on two colors. -/
inductive Operation where
  | add
  | sub
  | mul
  | div
  | mod
  | pow
  | reversedDiv
  | reversedPow
  | reversedSub
  | limitMin
  | limitMax
  deriving DecidableEq, Repr

/-- What the operation makes of a palette's color `c` and an operand `x`. -/
def Operation.apply (op : Operation) (c x : Color r t) : Color r t :=
  match op with
  | add => c.add x
  | sub => c.sub x
  | mul => c.mul x
  | div => c.div x
  | mod => c.floorMod x
  | pow => c.pow x
  | reversedDiv => x.div c
  | reversedPow => x.pow c
  | reversedSub => x.sub c
  | limitMin => c.limitMin x
  | limitMax => c.limitMax x

/-- The other side of an operation on a palette. -/
inductive Operand (r : Range) (t : Format) where
  | all (c : Color r t)
  | each (cs : List (Color r t))

namespace Palette

/-- Applies an operation to every color. -/
def combine (p : Palette r t) (op : Operation) : Operand r t → Except Error (Palette r t)
  | .all x => .ok (p.map fun c => op.apply c x)
  | .each xs =>
    if xs.length = p.length then .ok (p.zipWith op.apply xs)
    else .error (.lengthMismatch p.length xs.length)

/-! ## Lemmas -/

theorem length_change (p : Palette r t) (x : Change) : (p.change x).length = p.length := by
  simp [change]

theorem length_combine {p q : Palette r t} {op : Operation} {x : Operand r t}
    (h : p.combine op x = .ok q) : q.length = p.length := by
  cases x with
  | all x =>
    cases h
    simp
  | each xs =>
    simp only [combine] at h
    split at h
    · next hl =>
      cases h
      simp [hl]
    · cases h

theorem combine_all_eq_each (p : Palette r t) (op : Operation) (x : Color r t) :
    p.combine op (.all x) = p.combine op (.each (List.replicate p.length x)) := by
  simp only [combine, List.length_replicate, if_true, Except.ok.injEq]
  induction p with
  | nil => rfl
  | cons c rest ih => simp [List.replicate_succ, ih]

end Palette

end ColorAlgebra
