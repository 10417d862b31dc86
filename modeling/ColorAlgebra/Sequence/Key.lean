/-!
# Keys

A key names a position of a sequence by a signed number: counted from the front
when it is not negative, from the end when it is. Keys are 64-bit words, and a
sequence longer than the largest of them has no keyed positions.
-/

namespace ColorAlgebra

/-- The greatest length that keys can count through: the largest signed 64-bit
word. -/
def maxLength : Nat := 0x7fffffffffffffff

/-- A signed position; `-1` is the last element. -/
abbrev Key := Int

namespace Key

/-- A key counted from the front. -/
def fromFront (key : Key) (size : Nat) : Int :=
  if key < 0 then key + size else key

/-- The position that a key names in a sequence of `size` elements, if any. -/
def position? (key : Key) (size : Nat) : Option Nat :=
  if size ≤ maxLength ∧ 0 ≤ key.fromFront size ∧ key.fromFront size < size then
    some (key.fromFront size).toNat
  else none

/-- The nearest place for a key in a sequence of `size` elements. -/
def clamped (key : Key) (size : Nat) : Nat :=
  let bound := min size maxLength
  (max 0 (min (key.fromFront bound) bound)).toNat

/-- Where an element inserted at a key goes. -/
def insertionPoint (key : Key) (size : Nat) : Nat :=
  (key.position? size).getD (key.clamped size)

/-! ## Lemmas -/

theorem position?_eq_some_iff {key : Key} {size k : Nat} :
    key.position? size = some k ↔
      size ≤ maxLength ∧ k < size ∧ (k : Int) = key.fromFront size := by
  unfold position?
  split
  · simp only [Option.some.injEq]
    omega
  · simp only [reduceCtorEq, false_iff]
    omega

theorem position?_lt {key : Key} {size k : Nat} (h : key.position? size = some k) : k < size :=
  (position?_eq_some_iff.1 h).2.1

theorem position?_ofNat {size k : Nat} (hk : k < size) (hs : size ≤ maxLength) :
    position? k size = some k := by
  have hneg : ¬(k : Int) < 0 := by omega
  rw [position?_eq_some_iff, fromFront, if_neg hneg]
  exact ⟨hs, hk, rfl⟩

theorem clamped_le (key : Key) (size : Nat) : key.clamped size ≤ size := by
  unfold clamped
  dsimp only
  omega

theorem insertionPoint_of_position? {key : Key} {size k : Nat} (h : key.position? size = some k) :
    key.insertionPoint size = k := by
  simp [insertionPoint, h]

theorem insertionPoint_le (key : Key) (size : Nat) : key.insertionPoint size ≤ size := by
  unfold insertionPoint
  cases h : key.position? size with
  | none => exact key.clamped_le size
  | some k => exact Nat.le_of_lt (position?_lt h)

end Key

end ColorAlgebra
