import ColorAlgebra.Binary.Arithmetic
import ColorAlgebra.Error
import ColorAlgebra.Word

/-!
# Spread fractions

A spread of `count` new points between two colors puts them at the fractions
`1 / count`, `2 / count`, up to one. The last fraction is exactly one, however
the division rounds. Points are numbered by the words up to the one after
`count`: for the largest word there is none, and asking for its spread is a fault.
-/

namespace ColorAlgebra.Spread

/-- How many 64-bit words there are. -/
def wordSize : Nat := 0x10000000000000000

/-- The number of points: of the words from one up to the one after `count`. -/
def size (count : Nat) : Except Fault Nat := (Word.sum count 1).map fun stop => stop - 1

/-- Where the `k`-th of `count` points lies. -/
def fraction (count k : Nat) : Double :=
  if k = count then Binary.one else (Binary.ofNat k).div (Binary.ofNat count)

/-- Where the points up to the `n`-th lie. -/
def fractionsTo (count n : Nat) : List Double :=
  (List.range n).map fun i => fraction count (i + 1)

/-- The first `n` fractions, or all if there are fewer. -/
def first (count n : Nat) : Except Fault (List Double) :=
  (size count).map fun size => fractionsTo count (min n size)

def fractions (count : Nat) : Except Fault (List Double) := (size count).map (fractionsTo count)

theorem length_fractionsTo (count n : Nat) : (fractionsTo count n).length = n := by
  simp [fractionsTo]

/-! ## Counts -/

theorem size_of_lt {count : Nat} (h : count + 1 < wordSize) : size count = .ok count := by
  rw [size, Word.sum_of_isUnsigned ⟨Int.natCast_nonneg _, Int.ofNat_le.mpr (Nat.le_of_lt_succ h)⟩]
  rfl

/-- There is no word after the largest one. -/
theorem size_of_last {count : Nat} (h : count + 1 = wordSize) : size count = .error .overflow := by
  have hword : ¬Word.IsUnsigned (count + 1 : Nat) := by
    rw [h]
    decide
  rw [size, Word.sum_of_not_isUnsigned hword]
  rfl

theorem first_of_lt {count : Nat} (h : count + 1 < wordSize) (n : Nat) :
    first count n = .ok (fractionsTo count (min n count)) := by
  rw [first, size_of_lt h]
  rfl

theorem fractions_of_lt {count : Nat} (h : count + 1 < wordSize) :
    fractions count = .ok (fractionsTo count count) := by
  rw [fractions, size_of_lt h]
  rfl

theorem first_of_last {count : Nat} (h : count + 1 = wordSize) (n : Nat) :
    first count n = .error .overflow := by
  rw [first, size_of_last h]
  rfl

theorem fractions_of_last {count : Nat} (h : count + 1 = wordSize) :
    fractions count = .error .overflow := by
  rw [fractions, size_of_last h]
  rfl

end ColorAlgebra.Spread
