import ColorAlgebra.Error
import ColorAlgebra.Sequence.Key

namespace ColorAlgebra.Word

/-- A number that a signed word can hold. -/
def IsSigned (n : Int) : Prop := -0x8000000000000000 ≤ n ∧ n ≤ maxLength

/-- A number that an unsigned word can hold. -/
def IsUnsigned (n : Int) : Prop := 0 ≤ n ∧ n ≤ 0xffffffffffffffff

instance (n : Int) : Decidable (IsSigned n) := inferInstanceAs (Decidable (_ ∧ _))

instance (n : Int) : Decidable (IsUnsigned n) := inferInstanceAs (Decidable (_ ∧ _))

/-- The result of a step, if a signed word can hold it. -/
def signed? (n : Int) : Option Int := if IsSigned n then some n else none

/-- The result of a step, if an unsigned word can hold it. -/
def unsigned? (n : Int) : Option Nat := if IsUnsigned n then some n.toNat else none

/-- The sum of two unsigned words. It is a fault if no word can hold it. -/
def sum (m n : Nat) : Except Fault Nat := (unsigned? (m + n : Nat)).elim (.error .overflow) .ok

theorem signed?_eq_some {n : Int} (h : IsSigned n) : signed? n = some n := if_pos h

theorem unsigned?_natCast {n : Nat} (h : IsUnsigned n) : unsigned? n = some n := if_pos h

theorem unsigned?_eq_some {n : Int} (h : IsUnsigned n) : unsigned? n = some n.toNat := if_pos h

theorem sum_of_isUnsigned {m n : Nat} (h : IsUnsigned (m + n : Nat)) : sum m n = .ok (m + n) := by
  rw [sum, unsigned?_natCast h]
  rfl

theorem sum_of_not_isUnsigned {m n : Nat} (h : ¬IsUnsigned (m + n : Nat)) :
    sum m n = .error .overflow := by
  have hnone : unsigned? (m + n : Nat) = none := if_neg h
  rw [sum, hnone]
  rfl

theorem isSigned_of_le {n : Int} {length : Nat} (hlow : -1 ≤ n) (hhigh : n ≤ length)
    (hlen : length ≤ maxLength) : IsSigned n :=
  ⟨by omega, by omega⟩

theorem isUnsigned_of_le {n : Int} {length : Nat} (hlow : 0 ≤ n) (hhigh : n ≤ length)
    (hlen : length ≤ maxLength) : IsUnsigned n := by
  unfold maxLength at hlen
  exact ⟨hlow, by omega⟩

end ColorAlgebra.Word
