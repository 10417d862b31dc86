import ColorAlgebra.Sequence.Edit
import ColorAlgebra.Sequence.Rotation

namespace ColorAlgebra

structure Triple (α : Type) where
  first : α
  second : α
  third : α
  deriving DecidableEq, Repr

namespace Triple

variable {α β γ : Type}

def splat (x : α) : Triple α := ⟨x, x, x⟩

def toList (t : Triple α) : List α := [t.first, t.second, t.third]

def map (f : α → β) (t : Triple α) : Triple β := ⟨f t.first, f t.second, f t.third⟩

def zipWith (f : α → β → γ) (s : Triple α) (t : Triple β) : Triple γ :=
  ⟨f s.first t.first, f s.second t.second, f s.third t.third⟩

/-- Whether a relation holds between the values in each place. -/
def all (r : α → β → Bool) (s : Triple α) (t : Triple β) : Bool :=
  r s.first t.first && r s.second t.second && r s.third t.third

def reverse (t : Triple α) : Triple α := ⟨t.third, t.second, t.first⟩

/-- Moves each value a number of places on, and what falls off to the front. -/
def rotate (t : Triple α) (places : Int) : Triple α :=
  match Sequence.turn 3 places with
  | 0 => t
  | 1 => ⟨t.third, t.first, t.second⟩
  | _ => ⟨t.second, t.third, t.first⟩

/-- The value at an index below three. -/
def get (t : Triple α) (i : Nat) : Except OutOfBounds α := Sequence.index t.toList i

/-- Replaces the value at an index below three. -/
def set (t : Triple α) (i : Nat) (x : α) : Except OutOfBounds (Triple α) :=
  match i with
  | 0 => .ok { t with first := x }
  | 1 => .ok { t with second := x }
  | 2 => .ok { t with third := x }
  | i => .error ⟨3, i⟩

/-! ## Lemmas -/

theorem length_toList (t : Triple α) : t.toList.length = 3 := rfl

theorem forall_mem_toList {p : α → Prop} {t : Triple α} :
    (∀ x ∈ t.toList, p x) ↔ p t.first ∧ p t.second ∧ p t.third := by
  simp [toList]

theorem forall_mem_zip {p : α × β → Prop} {s : Triple α} {t : Triple β} :
    (∀ pair ∈ s.toList.zip t.toList, p pair) ↔
      p (s.first, t.first) ∧ p (s.second, t.second) ∧ p (s.third, t.third) := by
  simp [toList]

theorem all_eq_true_iff {r : α → β → Bool} {s : Triple α} {t : Triple β} :
    all r s t = true ↔ ∀ pair ∈ s.toList.zip t.toList, r pair.1 pair.2 = true := by
  rw [forall_mem_zip]
  simp [all, and_assoc]

theorem toList_rotate (t : Triple α) (places : Int) :
    (t.rotate places).toList = Sequence.rotate t.toList places := by
  have h := Sequence.turn_lt (show 0 < 3 by decide) places
  unfold rotate Sequence.rotate
  rw [length_toList]
  generalize Sequence.turn 3 places = k at h
  match k, h with
  | 0, _ => rfl
  | 1, _ => rfl
  | 2, _ => rfl

theorem get_of_lt {t : Triple α} {i : Nat} (h : i < 3) : t.get i = .ok (t.toList.get ⟨i, h⟩) := by
  unfold get Sequence.index
  rw [List.getElem?_eq_getElem (show i < t.toList.length from h)]
  rfl

theorem exists_set (t : Triple α) {i : Nat} (h : i < 3) (x : α) : ∃ t', t.set i x = .ok t' := by
  rcases i with _ | _ | _ | i
  · exact ⟨_, rfl⟩
  · exact ⟨_, rfl⟩
  · exact ⟨_, rfl⟩
  · omega

theorem get_set_self {t t' : Triple α} {i : Nat} {x : α} (h : t.set i x = .ok t') :
    t'.get i = .ok x := by
  unfold set at h
  split at h <;> cases h <;> rfl

end Triple

end ColorAlgebra
