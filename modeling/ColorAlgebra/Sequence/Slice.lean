import ColorAlgebra.Error
import ColorAlgebra.Sequence.Key

/-!
# Slices

A slice `start:stop:step` selects every `step`-th position from `start` up to
but not including `stop`. Either bound may be missing; a negative bound counts
from the end, and a bound past an end is moved to it. A negative step walks
backward, from the last position down.
-/

namespace ColorAlgebra

/-- A slice of a sequence whose length is not known yet. -/
structure Slice where
  start : Option Int := none
  stop : Option Int := none
  step : Int := 1
  deriving DecidableEq, Repr

/-- The positions that a resolved slice still has to visit: `remaining` of them
from `start` on, `step` apart. -/
structure Selection where
  start : Int
  step : Int
  remaining : Nat
  deriving DecidableEq, Repr

/-! ## Selections -/

namespace Selection

/-- The next position of the walk, if there is one. -/
def first? (s : Selection) : Option Nat :=
  if 0 < s.remaining then some s.start.toNat else none

/-- The least and the greatest number of positions left. A walk need not know the
greatest beforehand; that of a selection does. -/
def sizeBounds (s : Selection) : Nat × Option Nat := (s.remaining, some s.remaining)

/-- The number of positions left, if the bounds leave no doubt about it. -/
def size? (s : Selection) : Option Nat :=
  if s.sizeBounds.2 = some s.sizeBounds.1 then some s.sizeBounds.1 else none

/-- A selection in steps of one as a span from its first position to behind its
last. An empty one still has a place, which is where elements are put in. -/
def span? (s : Selection) : Option (Nat × Nat) :=
  if s.step = 1 then some (s.start.toNat, s.start.toNat + s.remaining) else none

/-- Visits the next position. The start moves on only while another position is
left, so it never leaves the sequence by a long step. -/
def next? (s : Selection) : Option (Nat × Selection) :=
  match s.remaining with
  | 0 => none
  | left + 1 =>
    some (s.start.toNat, ⟨if left = 0 then s.start else s.start + s.step, s.step, left⟩)

/-- All positions, in the order of the walk. -/
def positions (s : Selection) : List Nat :=
  (List.range s.remaining).map fun k : Nat => (s.start + k * s.step).toNat

theorem length_positions (s : Selection) : s.positions.length = s.remaining := by
  simp [positions]

theorem positions_of_next?_eq_none {s : Selection} (h : s.next? = none) : s.positions = [] := by
  obtain ⟨start, step, remaining⟩ := s
  cases remaining with
  | zero => rfl
  | succ left => simp [next?] at h

theorem positions_of_next? {s t : Selection} {p : Nat} (h : s.next? = some (p, t)) :
    s.positions = p :: t.positions := by
  obtain ⟨start, step, remaining⟩ := s
  cases remaining with
  | zero => simp [next?] at h
  | succ left =>
    simp only [next?, Option.some.injEq, Prod.mk.injEq] at h
    obtain ⟨rfl, rfl⟩ := h
    simp only [positions, List.range_succ_eq_map, List.map_cons, List.map_map, List.cons.injEq]
    refine ⟨by simp, List.map_congr_left fun k hk => ?_⟩
    have hleft : left ≠ 0 := by
      rintro rfl
      simp at hk
    simp only [Function.comp_apply, if_neg hleft]
    congr 1
    grind

end Selection

/-! ## Resolving a slice -/

namespace Slice

/-- Every position, in order. -/
def full : Slice := {}

/-- The positions from `start` up to `stop`. -/
def between (start stop : Int) : Slice := ⟨some start, some stop, 1⟩

/-- Whether the selection may be reversed or have gaps. -/
def isExtended (s : Slice) : Bool := s.step ≠ 1

/-- The lowest place a bound can have. A backward walk ends before the front. -/
def lower (s : Slice) : Int := if s.step < 0 then -1 else 0

/-- The highest place a bound can have. A backward walk begins at the last
position. -/
def upper (s : Slice) (length : Nat) : Int := if s.step < 0 then (length : Int) - 1 else length

/-- The place of a bound: counted from the end if negative, and moved to an end
if past it. -/
def place (s : Slice) (length : Nat) (bound : Int) : Int :=
  if bound < 0 then max (bound + length) s.lower else min bound (s.upper length)

/-- The place where the walk begins. -/
def origin (s : Slice) (length : Nat) : Int :=
  match s.start with
  | some bound => s.place length bound
  | none => if s.step < 0 then s.upper length else s.lower

/-- The place that the walk does not reach. -/
def limit (s : Slice) (length : Nat) : Int :=
  match s.stop with
  | some bound => s.place length bound
  | none => if s.step < 0 then s.lower else s.upper length

/-- How far the limit lies from the origin, in the direction of the walk. -/
def reach (s : Slice) (length : Nat) : Int :=
  if s.step < 0 then s.origin length - s.limit length else s.limit length - s.origin length

/-- How many positions the walk visits: one, and one more for each whole step
between the first position and the last place before the limit. -/
def count (s : Slice) (length : Nat) : Nat :=
  if 0 < s.reach length then (s.reach length - 1).toNat / s.step.natAbs + 1 else 0

/-- The selection that a slice makes in a sequence of `size` elements. -/
def resolve (s : Slice) (size : Nat) : Except SliceError Selection :=
  if s.step = 0 then .error .zeroStep
  else
    let length := min size maxLength
    .ok ⟨s.origin length, s.step, s.count length⟩

/-! ## Lemmas -/

theorem resolve_eq_error_iff {s : Slice} {size : Nat} {e : SliceError} :
    s.resolve size = .error e ↔ s.step = 0 := by
  unfold resolve
  split <;> simp_all

theorem lower_le_place (s : Slice) (length : Nat) (bound : Int) : s.lower ≤ s.place length bound := by
  unfold place lower upper
  split <;> split <;> omega

theorem place_le_upper (s : Slice) (length : Nat) (bound : Int) :
    s.place length bound ≤ s.upper length := by
  unfold place lower upper
  split <;> split <;> omega

theorem origin_bounds (s : Slice) (length : Nat) :
    s.lower ≤ s.origin length ∧ s.origin length ≤ s.upper length := by
  unfold origin
  split
  · exact ⟨s.lower_le_place _ _, s.place_le_upper _ _⟩
  · unfold lower upper
    split <;> omega

theorem limit_bounds (s : Slice) (length : Nat) :
    s.lower ≤ s.limit length ∧ s.limit length ≤ s.upper length := by
  unfold limit
  split
  · exact ⟨s.lower_le_place _ _, s.place_le_upper _ _⟩
  · unfold lower upper
    split <;> omega

/-- The whole steps of the walk fit between the origin and the limit. -/
theorem steps_lt_reach {s : Slice} {length k : Nat} (hk : k < s.count length) :
    ((k * s.step.natAbs : Nat) : Int) < s.reach length := by
  unfold count at hk
  split at hk
  · next h =>
    have : k ≤ (s.reach length - 1).toNat / s.step.natAbs := by omega
    have := Nat.le_trans (Nat.mul_le_mul_right s.step.natAbs this) (Nat.div_mul_le_self _ _)
    omega
  · omega

/-- Each visited place is a position of the sequence. -/
theorem visited_bounds {s : Slice} {length k : Nat} (hk : k < s.count length) :
    0 ≤ s.origin length + k * s.step ∧ s.origin length + k * s.step < length := by
  have hr := steps_lt_reach hk
  have ho := s.origin_bounds length
  have hl := s.limit_bounds length
  unfold lower upper at ho hl
  unfold reach at hr
  have hstep : ((k * s.step.natAbs : Nat) : Int) = if s.step < 0 then -(k * s.step) else k * s.step := by
    split
    · rw [Int.natCast_mul, ← Int.mul_neg]
      congr 1
      omega
    · rw [Int.natCast_mul]
      congr 1
      omega
  rw [hstep] at hr
  have hk0 : 0 ≤ ((k * s.step.natAbs : Nat) : Int) := Int.natCast_nonneg _
  rw [hstep] at hk0
  split at hr <;> simp_all only [if_true, if_false] <;> omega

/-- Every selected position is within the sequence. -/
theorem positions_lt {s : Slice} {size : Nat} {sel : Selection} (h : s.resolve size = .ok sel)
    {p : Nat} (hp : p ∈ sel.positions) : p < size := by
  unfold resolve at h
  split at h
  · cases h
  · cases h
    simp only [Selection.positions, List.mem_map, List.mem_range] at hp
    obtain ⟨k, hk, rfl⟩ := hp
    have := visited_bounds hk
    omega

/-- The span of a forward run begins and ends within the sequence. -/
theorem span?_bounds {s : Slice} {size a b : Nat} {sel : Selection} (h : s.resolve size = .ok sel)
    (hs : sel.span? = some (a, b)) : a ≤ b ∧ b ≤ size := by
  unfold resolve at h
  split at h
  · cases h
  · cases h
    simp only [Selection.span?] at hs
    split at hs
    · next h1 =>
      simp only [Option.some.injEq, Prod.mk.injEq] at hs
      obtain ⟨rfl, rfl⟩ := hs
      have ho := s.origin_bounds (min size maxLength)
      have hl := s.limit_bounds (min size maxLength)
      simp only [lower, upper, h1] at ho hl
      have hc : s.count (min size maxLength) = (s.reach (min size maxLength)).toNat := by
        unfold count
        split
        · rw [h1]
          simp only [Int.natAbs_one, Nat.div_one]
          omega
        · omega
      unfold reach at hc
      simp only [h1] at hc
      rw [hc]
      simp only [show ¬(1 : Int) < 0 by decide, if_false] at ho hl ⊢
      omega
    · cases hs

end Slice

end ColorAlgebra
