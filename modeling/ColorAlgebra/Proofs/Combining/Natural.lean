import ColorAlgebra.Proofs.Editing.Failure
import ColorAlgebra.Proofs.Slicing.Deletion
import ColorAlgebra.Sequence.Rotation

/-!
# Rearranging without looking

Rotating, reversing and slicing look at no element: they move and drop what stands at
positions that only the length decides. So they commute with every change of the elements,
and for that reason with pairing the elements of two lists as well.
-/

namespace ColorAlgebra.Sequence

/-- Changing each element before or after `g` makes no difference, nor does it make `g`
fail. -/
def Natural (g : (α : Type) → List α → Except Error (List α)) : Prop :=
  ∀ ⦃α β : Type⦄ (f : α → β) (l : List α), g β (l.map f) = (g α l).map (List.map f)

variable {α β γ : Type}

/-! ## Rearrangements -/

theorem natural_rotate (places : Int) : Natural fun _ l => .ok (rotate l places) :=
  fun _ _ f l => congrArg Except.ok (rotate_map f l places)

theorem natural_reverse : Natural fun _ l => .ok l.reverse :=
  fun _ _ _ _ => congrArg Except.ok List.map_reverse.symm

theorem gather_map (f : α → β) (l : List α) (positions : List Nat) :
    gather (l.map f) positions = (gather l positions).map f := by
  unfold gather
  rw [List.map_filterMap]
  exact List.filterMap_congr fun p _ => List.getElem?_map

theorem natural_of_error {g : (α : Type) → List α → Except Error (List α)} {e : Error}
    (h : ∀ {α : Type} (l : List α), g α l = .error e) : Natural g := by
  intro α β f l
  rw [h, h]
  rfl

/-- What stands at positions that only the length decides. -/
theorem natural_of_gather {g : (α : Type) → List α → Except Error (List α)}
    (positions : Nat → List Nat)
    (h : ∀ {α : Type} (l : List α), g α l = .ok (gather l (positions l.length))) : Natural g := by
  intro α β f l
  rw [h, h, List.length_map, gather_map]
  rfl

/-- What a slice selects depends on the length alone. -/
theorem exists_selection {s : Slice} (hs : s.step ≠ 0) :
    ∃ selection : Nat → Selection, ∀ length, s.resolve length = .ok (selection length) :=
  ⟨_, Slice.resolve_of_step_ne_zero hs⟩

theorem natural_extract (s : Slice) : Natural fun _ l => extract l s := by
  by_cases hs : s.step = 0
  · have hfails : ∀ {δ : Type} (l : List δ), extract l s = .error (.ofSlice .zeroStep) :=
      fun _ => extract_eq_error_iff.mpr ⟨hs, rfl⟩
    exact natural_of_error hfails
  · obtain ⟨selection, hres⟩ := exists_selection hs
    exact natural_of_gather (fun length => (selection length).positions)
      fun l => extract_of_resolve (hres l.length)

theorem natural_delete (s : Slice) : Natural fun _ l => delete l s := by
  by_cases hs : s.step = 0
  · have hfails : ∀ {δ : Type} (l : List δ), delete l s = .error (.ofSlice .zeroStep) :=
      fun _ => delete_eq_error_iff.mpr ⟨hs, rfl⟩
    exact natural_of_error hfails
  · obtain ⟨selection, hres⟩ := exists_selection hs
    exact natural_of_gather (fun length => unlisted length (selection length).positions)
      fun l => delete_of_resolve (hres l.length)

/-! ## Pairing -/

/-- What is natural takes two lists of one length apart in the same way, and their pairs
as well: all three are views of one list of pairs. -/
theorem Natural.zipWith {g : (α : Type) → List α → Except Error (List α)} (hg : Natural g)
    (f : α → β → γ) {l l' : List α} {xs : List β} (hlen : xs.length = l.length)
    (hl : g α l = .ok l') :
    ∃ xs', g β xs = .ok xs' ∧ xs'.length = l'.length ∧
      g γ (l.zipWith f xs) = .ok (l'.zipWith f xs') := by
  have hfst := hg Prod.fst (l.zip xs)
  have hsnd := hg Prod.snd (l.zip xs)
  have hpairs := hg (Function.uncurry f) (l.zip xs)
  rw [List.map_fst_zip (Nat.le_of_eq hlen.symm), hl] at hfst
  rw [List.map_snd_zip (Nat.le_of_eq hlen)] at hsnd
  rw [List.map_uncurry_zip_eq_zipWith] at hpairs
  cases hz : g (α × β) (l.zip xs) with
  | error e =>
    rw [hz] at hfst
    cases hfst
  | ok z =>
    rw [hz] at hfst hsnd hpairs
    cases hfst
    refine ⟨z.map Prod.snd, hsnd, ?_, hpairs.trans (congrArg Except.ok ?_)⟩
    · rw [List.length_map, List.length_map]
    · rw [List.zipWith_map, List.zipWith_self]
      rfl

end ColorAlgebra.Sequence
