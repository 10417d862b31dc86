import ColorAlgebra.Proofs.Slicing.Assignment

namespace ColorAlgebra

/-! ## Keys -/

/-- The key counts a position of the length from the front or from the end. -/
def Key.InRange : Key → Nat → Prop :=
  fun (key : Int) (length : Nat) => -length ≤ key ∧ key < length

instance (key : Key) (length : Nat) : Decidable (key.InRange length) :=
  inferInstanceAs (Decidable (_ ∧ _))

theorem Key.position?_eq_none_iff {key : Int} {length : Nat} (h : length ≤ maxLength) :
    Key.position? key length = none ↔ ¬Key.InRange key length := by
  have hfront : Key.fromFront key length = if key < 0 then key + length else key := rfl
  unfold position? InRange
  rw [ite_eq_right_iff, hfront]
  simp only [reduceCtorEq, imp_false]
  by_cases hneg : key < 0
  · rw [if_pos hneg]
    omega
  · rw [if_neg hneg]
    omega

/-! ## Sequences -/

namespace Sequence

variable {α : Type} {l : List α} {e : Error}

theorem set_eq_error_iff {key : Key} {x : α} :
    set l key x = .error e ↔
      key.position? l.length = none ∧ e = .indexOutOfRange key l.length := by
  unfold set
  cases key.position? l.length with
  | none => simp [eq_comm]
  | some k => simp

theorem pop?_eq_none_iff {key : Key} :
    pop? l key = none ↔ key.position? l.length = none := by
  unfold pop?
  cases h : key.position? l.length with
  | none => simp
  | some k => simp [List.getElem?_eq_getElem (Key.position?_lt h)]

theorem popLast?_eq_none_iff : popLast? l = none ↔ l = [] := by
  unfold popLast?
  rw [Option.map_eq_none_iff, List.getLast?_eq_none_iff]

theorem select_eq_error_iff {s : Slice} :
    select l s = .error e ↔ s.step = 0 ∧ e = .ofSlice .zeroStep := by
  unfold select
  by_cases hs : s.step = 0
  · have hresolve : s.resolve l.length = .error .zeroStep := Slice.resolve_eq_error_iff.mpr hs
    simp [hresolve, hs, eq_comm]
  · simp [Slice.resolve_of_step_ne_zero hs, hs]

theorem extract_eq_error_iff {s : Slice} :
    extract l s = .error e ↔ s.step = 0 ∧ e = .ofSlice .zeroStep := by
  rw [← select_eq_error_iff (l := l)]
  unfold extract
  cases select l s <;> simp [Except.map]

theorem delete_eq_error_iff {s : Slice} :
    delete l s = .error e ↔ s.step = 0 ∧ e = .ofSlice .zeroStep := by
  rw [← select_eq_error_iff (l := l)]
  unfold delete
  cases select l s <;> simp [Except.map]

/-- A walk of unit steps takes any number of values, other walks as many as they have
positions. -/
theorem assign_eq_error_iff {s : Slice} {values : List α} :
    assign l s values = .error e ↔
      (s.step = 0 ∧ e = .ofSlice .zeroStep) ∨
      s.step ≠ 1 ∧ ∃ sel, s.resolve l.length = .ok sel ∧ sel.remaining ≠ values.length ∧
        e = .lengthMismatch sel.remaining values.length := by
  by_cases hs : s.step = 0
  · have hselect : select l s = .error (.ofSlice .zeroStep) :=
      select_eq_error_iff.mpr ⟨hs, rfl⟩
    have hresolve : s.resolve l.length = .error .zeroStep := Slice.resolve_eq_error_iff.mpr hs
    unfold assign
    simp [hselect, hresolve, hs, eq_comm]
  · have hresolve := Slice.resolve_of_step_ne_zero hs l.length
    generalize (⟨s.origin (min l.length maxLength), s.step,
      s.count (min l.length maxLength)⟩ : Selection) = sel at hresolve
    by_cases h1 : s.step = 1
    · rw [assign_of_span hresolve (span?_eq_ideal hresolve h1)]
      simp [h1]
    · rw [assign_of_no_span hresolve (span?_of_step_ne_one hresolve h1)]
      simp only [hs, h1, hresolve, false_and, false_or, ne_eq, not_false_eq_true, true_and,
        Except.ok.injEq, exists_eq_left']
      by_cases hcount : sel.remaining = values.length
      · simp [hcount]
      · simp [hcount, eq_comm]

end Sequence

/-! ## Palettes -/

namespace Palette

variable {r : Range} {t : Format} {e : Error}

theorem remove_eq_error_iff {p : Palette r t} {c : Color r t} :
    p.remove c = .error e ↔ (∀ x ∈ p, x.equal c = false) ∧ e = .notFound := by
  have hfind : Sequence.removeFirst? p (fun x => x.equal c) = none ↔
      ∀ x ∈ p, x.equal c = false := by
    unfold Sequence.removeFirst?
    rw [Option.map_eq_none_iff, List.findIdx?_eq_none_iff]
  rw [← hfind]
  unfold remove
  cases Sequence.removeFirst? p fun x => x.equal c <;> simp [eq_comm]

theorem combine_eq_error_iff {p : Palette r t} {op : Operation} {x : Operand r t} :
    p.combine op x = .error e ↔
      ∃ xs, x = .each xs ∧ xs.length ≠ p.length ∧ e = .lengthMismatch p.length xs.length := by
  cases x with
  | all x => simp [combine]
  | each xs =>
    by_cases h : xs.length = p.length
    · simp [combine, h]
    · simp only [combine, h, if_false, Except.error.injEq, Operand.each.injEq, exists_eq_left',
        ne_eq, not_false_eq_true, true_and]
      exact eq_comm

end Palette

end ColorAlgebra
