import ColorAlgebra.Proofs.Slicing.Walk

namespace ColorAlgebra

namespace Selection

/-! ## The end of a walk -/

theorem advance_of_next?_eq_none {s : Selection} (h : s.next? = none) : s.advance = s := by
  simp [advance, h]

/-- Where a walk has ended, further requests change nothing. -/
theorem iterate_of_next?_eq_none {s : Selection} (h : s.next? = none) (k : Nat) :
    advance^[k] s = s :=
  Function.iterate_fixed (advance_of_next?_eq_none h) k

/-! ## The positions that are left -/

theorem first?_eq_next? (s : Selection) : s.first? = s.next?.map Prod.fst := by
  obtain ⟨start, step, remaining⟩ := s
  cases remaining <;> simp [first?, next?]

theorem size?_eq (s : Selection) : s.size? = some s.remaining := if_pos rfl

theorem next?_eq_head? (s : Selection) : s.next?.map Prod.fst = s.positions.head? := by
  cases h : s.next? with
  | none => simp [positions_of_next?_eq_none h]
  | some pair => simp [positions_of_next? (p := pair.1) (t := pair.2) h]

theorem positions_advance (s : Selection) : s.advance.positions = s.positions.tail := by
  cases h : s.next? with
  | none => simp [advance, h, positions_of_next?_eq_none h]
  | some pair => simp [advance, h, positions_of_next? (p := pair.1) (t := pair.2) h]

/-- Every request takes one position off. -/
theorem positions_iterate (s : Selection) (j : Nat) :
    (advance^[j] s).positions = s.positions.drop j := by
  induction j with
  | zero => rfl
  | succ j ih => rw [Function.iterate_succ_apply', positions_advance, ih, List.tail_drop]

/-! ## The state after some requests -/

/-- What `j` requests leave of a selection: as many positions fewer, and a start that has moved on
with each of them but not past the last position. -/
structure After (s : Selection) (j : Nat) (t : Selection) : Prop where
  step : t.step = s.step
  remaining : t.remaining = s.remaining - j
  start : t.start = s.start + (min j (s.remaining - 1) : Nat) * s.step

theorem After.zero (s : Selection) : s.After 0 s := ⟨rfl, rfl, by simp⟩

theorem After.advance {s t : Selection} {j : Nat} (h : s.After j t) :
    s.After (j + 1) t.advance := by
  obtain ⟨start, step, remaining⟩ := t
  obtain ⟨hstep, hremaining, hstart⟩ := h
  dsimp only at hstep hremaining hstart
  cases remaining with
  | zero =>
    -- the start is that of the last position, before and after
    have hend : min (j + 1) (s.remaining - 1) = min j (s.remaining - 1) := by omega
    exact ⟨hstep, by show 0 = _; omega, hend ▸ hstart⟩
  | succ left =>
    have hbefore : min j (s.remaining - 1) = j := by omega
    rw [hbefore] at hstart
    refine ⟨hstep, by show left = _; omega, ?_⟩
    show (if left = 0 then start else start + step) = _
    split
    · next hlast =>
      have hafter : min (j + 1) (s.remaining - 1) = j := by omega
      rw [hafter, hstart]
    · next hmore =>
      have hafter : min (j + 1) (s.remaining - 1) = j + 1 := by omega
      rw [hafter, hstart, hstep, Int.natCast_succ, Int.add_mul, Int.one_mul, Int.add_assoc]

/-- The state of a walk is known from the number of requests. -/
theorem after_iterate (s : Selection) (j : Nat) : s.After j (Selection.advance^[j] s) := by
  induction j with
  | zero => exact .zero s
  | succ j ih =>
    rw [Function.iterate_succ_apply']
    exact ih.advance

/-- The start never leaves the sequence, or the place before it if that is where it began. -/
theorem After.start_bounds {s t : Selection} {j length : Nat} {low : Int} (h : s.After j t)
    (hs : s.Stays length) (hlow : low ≤ 0) (hfirst : low ≤ s.start) (hlast : s.start ≤ length) :
    low ≤ t.start ∧ t.start ≤ length := by
  rw [h.start]
  rcases Nat.eq_zero_or_pos s.remaining with hempty | hpos
  · simpa [hempty] using ⟨hfirst, hlast⟩
  · obtain ⟨hlower, hupper⟩ := hs.visits (min j (s.remaining - 1)) (by omega)
    exact ⟨Int.le_trans hlow hlower, Int.le_of_lt hupper⟩

/-! ## Spans -/

theorem span?_isSome_iff {s : Selection} : s.span?.isSome = true ↔ s.step = 1 := by
  simp [span?]

/-- In steps of one the positions that are left follow each other. -/
theorem Stays.positions_eq_range' {s : Selection} {length : Nat} (h : s.Stays length)
    (hstep : s.step = 1) : s.positions = List.range' s.start.toNat s.remaining := by
  rw [List.range'_eq_map_range]
  refine List.map_congr_left fun k hk => ?_
  have hk := List.mem_range.mp hk
  have hfirst := (h.visits 0 (Nat.zero_lt_of_lt hk)).1
  have hplace := (h.visits k hk).1
  rw [hstep] at hfirst hplace ⊢
  omega

/-- A span lies within the sequence and has the positions that are left, one by one. -/
theorem Stays.positions_of_span? {s : Selection} {length a b : Nat} (h : s.Stays length)
    (hfirst : 0 ≤ s.start) (hlast : s.start ≤ length) (hspan : s.span? = some (a, b)) :
    (a : Int) = s.start ∧ a ≤ b ∧ b ≤ length ∧ s.positions = List.range' a (b - a) := by
  have hstep : s.step = 1 := span?_isSome_iff.mp (by rw [hspan]; rfl)
  obtain ⟨rfl, rfl⟩ : s.start.toNat = a ∧ s.start.toNat + s.remaining = b := by
    simpa [Selection.span?, hstep] using hspan
  refine ⟨Int.toNat_of_nonneg hfirst, Nat.le_add_right _ _, ?_, ?_⟩
  · rcases Nat.eq_zero_or_pos s.remaining with hempty | hpos
    · rw [hempty, Nat.add_zero]
      exact Int.toNat_le.mpr hlast
    · have hend := (h.visits (s.remaining - 1) (by omega)).2
      rw [hstep] at hend
      omega
  · rw [Nat.add_sub_cancel_left]
    exact h.positions_eq_range' hstep

end Selection

/-! ## The walk of a slice -/

namespace Slice

theorem neg_one_le_lower (s : Slice) : -1 ≤ s.lower := by
  unfold lower
  split <;> decide

theorem lower_le_zero (s : Slice) : s.lower ≤ 0 := by
  unfold lower
  split <;> decide

theorem lower_of_step_one (s : Slice) (h : s.step = 1) : s.lower = 0 := by
  simp [lower, h]

theorem upper_le (s : Slice) (length : Nat) : s.upper length ≤ length := by
  unfold upper
  split
  · exact Int.sub_le_self _ (by decide)
  · exact Int.le_refl _

theorem exists_resolve {s : Slice} (hs : s.step ≠ 0) (size : Nat) :
    ∃ sel, s.resolve size = .ok sel ∧ sel.start = s.origin (min size maxLength) ∧
      sel.step = s.step :=
  ⟨_, resolve_of_step_ne_zero hs size, rfl, rfl⟩

/-- A slice with a step always gives a selection, and all states of its walk tell what is left of
it: `remaining` counts down by one with each request and stays at zero, both bounds of the size
agree on it, the next position is the one to come, and the step is that of the slice. Where there
is no position left there will never be one. Only in steps of one is there a span. It begins at
the start of the state, lies within the sequence and has the positions that have not been visited;
before the first request, if there are none, it is empty and stands at the clamped start of the
slice. The start of a state is at least one before the front and at most at the end. -/
theorem states_of_walk {s : Slice} {size : Nat} (hs : s.step ≠ 0) (hsize : size ≤ maxLength) :
    ∃ sel, s.resolve size = .ok sel ∧
      (sel.remaining = 0 → s.step = 1 →
        ∃ a : Nat, (a : Int) = Ideal.start s size ∧ sel.span? = some (a, a)) ∧
      ∀ j : Nat,
        let state := Selection.advance^[j] sel
        state.sizeBounds = (sel.remaining - j, some (sel.remaining - j)) ∧
        state.size? = some (sel.remaining - j) ∧
        state.first? = state.next?.map Prod.fst ∧
        state.next?.map Prod.fst = sel.positions[j]? ∧
        state.step = s.step ∧
        (state.next? = none → ∀ k : Nat, (Selection.advance^[k] state).next? = none) ∧
        (state.span?.isSome = true ↔ s.step = 1) ∧
        (∀ a b, state.span? = some (a, b) → (a : Int) = state.start ∧ a ≤ b ∧ b ≤ size ∧
          sel.positions.drop j = List.range' a (b - a)) ∧
        -1 ≤ state.start ∧ state.start ≤ size := by
  have hcap : min size maxLength = size := Nat.min_eq_left hsize
  obtain ⟨sel, hres, hstart, hstep⟩ := exists_resolve hs size
  have hstays := stays_of_resolve hres
  rw [hcap] at hstart hstays
  obtain ⟨hlow, hhigh⟩ := s.origin_bounds size
  rw [← hstart] at hlow hhigh
  refine ⟨sel, hres, fun hempty hone => ?_, fun j => ?_⟩
  · have hfirst : 0 ≤ sel.start := s.lower_of_step_one hone ▸ hlow
    refine ⟨sel.start.toNat, ?_, ?_⟩
    · rw [Int.toNat_of_nonneg hfirst, hstart, origin_eq_start hs]
    · rw [Selection.span?, if_pos (hstep.trans hone), hempty, Nat.add_zero]
  · intro state
    have hafter : sel.After j state := sel.after_iterate j
    have hbounds := hafter.start_bounds hstays s.lower_le_zero hlow
      (Int.le_trans hhigh (s.upper_le size))
    refine ⟨?_, ?_, state.first?_eq_next?, ?_, hafter.step.trans hstep, ?_, ?_, ?_,
      Int.le_trans s.neg_one_le_lower hbounds.1, hbounds.2⟩
    · rw [Selection.sizeBounds, hafter.remaining]
    · rw [Selection.size?_eq, hafter.remaining]
    · rw [Selection.next?_eq_head?, Selection.positions_iterate, List.head?_drop]
    · intro hnone k
      rw [Selection.iterate_of_next?_eq_none hnone]
      exact hnone
    · rw [Selection.span?_isSome_iff, hafter.step, hstep]
    · intro a b hspan
      have hone : state.step = 1 := Selection.span?_isSome_iff.mp (by rw [hspan]; rfl)
      rw [hafter.step, hstep] at hone
      rw [← Selection.positions_iterate]
      exact (hstays.iterate j).positions_of_span? (s.lower_of_step_one hone ▸ hbounds.1)
        hbounds.2 hspan

/-- The last two of four positions, asked for to the end: the start is on the last of them, where
the empty span stands from then on. -/
theorem states_of_walk_ended :
    let s : Slice := ⟨some (-2), none, 1⟩
    s.step ≠ 0 ∧ 4 ≤ maxLength ∧ ∃ sel, s.resolve 4 = .ok sel ∧
      (sel.next?.map Prod.fst = some 2 ∧ sel.span? = some (2, 4)) ∧
      let state := Selection.advance^[2] sel
      state.size? = some 0 ∧ state.span? = some (3, 3) ∧ state.start = 3 ∧
        ∀ k : Nat, (Selection.advance^[k] state).next? = none := by
  intro s
  have hs : s.step ≠ 0 := by decide
  obtain ⟨sel, hres, -, hstates⟩ := states_of_walk hs (show 4 ≤ maxLength by decide)
  have hvalue : resolve ⟨some (-2), none, 1⟩ 4 = .ok ⟨2, 1, 2⟩ := rfl
  obtain rfl : sel = ⟨2, 1, 2⟩ := Except.ok.inj (hres.symm.trans hvalue)
  obtain ⟨-, hsize, -, -, -, hended, -⟩ := hstates 2
  exact ⟨hs, by decide, _, hres, ⟨rfl, rfl⟩, hsize, rfl, rfl, hended rfl⟩

end Slice

end ColorAlgebra
