import ColorAlgebra.Palette.Workspace
import ColorAlgebra.Proofs.Slicing.Walk

namespace ColorAlgebra

namespace Sequence

variable {α : Type}

/-! ## Writing position by position -/

theorem getElem?_overwrite_of_not_mem {l : List α} {positions : List Nat} {values : List α}
    {p : Nat} (hp : p ∉ positions) : (overwrite l positions values)[p]? = l[p]? := by
  induction positions generalizing l values with
  | nil => rfl
  | cons q rest ih =>
    cases values with
    | nil => rfl
    | cons x values =>
      obtain ⟨hq, hrest⟩ := not_or.mp (List.mem_cons.not.mp hp)
      have hstep : overwrite l (q :: rest) (x :: values) = overwrite (l.set q x) rest values := rfl
      rw [hstep, ih hrest, List.getElem?_set_ne (Ne.symm hq)]

/-- Every position holds its own value afterwards, since no position is written
twice. -/
theorem getElem?_overwrite {l : List α} {positions : List Nat} {values : List α}
    (hlen : positions.length = values.length) (hnodup : positions.Nodup)
    (hlt : ∀ p ∈ positions, p < l.length) {k p : Nat} (hk : positions[k]? = some p) :
    (overwrite l positions values)[p]? = values[k]? := by
  induction positions generalizing l values k with
  | nil => exact absurd hk (by simp)
  | cons q rest ih =>
    cases values with
    | nil => exact absurd hlen (by simp)
    | cons x values =>
      obtain ⟨hq, hrest⟩ := List.nodup_cons.mp hnodup
      have hstep : overwrite l (q :: rest) (x :: values) = overwrite (l.set q x) rest values := rfl
      rw [hstep]
      cases k with
      | zero =>
        obtain rfl : q = p := Option.some.inj hk
        -- the later positions are others, so what is written first stays
        rw [getElem?_overwrite_of_not_mem hq, List.getElem?_set_self (hlt q List.mem_cons_self)]
        rfl
      | succ k =>
        refine ih (Nat.succ.inj hlen) hrest (fun r hr => ?_) hk
        rw [List.length_set]
        exact hlt r (List.mem_cons_of_mem q hr)

/-- Writing what is there already changes nothing. -/
theorem overwrite_eq_self {l : List α} {positions : List Nat} {values : List α}
    (h : ∀ pv ∈ positions.zip values, l[pv.1]? = some pv.2) : overwrite l positions values = l := by
  induction positions generalizing values with
  | nil => rfl
  | cons q rest ih =>
    cases values with
    | nil => rfl
    | cons x values =>
      have hstep : overwrite l (q :: rest) (x :: values) = overwrite (l.set q x) rest values := rfl
      have hq : l[q]? = some x := h (q, x) List.mem_cons_self
      obtain ⟨hlt, hx⟩ := List.getElem?_eq_some_iff.mp hq
      have hset : l.set q x = l := by
        rw [← hx]
        exact List.set_getElem_self hlt
      rw [hstep, hset]
      exact ih fun pv hpv => h pv (List.mem_cons_of_mem _ hpv)

/-! ## Extracting -/

theorem select_eq_ok_iff {l : List α} {s : Slice} {sel : Selection} :
    select l s = .ok sel ↔ s.resolve l.length = .ok sel := by
  unfold select
  constructor
  · intro h
    split at h
    · next hr => rw [hr, Except.ok.inj h]
    · cases h
  · intro h
    rw [h]

theorem extract_of_resolve {l : List α} {s : Slice} {sel : Selection}
    (h : s.resolve l.length = .ok sel) : extract l s = .ok (pick l sel) := by
  unfold extract
  rw [select_eq_ok_iff.mpr h]
  rfl

theorem getElem?_pick {l : List α} {s : Slice} {sel : Selection}
    (h : s.resolve l.length = .ok sel) (k : Nat) :
    (pick l sel)[k]? = sel.positions[k]?.bind fun p => l[p]? := by
  have hlt : ∀ p ∈ sel.positions, p < l.length := fun p hp => Slice.positions_lt h hp
  unfold pick
  generalize sel.positions = ps at hlt
  induction ps generalizing k with
  | nil => rfl
  | cons p rest ih =>
    have hmem : p < l.length := hlt p List.mem_cons_self
    have hp : l[p]? = some l[p] := List.getElem?_eq_getElem hmem
    rw [List.filterMap_cons_some hp]
    cases k with
    | zero => exact hp.symm
    | succ k => exact ih k fun q hq => hlt q (List.mem_cons_of_mem p hq)

theorem extract_overwrite {l values : List α} {s : Slice} {sel : Selection}
    (h : s.resolve l.length = .ok sel) (hs : s.step ≠ 0) (hlen : sel.remaining = values.length) :
    extract (overwrite l sel.positions values) s = .ok values := by
  have hlength : (overwrite l sel.positions values).length = l.length := length_overwrite _ _ _
  have hres : s.resolve (overwrite l sel.positions values).length = .ok sel := by
    rw [hlength]
    exact h
  rw [extract_of_resolve hres]
  refine congrArg Except.ok (List.ext_getElem? fun k => ?_)
  rw [getElem?_pick hres]
  cases hk : sel.positions[k]? with
  | some p =>
    exact getElem?_overwrite (sel.length_positions.trans hlen) (Slice.nodup_positions h hs)
      (fun q hq => Slice.positions_lt h hq) hk
  | none =>
    have hle := List.getElem?_eq_none_iff.mp hk
    rw [sel.length_positions, hlen] at hle
    exact (List.getElem?_eq_none_iff.mpr hle).symm

theorem overwrite_pick {l : List α} {s : Slice} {sel : Selection}
    (h : s.resolve l.length = .ok sel) : overwrite l sel.positions (pick l sel) = l := by
  apply overwrite_eq_self
  rintro ⟨p, x⟩ hmem
  obtain ⟨k, hk⟩ := List.mem_iff_getElem?.mp hmem
  obtain ⟨hp, hx⟩ := List.getElem?_zip_eq_some.mp hk
  rw [getElem?_pick h, hp] at hx
  exact hx

/-! ## Runs in steps of one -/

/-- The span of a run in steps of one reaches from the ideal start to the ideal stop;
an empty one stays at its start. -/
theorem span?_eq_ideal {s : Slice} {size : Nat} {sel : Selection}
    (h : s.resolve size = .ok sel) (hs : s.step = 1) :
    sel.span? = some ((Slice.Ideal.start s (min size maxLength : Nat)).toNat,
      max (Slice.Ideal.start s (min size maxLength : Nat)).toNat
        (Slice.Ideal.stop s (min size maxLength : Nat)).toNat) := by
  have hne : s.step ≠ 0 := by
    rw [hs]
    decide
  rw [Slice.resolve_of_step_ne_zero hne] at h
  cases h
  generalize min size maxLength = length
  rw [← Slice.origin_eq_start hne, ← Slice.limit_eq_stop hne]
  have ho := (s.origin_bounds length).1
  have hl := (s.limit_bounds length).1
  have hcount : s.count length = (s.limit length - s.origin length).toNat := by
    unfold Slice.count Slice.reach
    rw [hs]
    simp only [Int.natAbs_one, Nat.div_one, show ¬(1 : Int) < 0 by decide, if_false]
    split <;> omega
  unfold Slice.lower at ho hl
  simp only [hs, show ¬(1 : Int) < 0 by decide, if_false] at ho hl
  unfold Selection.span?
  simp only [hs, if_true, hcount, Option.some.injEq, Prod.mk.injEq, true_and]
  omega

theorem span?_of_step_ne_one {s : Slice} {size : Nat} {sel : Selection}
    (h : s.resolve size = .ok sel) (hs : s.step ≠ 1) : sel.span? = none := by
  unfold Slice.resolve at h
  split at h <;> cases h
  exact if_neg hs

/-- The positions of a run in steps of one follow each other. -/
theorem positions_of_span {s : Slice} {size : Nat} {sel : Selection} {a b : Nat}
    (h : s.resolve size = .ok sel) (hspan : sel.span? = some (a, b)) :
    b = a + sel.remaining ∧ sel.positions = (List.range sel.remaining).map (a + ·) := by
  have hstays := Slice.stays_of_resolve h
  unfold Selection.span? at hspan
  split at hspan
  · next hstep =>
    obtain ⟨rfl, rfl⟩ : sel.start.toNat = a ∧ sel.start.toNat + sel.remaining = b := by
      simpa using hspan
    refine ⟨rfl, List.map_congr_left fun k hk => ?_⟩
    have hk := List.mem_range.mp hk
    have hvisit := (hstays.visits k hk).1
    have hstart := (hstays.visits 0 (Nat.zero_lt_of_lt hk)).1
    rw [hstep] at hvisit ⊢
    omega
  · cases hspan

/-- A run in steps of one is a piece of the list. -/
theorem pick_of_span {l : List α} {s : Slice} {sel : Selection} {a b : Nat}
    (h : s.resolve l.length = .ok sel) (hspan : sel.span? = some (a, b)) :
    pick l sel = (l.take b).drop a := by
  obtain ⟨rfl, hpositions⟩ := positions_of_span h hspan
  refine List.ext_getElem? fun k => ?_
  rw [getElem?_pick h, hpositions, List.getElem?_map, List.getElem?_drop]
  by_cases hk : k < sel.remaining
  · rw [List.getElem?_range hk, List.getElem?_take_of_lt (Nat.add_lt_add_left hk _)]
    rfl
  · have hle : sel.remaining ≤ k := Nat.le_of_not_lt hk
    rw [List.getElem?_eq_none (by rw [List.length_range]; exact hle),
      List.getElem?_eq_none
        (Nat.le_trans (List.length_take_le _ _) (Nat.add_le_add_left hle _))]
    rfl

/-! ## Assigning -/

theorem assign_of_span {l values : List α} {s : Slice} {sel : Selection} {a b : Nat}
    (h : s.resolve l.length = .ok sel) (hspan : sel.span? = some (a, b)) :
    assign l s values = .ok (l.take a ++ values ++ l.drop b) := by
  unfold assign
  rw [select_eq_ok_iff.mpr h]
  dsimp only
  rw [hspan]

theorem assign_of_no_span {l values : List α} {s : Slice} {sel : Selection}
    (h : s.resolve l.length = .ok sel) (hspan : sel.span? = none) :
    assign l s values =
      if sel.remaining = values.length then .ok (overwrite l sel.positions values)
      else .error (.lengthMismatch sel.remaining values.length) := by
  unfold assign
  rw [select_eq_ok_iff.mpr h]
  dsimp only
  rw [hspan]

/-- Assigning what a slice extracts to the same slice changes nothing. -/
theorem assign_extract {l : List α} {s : Slice} {sel : Selection}
    (h : s.resolve l.length = .ok sel) : assign l s (pick l sel) = .ok l := by
  cases hspan : sel.span? with
  | some ab =>
    obtain ⟨a, b⟩ := ab
    have hab := (Slice.span?_bounds h hspan).1
    rw [assign_of_span h hspan, pick_of_span h hspan]
    have htake : l.take a = (l.take b).take a := by
      rw [List.take_take, Nat.min_eq_left hab]
    rw [htake, List.take_append_drop, List.take_append_drop]
  | none =>
    rw [assign_of_no_span h hspan, if_pos (length_pick (select_eq_ok_iff.mpr h)).symm,
      overwrite_pick h]

end Sequence

namespace Workspace

variable {r : Range} {t : Format}

theorem run_assign (w : Workspace r t) (s : Slice) (values : Source r t) :
    w.run (.assign s values) = w.attempt (Sequence.assign w.current s (w.colors values)) := rfl

theorem run_extract {w : Workspace r t} {s : Slice} {p : Palette r t}
    (h : Sequence.extract w.current s = .ok p) : w.run (.extract s) = (.palette p, w) := by
  simp only [run, h, answer]

/-- Assigning to a slice whose step is not zero. In steps of one, the run from the
ideal start to the ideal stop is replaced, and an empty run takes the values in at
its start. In other steps, as many values as positions are needed: then the `k`-th
position of the walk holds the `k`-th value, all else is where it was, and
extracting gives the values back; otherwise nothing changes, and both numbers are
reported. Assigning what was extracted changes nothing, whatever the step. -/
theorem assign_replaces_selected (w : Workspace r t) {s : Slice} (values : Source r t)
    (hs : s.step ≠ 0) :
    let l := w.current
    let length : Nat := min l.length maxLength
    let a := (Slice.Ideal.start s length).toNat
    let b := max a (Slice.Ideal.stop s length).toNat
    ∃ (sel : Selection) (ps : List Nat), s.resolve l.length = .ok sel ∧ sel.Walk ps ∧
      (s.step = 1 → w.run (.assign s values) =
        (.done, { w with current := l.take a ++ w.colors values ++ l.drop b })) ∧
      (s.step ≠ 1 → ps.length = (w.colors values).length → ∃ l',
        w.run (.assign s values) = (.done, { w with current := l' }) ∧ l'.length = l.length ∧
        (∀ k p : Nat, ps[k]? = some p → l'[p]? = (w.colors values)[k]?) ∧
        (∀ p : Nat, p ∉ ps → l'[p]? = l[p]?) ∧
        Sequence.extract l' s = .ok (w.colors values)) ∧
      (s.step ≠ 1 → ps.length ≠ (w.colors values).length → w.run (.assign s values) =
        (.failed (.lengthMismatch ps.length (w.colors values).length), w)) ∧
      ∃ out, w.run (.extract s) = (.palette out, w) ∧
        w.run (.assign s (.values out)) = (.done, w) := by
  intro l length a b
  have hres := Slice.resolve_of_step_ne_zero hs l.length
  generalize (⟨s.origin (min l.length maxLength), s.step, s.count (min l.length maxLength)⟩ :
    Selection) = sel at hres
  have hcount := sel.length_positions
  refine ⟨sel, sel.positions, hres, sel.walk_positions, ?_, ?_, ?_, Sequence.pick l sel, ?_, ?_⟩
  · intro h1
    rw [run_assign, Sequence.assign_of_span hres (Sequence.span?_eq_ideal hres h1)]
    rfl
  · intro h1 hlen
    refine ⟨Sequence.overwrite l sel.positions (w.colors values), ?_,
      Sequence.length_overwrite _ _ _, ?_, ?_, ?_⟩
    · rw [run_assign, Sequence.assign_of_no_span hres (Sequence.span?_of_step_ne_one hres h1),
        if_pos (hcount.symm.trans hlen)]
      rfl
    · intro k p hk
      exact Sequence.getElem?_overwrite hlen (Slice.nodup_positions hres hs)
        (fun q hq => Slice.positions_lt hres hq) hk
    · intro p hp
      exact Sequence.getElem?_overwrite_of_not_mem hp
    · exact Sequence.extract_overwrite hres hs (hcount.symm.trans hlen)
  · intro h1 hlen
    rw [hcount] at hlen ⊢
    rw [run_assign, Sequence.assign_of_no_span hres (Sequence.span?_of_step_ne_one hres h1),
      if_neg hlen]
    rfl
  · exact run_extract (Sequence.extract_of_resolve hres)
  · rw [run_assign]
    exact congrArg w.attempt (Sequence.assign_extract hres)

/-- A list of three, assigned to from its end to its front. -/
theorem assign_replaces_selected_reversed :
    let w : Workspace .normal .double :=
      ⟨[.splat .nan, .splat .nan, .splat .nan],
        [.splat (.infinity true), .splat .nan, .splat (.infinity false)]⟩
    let s : Slice := ⟨none, none, -1⟩
    s.step ≠ 0 ∧ w.run (.assign s .spare) = (.done,
      { w with current := [.splat (.infinity false), .splat .nan, .splat (.infinity true)] }) := by
  intro w s
  have hs : s.step ≠ 0 := by decide
  obtain ⟨sel, ps, hres, hwalk, -, hassign, -⟩ := assign_replaces_selected w .spare hs
  have hval : (⟨none, none, -1⟩ : Slice).resolve 3 = .ok ⟨2, -1, 3⟩ := rfl
  obtain rfl : ⟨2, -1, 3⟩ = sel := Except.ok.inj (hval.symm.trans hres)
  obtain rfl : ps = [2, 1, 0] := Selection.walk_iff.mp hwalk
  obtain ⟨l', hrun, hlen, hplaces, -⟩ := hassign (by decide) rfl
  have hl' : l' = [.splat (.infinity false), .splat .nan, .splat (.infinity true)] := by
    refine List.ext_getElem? fun k => ?_
    match k with
    | 0 => exact hplaces 2 0 rfl
    | 1 => exact hplaces 1 1 rfl
    | 2 => exact hplaces 0 2 rfl
    | k + 3 =>
      have hle : l'.length ≤ k + 3 := Nat.le_trans (Nat.le_of_eq hlen) (Nat.le_add_left 3 k)
      rw [List.getElem?_eq_none hle]
      rfl
  rw [hl'] at hrun
  exact ⟨hs, hrun⟩

end Workspace

end ColorAlgebra
