import Mathlib.Logic.Function.Iterate
import ColorAlgebra.Sequence.Slice

/-!
# The walk of a slice

What a slice selects is said here twice. `Slice.Ideal` says it over the integers,
without a count and without a walk: where the bounds lie, and that the `k`-th
position is `start + k * step` as long as that lies before `stop`. `Selection.Walk`
says what asking for the next position again and again gives.
-/

namespace ColorAlgebra

/-! ## Walking -/

namespace Selection

/-- `s.Walk ps`: asking for the next position until there is none gives `ps`. -/
inductive Walk : Selection → List Nat → Prop
  | done {s : Selection} : s.next? = none → Walk s []
  | visit {s t : Selection} {p : Nat} {ps : List Nat} :
      s.next? = some (p, t) → Walk t ps → Walk s (p :: ps)

/-- What a request for the next position leaves of a selection. -/
def advance (s : Selection) : Selection :=
  match s.next? with
  | some (_, t) => t
  | none => s

/-- All places that are left to visit are positions of a sequence of this length,
and there are no more of them than positions. -/
structure Stays (s : Selection) (length : Nat) : Prop where
  remaining_le : s.remaining ≤ length
  visits : ∀ k : Nat, k < s.remaining →
    0 ≤ s.start + k * s.step ∧ s.start + k * s.step < length

theorem walk_positions (s : Selection) : s.Walk s.positions := by
  obtain ⟨start, step, remaining⟩ := s
  induction remaining generalizing start with
  | zero => exact .done rfl
  | succ left ih =>
    have hnext : next? ⟨start, step, left + 1⟩ =
        some (start.toNat, ⟨if left = 0 then start else start + step, step, left⟩) := rfl
    rw [positions_of_next? hnext]
    exact .visit hnext (ih _)

theorem eq_positions_of_walk {s : Selection} {ps : List Nat} (h : s.Walk ps) :
    ps = s.positions := by
  induction h with
  | done hn => exact (positions_of_next?_eq_none hn).symm
  | visit hn _ ih => rw [positions_of_next? hn, ih]

/-- The walk of a selection ends, and it visits the positions of the selection. -/
theorem walk_iff {s : Selection} {ps : List Nat} : s.Walk ps ↔ ps = s.positions := by
  constructor
  · exact eq_positions_of_walk
  · intro h
    subst h
    exact walk_positions s

theorem Stays.advance {s : Selection} {length : Nat} (h : s.Stays length) :
    s.advance.Stays length := by
  obtain ⟨start, step, remaining⟩ := s
  cases remaining with
  | zero => exact h
  | succ left =>
    obtain ⟨hle, hvisits⟩ := h
    refine ⟨Nat.le_of_succ_le hle, fun k hk => ?_⟩
    have hk' : k < left := hk
    have hleft : left ≠ 0 := Nat.ne_of_gt (Nat.lt_of_le_of_lt (Nat.zero_le k) hk')
    -- the `k`-th place from the new start is the one after the `k`-th from the old start
    have hnext := hvisits (k + 1) (Nat.succ_lt_succ hk')
    have hshift : start + step + k * step = start + (k + 1 : Nat) * step := by
      rw [Int.natCast_succ, Int.add_mul, Int.one_mul, Int.add_assoc, Int.add_comm step]
    simp only [Selection.advance, next?, if_neg hleft]
    rw [hshift]
    exact hnext

/-- What is left to visit stays within the sequence, however often the next
position is asked for. -/
theorem Stays.iterate {s : Selection} {length : Nat} (h : s.Stays length) (j : Nat) :
    (Selection.advance^[j] s).Stays length := by
  induction j generalizing s with
  | zero => exact h
  | succ j ih => exact ih h.advance

end Selection

/-! ## The ideal slice -/

namespace Slice

namespace Ideal

/-- The least place that a bound can have. -/
def lowest (s : Slice) : Int := if 0 < s.step then 0 else -1

/-- The greatest place that a bound can have. -/
def highest (s : Slice) (length : Int) : Int := if 0 < s.step then length else length - 1

/-- The place of a bound that is given: a negative one counts from the end, and the
result is moved to the nearest place that a bound can have. -/
def bound (s : Slice) (length b : Int) : Int :=
  max (lowest s) (min (if b < 0 then b + length else b) (highest s length))

/-- Where the walk begins; at the near end if that is not said. -/
def start (s : Slice) (length : Int) : Int :=
  match s.start with
  | some b => bound s length b
  | none => if 0 < s.step then lowest s else highest s length

/-- Where the walk has to end; at the far end if that is not said. -/
def stop (s : Slice) (length : Int) : Int :=
  match s.stop with
  | some b => bound s length b
  | none => if 0 < s.step then highest s length else lowest s

/-- The integer `k` steps on from the start, as long as that lies before the stop. -/
def term? (s : Slice) (length : Int) (k : Nat) : Option Int :=
  let place := start s length + k * s.step
  if (if 0 < s.step then place < stop s length else stop s length < place) then some place
  else none

end Ideal

theorem place_eq_bound {s : Slice} (hs : s.step ≠ 0) (length : Nat) (b : Int) :
    s.place length b = Ideal.bound s length b := by
  unfold place Ideal.bound lower upper Ideal.lowest Ideal.highest
  rcases Int.lt_or_gt_of_ne hs with hneg | hpos
  · rw [if_pos hneg, if_pos hneg, if_neg (Int.lt_asymm hneg), if_neg (Int.lt_asymm hneg)]
    split <;> omega
  · rw [if_neg (Int.lt_asymm hpos), if_neg (Int.lt_asymm hpos), if_pos hpos, if_pos hpos]
    split <;> omega

theorem origin_eq_start {s : Slice} (hs : s.step ≠ 0) (length : Nat) :
    s.origin length = Ideal.start s length := by
  unfold origin Ideal.start
  cases s.start with
  | some b => exact place_eq_bound hs length b
  | none =>
    unfold lower upper Ideal.lowest Ideal.highest
    dsimp only
    split <;> split <;> omega

theorem limit_eq_stop {s : Slice} (hs : s.step ≠ 0) (length : Nat) :
    s.limit length = Ideal.stop s length := by
  unfold limit Ideal.stop
  cases s.stop with
  | some b => exact place_eq_bound hs length b
  | none =>
    unfold lower upper Ideal.lowest Ideal.highest
    dsimp only
    split <;> split <;> omega

/-! ## The count of positions -/

theorem reach_le_length (s : Slice) (length : Nat) : s.reach length ≤ length := by
  have ho := s.origin_bounds length
  have hl := s.limit_bounds length
  unfold lower upper at ho hl
  unfold reach
  split <;> simp_all only [if_true, if_false] <;> omega

theorem count_le_length (s : Slice) (length : Nat) : s.count length ≤ length := by
  have hr := s.reach_le_length length
  have hdiv := Nat.div_le_self (s.reach length - 1).toNat s.step.natAbs
  unfold count
  split <;> omega

/-- The count is the number of whole steps that fit before the limit. -/
theorem lt_count_iff_lt_reach {s : Slice} (hs : s.step ≠ 0) {length k : Nat} :
    k < s.count length ↔ ((k * s.step.natAbs : Nat) : Int) < s.reach length := by
  constructor
  · exact steps_lt_reach
  · intro h
    have hstep : 0 < s.step.natAbs := Int.natAbs_pos.mpr hs
    have hk : k * s.step.natAbs ≤ (s.reach length - 1).toNat := by omega
    have hreach : 0 < s.reach length := by omega
    unfold count
    rw [if_pos hreach]
    exact Nat.lt_succ_of_le ((Nat.le_div_iff_mul_le hstep).mpr hk)

theorem natAbs_step {s : Slice} (k : Nat) :
    ((k * s.step.natAbs : Nat) : Int) = if s.step < 0 then -(k * s.step) else k * s.step := by
  rw [Int.natCast_mul]
  split
  · next h => rw [Int.ofNat_natAbs_of_nonpos (Int.le_of_lt h), Int.mul_neg]
  · next h => rw [Int.natAbs_of_nonneg (Int.not_lt.mp h)]

/-- The walk visits its `k`-th place exactly if that lies before the limit. -/
theorem lt_count_iff {s : Slice} (hs : s.step ≠ 0) {length k : Nat} :
    k < s.count length ↔
      if 0 < s.step then s.origin length + k * s.step < s.limit length
      else s.limit length < s.origin length + k * s.step := by
  rw [lt_count_iff_lt_reach hs, natAbs_step]
  unfold reach
  rcases Int.lt_or_gt_of_ne hs with hneg | hpos
  · rw [if_pos hneg, if_pos hneg, if_neg (Int.lt_asymm hneg)]
    omega
  · rw [if_neg (Int.lt_asymm hpos), if_neg (Int.lt_asymm hpos), if_pos hpos]
    omega

/-! ## The positions -/

theorem resolve_of_step_ne_zero {s : Slice} (hs : s.step ≠ 0) (size : Nat) :
    s.resolve size =
      .ok ⟨s.origin (min size maxLength), s.step, s.count (min size maxLength)⟩ := by
  unfold resolve
  rw [if_neg hs]

theorem stays_of_resolve {s : Slice} {size : Nat} {sel : Selection}
    (h : s.resolve size = .ok sel) : sel.Stays (min size maxLength) := by
  unfold resolve at h
  split at h
  · cases h
  · cases h
    exact ⟨s.count_le_length _, fun k hk => visited_bounds hk⟩

/-- The `k`-th position is that of the ideal slice, and there is none where that has
none. -/
theorem positions_eq_ideal {s : Slice} {size : Nat} {sel : Selection}
    (h : s.resolve size = .ok sel) (k : Nat) :
    sel.positions[k]?.map Int.ofNat = Ideal.term? s (min size maxLength : Nat) k := by
  have hs : s.step ≠ 0 := by
    intro h0
    rw [(resolve_eq_error_iff (e := .zeroStep)).mpr h0] at h
    exact absurd h (by simp)
  have hstays := stays_of_resolve h
  rw [resolve_of_step_ne_zero hs] at h
  cases h
  unfold Ideal.term?
  dsimp only
  rw [← origin_eq_start hs, ← limit_eq_stop hs]
  by_cases hk : k < s.count (min size maxLength)
  · rw [if_pos ((lt_count_iff hs).mp hk)]
    have hplace := (hstays.visits k hk).1
    simp only [Selection.positions, List.getElem?_map, List.getElem?_range hk, Option.map_some]
    exact congrArg some (Int.toNat_of_nonneg hplace)
  · rw [if_neg (fun hc => hk ((lt_count_iff hs).mpr hc))]
    have hlen : s.count (min size maxLength) ≤ k := Nat.le_of_not_lt hk
    rw [List.getElem?_eq_none (by rw [Selection.length_positions]; exact hlen)]
    rfl

/-- Two visited places lie as far apart as their numbers say. -/
theorem positions_pairwise {s : Slice} {size : Nat} {sel : Selection}
    (h : s.resolve size = .ok sel) :
    sel.positions.Pairwise fun p q : Nat => ∃ d : Nat, 0 < d ∧ (q : Int) = p + d * s.step := by
  have hstays := stays_of_resolve h
  have hstep : sel.step = s.step := by
    unfold resolve at h
    split at h <;> cases h
    rfl
  unfold Selection.positions
  rw [List.pairwise_map]
  refine List.Pairwise.imp_of_mem ?_ List.pairwise_lt_range
  intro i j hi hj hij
  have hpi := (hstays.visits i (List.mem_range.mp hi)).1
  have hpj := (hstays.visits j (List.mem_range.mp hj)).1
  refine ⟨j - i, Nat.sub_pos_of_lt hij, ?_⟩
  rw [Int.toNat_of_nonneg hpi, Int.toNat_of_nonneg hpj, Int.ofNat_sub (Nat.le_of_lt hij),
    Int.sub_mul, ← hstep]
  omega

theorem pairwise_lt_positions {s : Slice} {size : Nat} {sel : Selection}
    (h : s.resolve size = .ok sel) (hs : 0 < s.step) : sel.positions.Pairwise (· < ·) := by
  refine (positions_pairwise h).imp ?_
  rintro p q ⟨d, hd, hq⟩
  have := Int.mul_pos (Int.natCast_pos.mpr hd) hs
  omega

theorem pairwise_gt_positions {s : Slice} {size : Nat} {sel : Selection}
    (h : s.resolve size = .ok sel) (hs : s.step < 0) : sel.positions.Pairwise (· > ·) := by
  refine (positions_pairwise h).imp ?_
  rintro p q ⟨d, hd, hq⟩
  have := Int.mul_neg_of_pos_of_neg (Int.natCast_pos.mpr hd) hs
  omega

theorem nodup_positions {s : Slice} {size : Nat} {sel : Selection}
    (h : s.resolve size = .ok sel) (hs : s.step ≠ 0) : sel.positions.Nodup := by
  rcases Int.lt_or_gt_of_ne hs with hneg | hpos
  · exact (pairwise_gt_positions h hneg).imp Nat.ne_of_gt
  · exact (pairwise_lt_positions h hpos).imp Nat.ne_of_lt

end Slice

end ColorAlgebra
