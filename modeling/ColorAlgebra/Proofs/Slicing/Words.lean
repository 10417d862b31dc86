import ColorAlgebra.Proofs.Slicing.Walk
import ColorAlgebra.Word

/-!
# Slices in words

Bounds, steps and lengths are 64-bit words, and a sum or a difference of two words
need not be one. Here the same selection is computed once more, one step of
arithmetic after the other, and the computation gives nothing as soon as a step
leaves the words.
-/

namespace ColorAlgebra

open Word

/-! ## Resolving a slice in words -/

namespace Slice

/-- The bounds and the step of a slice are words. -/
structure FitsWords (s : Slice) : Prop where
  start : ∀ b ∈ s.start, IsSigned b
  stop : ∀ b ∈ s.stop, IsSigned b
  step : IsSigned s.step

/-- The place of a bound between two others, or the default for one that is missing. -/
def placeWords? (length low high default : Int) : Option Int → Option Int
  | none => some default
  | some b =>
    if b < 0 then (signed? (b + length)).map fun n => max n low
    else some (min b high)

/-- The number of positions in a span. -/
def countWords? (s : Slice) (span : Int) : Option Nat :=
  if 0 < span then
    (signed? (span - 1)).bind fun rest =>
    (unsigned? rest).bind fun places =>
    (unsigned? s.step.natAbs).bind fun stride =>
    unsigned? (places / stride + 1 : Nat)
  else some 0

/-- The selection that a slice makes in a sequence, for a step that is not zero. -/
def selectWords? (s : Slice) (size : Nat) : Option Selection :=
  let length := min size maxLength
  if s.step < 0 then
    (signed? (length - 1)).bind fun last =>
    (placeWords? length (-1) last last s.start).bind fun start =>
    (placeWords? length (-1) last (-1) s.stop).bind fun stop =>
    (signed? (start - stop)).bind fun span =>
    (s.countWords? span).map fun count => ⟨start, s.step, count⟩
  else
    (placeWords? length 0 length 0 s.start).bind fun start =>
    (placeWords? length 0 length length s.stop).bind fun stop =>
    (signed? (stop - start)).bind fun span =>
    (s.countWords? span).map fun count => ⟨start, s.step, count⟩

/-- `Slice.resolve` in words. -/
def resolveWords? (s : Slice) (size : Nat) : Option (Except SliceError Selection) :=
  if s.step = 0 then some (.error .zeroStep)
  else (s.selectWords? size).map .ok

theorem placeWords?_some {s : Slice} {length : Nat} {b : Int} (hb : IsSigned b)
    (hlen : length ≤ maxLength) (default : Int) :
    placeWords? length s.lower (s.upper length) default (some b) = some (s.place length b) := by
  unfold placeWords? place
  dsimp only
  split
  · have hsum : IsSigned (b + length) := ⟨by have := hb.1; omega, by omega⟩
    rw [signed?_eq_some hsum, Option.map_some]
  · rfl

theorem placeWords?_start {s : Slice} {length : Nat} (hs : s.FitsWords)
    (hlen : length ≤ maxLength) :
    placeWords? length s.lower (s.upper length)
      (if s.step < 0 then s.upper length else s.lower) s.start = some (s.origin length) := by
  unfold origin
  cases h : s.start with
  | none => rfl
  | some b => exact placeWords?_some (hs.start b h) hlen _

theorem placeWords?_stop {s : Slice} {length : Nat} (hs : s.FitsWords)
    (hlen : length ≤ maxLength) :
    placeWords? length s.lower (s.upper length)
      (if s.step < 0 then s.lower else s.upper length) s.stop = some (s.limit length) := by
  unfold limit
  cases h : s.stop with
  | none => rfl
  | some b => exact placeWords?_some (hs.stop b h) hlen _

theorem countWords?_reach {s : Slice} {length : Nat} (hs : s.FitsWords)
    (hlen : length ≤ maxLength) :
    s.countWords? (s.reach length) = some (s.count length) := by
  unfold countWords? count
  split
  · next hpos =>
    have hreach := s.reach_le_length length
    have hdiv := Nat.div_le_self (s.reach length - 1).toNat s.step.natAbs
    have hstride : IsUnsigned s.step.natAbs := by
      have hstep := hs.step
      unfold IsSigned maxLength at hstep
      exact ⟨by omega, by omega⟩
    have hcount : IsUnsigned (((s.reach length - 1).toNat / s.step.natAbs + 1 : Nat) : Int) := by
      generalize (s.reach length - 1).toNat / s.step.natAbs = q at hdiv
      exact isUnsigned_of_le (by omega) (by omega) hlen
    rw [signed?_eq_some (isSigned_of_le (by omega) (by omega) hlen), Option.bind_some,
      unsigned?_eq_some (isUnsigned_of_le (by omega) (by omega) hlen), Option.bind_some,
      unsigned?_natCast hstride, Option.bind_some, unsigned?_natCast hcount]
  · rfl

theorem reach_isSigned (s : Slice) {length : Nat} (hlen : length ≤ maxLength) :
    IsSigned (s.reach length) := by
  have ho := s.origin_bounds length
  have hl := s.limit_bounds length
  have hreach := s.reach_le_length length
  unfold lower upper at ho hl
  unfold IsSigned
  unfold maxLength at hlen ⊢
  unfold reach at hreach ⊢
  split at hreach <;> simp_all only [if_true, if_false] <;> omega

theorem selectWords?_eq {s : Slice} (hs : s.FitsWords) (size : Nat) :
    s.selectWords? size =
      some ⟨s.origin (min size maxLength), s.step, s.count (min size maxLength)⟩ := by
  unfold selectWords?
  have hlen : min size maxLength ≤ maxLength := Nat.min_le_right _ _
  generalize min size maxLength = length at hlen
  have hstart := placeWords?_start hs hlen
  have hstop := placeWords?_stop hs hlen
  have hspan := s.reach_isSigned hlen
  have hcount := countWords?_reach hs hlen
  unfold lower upper at hstart hstop
  unfold reach at hspan hcount
  dsimp only
  split
  · next hneg =>
    simp only [if_pos hneg] at hstart hstop hspan hcount
    have hlast : IsSigned ((length : Int) - 1) := isSigned_of_le (by omega) (by omega) hlen
    rw [signed?_eq_some hlast, Option.bind_some, hstart, Option.bind_some, hstop,
      Option.bind_some, signed?_eq_some hspan, Option.bind_some, hcount, Option.map_some]
  · next hpos =>
    simp only [if_neg hpos] at hstart hstop hspan hcount
    rw [hstart, Option.bind_some, hstop, Option.bind_some, signed?_eq_some hspan,
      Option.bind_some, hcount, Option.map_some]

/-- Resolving a slice of words never leaves the words. -/
theorem resolveWords?_eq {s : Slice} (hs : s.FitsWords) (size : Nat) :
    s.resolveWords? size = some (s.resolve size) := by
  unfold resolveWords? resolve
  split
  · rfl
  · rw [selectWords?_eq hs, Option.map_some]

end Slice

/-! ## Walking in words -/

namespace Selection

/-- `Selection.next?` in words. -/
def nextWords? (s : Selection) : Option (Option (Nat × Selection)) :=
  if s.remaining = 0 then some none
  else
    (unsigned? ((s.remaining : Int) - 1)).bind fun left =>
    (if 0 < left then signed? (s.start + s.step) else some s.start).bind fun start =>
    (unsigned? s.start).map fun position => some (position, ⟨start, s.step, left⟩)

/-- Asking for the next position never leaves the words as long as what is left to
visit stays within a sequence. -/
theorem nextWords?_eq {s : Selection} {length : Nat} (h : s.Stays length)
    (hlen : length ≤ maxLength) : s.nextWords? = some s.next? := by
  obtain ⟨start, step, remaining⟩ := s
  cases remaining with
  | zero => rfl
  | succ left =>
    have hle : left + 1 ≤ length := h.remaining_le
    have hfirst : 0 ≤ start ∧ start < length := by
      simpa using h.visits 0 (Nat.succ_pos left)
    have hleft : unsigned? (((left + 1 : Nat) : Int) - 1) = some left := by
      have hcast : ((left + 1 : Nat) : Int) - 1 = (left : Int) := by omega
      rw [hcast]
      exact unsigned?_natCast (isUnsigned_of_le (by omega) (by omega) hlen)
    have hposition : unsigned? start = some start.toNat :=
      unsigned?_eq_some (isUnsigned_of_le hfirst.1 (Int.le_of_lt hfirst.2) hlen)
    unfold nextWords? next?
    dsimp only
    rw [if_neg (Nat.succ_ne_zero left), hleft, Option.bind_some, hposition]
    by_cases hmore : 0 < left
    · have hsecond : 0 ≤ start + step ∧ start + step < length := by
        simpa using h.visits 1 (Nat.succ_lt_succ hmore)
      rw [if_pos hmore, if_neg (Nat.ne_of_gt hmore),
        signed?_eq_some (isSigned_of_le (by omega) (Int.le_of_lt hsecond.2) hlen)]
      rfl
    · rw [if_neg hmore, if_pos (Nat.eq_zero_of_not_pos hmore)]
      rfl

end Selection

/-! ## What a slice selects -/

namespace Slice

/-- A slice of words selects in a sequence what the ideal slice does: a step of zero
is the only error, and else the walk ends and visits the ideal positions, in
order. They lie within the sequence, no two are the same, and there are as many as
the selection says at its start. Neither resolving the slice nor any request for
the next position, past the end of the walk included, leaves the words. -/
theorem walk_eq_ideal {s : Slice} {size : Nat} (hs : s.FitsWords) (hsize : size ≤ maxLength) :
    ((∃ e, s.resolve size = .error e) ↔ s.step = 0) ∧
    s.resolveWords? size = some (s.resolve size) ∧
    (s.step ≠ 0 → ∃ sel ps, s.resolve size = .ok sel ∧
      (∀ qs, sel.Walk qs ↔ qs = ps) ∧
      (∀ k, ps[k]?.map Int.ofNat = Ideal.term? s size k) ∧
      (∀ p ∈ ps, p < size) ∧
      (0 < s.step → ps.Pairwise (· < ·)) ∧ (s.step < 0 → ps.Pairwise (· > ·)) ∧ ps.Nodup ∧
      ps.length = sel.remaining ∧
      ∀ j : Nat, (Selection.advance^[j] sel).nextWords? =
        some (Selection.advance^[j] sel).next?) := by
  have hcap : min size maxLength = size := Nat.min_eq_left hsize
  refine ⟨?_, resolveWords?_eq hs size, fun hstep => ?_⟩
  · constructor
    · rintro ⟨e, he⟩
      exact resolve_eq_error_iff.mp he
    · intro h
      exact ⟨.zeroStep, resolve_eq_error_iff.mpr h⟩
  · have hres := resolve_of_step_ne_zero hstep size
    generalize (⟨s.origin (min size maxLength), s.step, s.count (min size maxLength)⟩ : Selection)
      = sel at hres
    have hstays := stays_of_resolve hres
    have hideal := positions_eq_ideal hres
    rw [hcap] at hstays hideal
    refine ⟨sel, sel.positions, hres, fun qs => Selection.walk_iff, hideal,
      fun p hp => positions_lt hres hp, pairwise_lt_positions hres, pairwise_gt_positions hres,
      nodup_positions hres hstep, sel.length_positions, fun j => ?_⟩
    exact Selection.nextWords?_eq (hstays.iterate j) hsize

/-- The longest backward step from the end of the longest sequence: one position. -/
theorem walk_eq_ideal_longest_step :
    ∃ s : Slice, s.FitsWords ∧ maxLength ≤ maxLength ∧ s.step = -0x8000000000000000 ∧
      ∃ sel, s.resolve maxLength = .ok sel ∧ sel.Walk [maxLength - 1] ∧
        s.resolveWords? maxLength = some (s.resolve maxLength) := by
  have hs : FitsWords ⟨none, some (-0x8000000000000000), -0x8000000000000000⟩ :=
    ⟨by simp, by simp; decide, by decide⟩
  obtain ⟨-, hwords, hwalk⟩ := walk_eq_ideal hs (Nat.le_refl maxLength)
  obtain ⟨sel, ps, hres, hall, hideal, -⟩ := hwalk (by decide)
  have hsel : sel = ⟨maxLength - 1, -0x8000000000000000, 1⟩ := by
    have hval : resolve ⟨none, some (-0x8000000000000000), -0x8000000000000000⟩ maxLength =
        .ok ⟨maxLength - 1, -0x8000000000000000, 1⟩ := rfl
    exact Except.ok.inj (hres.symm.trans hval)
  have hps : ps = [maxLength - 1] := by
    subst hsel
    exact ((hall ps).mpr rfl |> Selection.walk_iff.mp).trans (by decide)
  exact ⟨_, hs, Nat.le_refl _, rfl, sel, hres, (hall _).mpr hps.symm, hwords⟩

end Slice

end ColorAlgebra
