import ColorAlgebra.Proofs.Combining.Arithmetic
import ColorAlgebra.Proofs.Scaling.Quotients
import ColorAlgebra.Proofs.Spelling.Finite

namespace ColorAlgebra

/-! ## Whole numbers -/

namespace Format

variable {f : Format} {d : Nat}

/-- From one on, quotients by the ranges have a full significand too. -/
theorem quantum_add_log2_lt {n : Nat} (hd : d ≤ 256) (hn : unitsPerOne ≤ n) :
    f.quantum + d.log2 < f.step n := by
  have hlog : d.log2 < 9 := by
    rcases Nat.eq_zero_or_pos d with rfl | hpos
    · decide
    · exact (Nat.log2_lt (Nat.ne_of_gt hpos)).mpr (by omega)
  have hone : f.quantum + 9 ≤ f.step unitsPerOne := by cases f <;> decide +kernel
  have hstep := step_mono (f := f) hn
  omega

/-- The significand of a whole number has its leading bit moved to the front. -/
theorem significand_mul_unitsPerOne (h0 : 0 < d) (hd : d ≤ 256) :
    f.significand (d * unitsPerOne) = d * 2 ^ (f.precision - 1 - d.log2) := by
  have hlow := Nat.log2_self_le (Nat.ne_of_gt h0)
  have hhigh : d < 2 ^ (d.log2 + 1) := Nat.lt_log2_self
  have hlog : d.log2 < 9 := (Nat.log2_lt (Nat.ne_of_gt h0)).mpr (by omega)
  have hbounds : 9 ≤ f.precision ∧ f.quantum + f.precision ≤ unitExponent + 1 ∧
      f.precision ≤ unitExponent := by
    cases f <;> decide
  obtain ⟨hbits, hquantum, hunit⟩ := hbounds
  have hpow : unitsPerOne =
      2 ^ (f.precision - 1 - d.log2) * 2 ^ (unitExponent + 1 + d.log2 - f.precision) := by
    rw [unitsPerOne_eq, ← Nat.pow_add]
    congr 1
    omega
  have hsize : 2 ^ (f.precision + (unitExponent + 1 + d.log2 - f.precision)) =
      2 ^ (d.log2 + 1) * unitsPerOne := by
    rw [two_pow_mul_unitsPerOne]
    congr 1
    omega
  have hstep : f.step (d * unitsPerOne) = unitExponent + 1 + d.log2 - f.precision := by
    refine step_eq (by omega) ?_ ?_
    · rw [hsize, Nat.pow_succ', Nat.mul_assoc]
      exact Nat.mul_le_mul_left 2 (Nat.mul_le_mul_right _ hlow)
    · rw [hsize]
      exact Nat.mul_lt_mul_of_pos_right hhigh unitsPerOne_pos
  rw [significand, hstep, hpow, ← Nat.mul_assoc, Nat.mul_div_cancel _ (Nat.two_pow_pos _)]

/-- The whole numbers of a byte come back. -/
theorem returns_whole (f : Format) {k : Nat} (h0 : 0 < k) (hk : k ≤ 255) :
    f.Returns 255 (k * 2 ^ (f.precision - 1 - k.log2)) := by
  have hall : ∀ k < 256, 0 < k → f.Returns 255 (k * 2 ^ (f.precision - 1 - k.log2)) := by
    cases f <;> decide +kernel
  exact hall k (by omega) h0

end Format

namespace Binary

variable {f : Format} {s : Bool} {n d num den : Nat}

theorem ofNat_widen (hd : d ≤ 2 ^ f.precision) :
    (ofNat d : Binary f).convert .double = ofNat d := by
  obtain ⟨h, hfinite⟩ := ofNat_eq hd
  rw [hfinite, convert_finite h.widen]
  exact (ofUnits_of_representable false h.widen).symm

theorem ofNat_inj (hd : d ≤ 2 ^ f.precision) (hn : n ≤ 2 ^ f.precision)
    (h : (ofNat d : Binary f) = ofNat n) : d = n := by
  have hvalue := congrArg value h
  rw [value_ofNat hd, value_ofNat hn] at hvalue
  exact_mod_cast hvalue

/-- What is rounded equals a finite number of its sign if the counts of units are the same. -/
theorem equal_round_iff (hn : f.Representable n) :
    (round s num den : Binary f).equal (finite s n hn) = true ↔ f.nearest num den = n := by
  constructor
  · intro h
    by_cases hlt : f.nearest num den < 2 ^ f.top
    · rw [round_of_nearest (Format.representable_nearest hlt) rfl] at h
      have hsigned : signed s (f.nearest num den) = signed s n := of_decide_eq_true h
      cases s <;> simp only [signed, if_true, Bool.false_eq_true, if_false] at hsigned <;> omega
    · rw [round_of_top_le (Nat.le_of_not_lt hlt), equal_comm] at h
      rw [not_equal_infinity rfl s] at h
      cases h
  · intro h
    rw [round_of_nearest hn h]
    exact equal_self rfl

/-- The significand of a finite number that is a whole one. -/
theorem significand_of_value_eq {x : Binary f} (h0 : 0 < d) (hd : d ≤ 256)
    (hx : x.isFinite = true) (hvalue : x.value = d) :
    x.significand = d * 2 ^ (f.precision - 1 - d.log2) := by
  obtain ⟨s, n, hn, rfl⟩ := exists_finite hx
  have hunits : n = d * unitsPerOne := by
    have habs : |((finite s n hn : Binary f)).value| = d := by rw [hvalue, Nat.abs_cast]
    rw [abs_value_finite, div_eq_iff (ne_of_gt Format.cast_unitsPerOne_pos)] at habs
    exact_mod_cast habs
  subst hunits
  exact Format.significand_mul_unitsPerOne h0 hd

/-- Which numbers of magnitude one or more come back. -/
theorem mul_div_equal_iff (hd : 0 < d) (hle : d ≤ 256) (hpowers : f.PowersReturn d)
    {x : Binary f} (hx : x.isFinite = true) (hone : 1 ≤ |x.value|) :
    ((x.div (ofNat d)).mul (ofNat d)).equal x = true ↔ f.Returns d x.significand := by
  have hfits : d ≤ 2 ^ f.precision := Nat.le_trans hle (by cases f <;> decide)
  have hbits : d.log2 < f.precision := by
    refine (Nat.log2_lt (Nat.ne_of_gt hd)).mpr (Nat.lt_of_le_of_lt hle ?_)
    cases f <;> decide
  obtain ⟨hwhole, hofNat⟩ := ofNat_eq (f := f) hfits
  obtain ⟨s, n, hn, rfl⟩ := exists_finite hx
  rw [abs_value_finite, one_le_div Format.cast_unitsPerOne_pos, Nat.cast_le] at hone
  rw [hofNat, div_whole hwhole hd hn, mul_whole hwhole (hn.nearest_div hd), ofUnits,
    equal_round_iff hn]
  exact Format.nearest_mul_nearest_iff hd hbits hn.onGrid
    (Format.quantum_add_log2_lt hle hone) hpowers

end Binary

/-! ## Colors -/

namespace Range

/-- The four full values. -/
theorem full_cases {r : Range} (hr : r ∈ standard) :
    ∃ d, r.full = .ofNat d ∧ 0 < d ∧ d ≤ 256 ∧ (∀ f : Format, f.PowersReturn d) ∧
      (r = normal ∨ r = wide → ∃ b, d = 2 ^ b) ∧ (r = byte → d = 255) := by
  have hcases : r = normal ∨ r = byte ∨ r = wide ∨ r = percent := by simpa [standard] using hr
  have hpowers : ∀ d ∈ [1, 255, 256, 100], ∀ f : Format, f.PowersReturn d := by
    intro d hd f
    cases f <;> revert d <;> decide +kernel
  have hne : ∀ {s u : Range}, s.name ≠ u.name → s ≠ u := fun h heq => h (congrArg name heq)
  rcases hcases with rfl | rfl | rfl | rfl
  · exact ⟨1, by dsimp only [normal, Binary.one], by decide, by decide, hpowers 1 (by decide),
      fun _ => ⟨0, rfl⟩, fun h => absurd h (hne (by decide))⟩
  · exact ⟨255, by dsimp only [byte], by decide, by decide, hpowers 255 (by decide),
      fun h => absurd h (not_or.mpr ⟨hne (by decide), hne (by decide)⟩), fun _ => rfl⟩
  · exact ⟨256, by dsimp only [wide], by decide, by decide, hpowers 256 (by decide),
      fun _ => ⟨8, rfl⟩, fun h => absurd h (hne (by decide))⟩
  · exact ⟨100, by dsimp only [percent], by decide, by decide, hpowers 100 (by decide),
      fun h => absurd h (not_or.mpr ⟨hne (by decide), hne (by decide)⟩),
      fun h => absurd h (hne (by decide))⟩

end Range

namespace Color

variable {r : Range} {t : Format} {d : Nat}

theorem channel_unscale (hfull : r.full = .ofNat d) (hfits : d ≤ 2 ^ t.precision)
    (c : Color r t) (i : Fin 3) : c.unscale.channel i = (c.channel i).div (.ofNat d) := by
  unfold unscale
  rw [channel_mapDouble, Range.unscale, hfull, ← Binary.ofNat_widen hfits, Binary.narrow_div]

theorem channel_scale (hfull : r.full = .ofNat d) (hfits : d ≤ 2 ^ t.precision)
    (c : Color r t) (i : Fin 3) : c.scale.channel i = (c.channel i).mul (.ofNat d) := by
  unfold scale
  rw [channel_mapDouble, Range.scale, hfull, ← Binary.ofNat_widen hfits, Binary.narrow_mul]

/-- A color with finite channels of magnitude one or more comes back from its normalized form
just if each significand does. All do where the full value is a power of two, and so do the whole
numbers of a byte. -/
theorem unscale_scale_iff (hr : r ∈ Range.standard) {c : Color r t}
    (hc : ∀ i, (c.channel i).isFinite = true ∧ 1 ≤ |(c.channel i).value|) :
    ∃ d ≤ 256, r.full = .ofNat d ∧
      (c.unscale.scale.equal c = true ↔ ∀ i, t.Returns d (c.channel i).significand) ∧
      (r = .normal ∨ r = .wide → c.unscale.scale.equal c = true) ∧
      (r = .byte → (∀ i, ∃ k : Nat, k ≤ 255 ∧ (c.channel i).value = k) →
        c.unscale.scale.equal c = true) := by
  obtain ⟨d, hfull, hd, hle, hpowers, hexact, hwhole⟩ := Range.full_cases hr
  have hfits : d ≤ 2 ^ t.precision := Nat.le_trans hle (by cases t <;> decide)
  have hiff : c.unscale.scale.equal c = true ↔ ∀ i, t.Returns d (c.channel i).significand := by
    rw [equal_iff_channel]
    refine forall_congr' fun i => ?_
    obtain ⟨hfinite, hone⟩ := hc i
    rw [channel_scale hfull hfits, channel_unscale hfull hfits]
    exact Binary.mul_div_equal_iff hd hle (hpowers t) hfinite hone
  refine ⟨d, hle, hfull, hiff, fun h => hiff.mpr fun i => ?_, fun h hvalues => hiff.mpr fun i => ?_⟩
  · obtain ⟨b, rfl⟩ := hexact h
    exact t.returns_two_pow b _
  · obtain ⟨hfinite, hone⟩ := hc i
    obtain ⟨k, hk, hvalue⟩ := hvalues i
    rw [hvalue, Nat.abs_cast] at hone
    have hk0 : 0 < k := by exact_mod_cast lt_of_lt_of_le one_pos hone
    rw [Binary.significand_of_value_eq hk0 (by omega) hfinite hvalue, hwhole h]
    exact t.returns_whole hk0 hk

/-- Seven of a hundred does not come back, nor does a number near 64 of a byte. -/
theorem unscale_scale_lossy :
    (splat (.ofNat 7) : Color .percent .double).unscale.scale.equal (splat (.ofNat 7)) = false ∧
      (splat (.ofUnits false (16769506 * 2 ^ (unitExponent - 18))) :
        Color .byte .single).unscale.scale.equal
          (splat (.ofUnits false (16769506 * 2 ^ (unitExponent - 18)))) = false := by
  constructor
  · have hseven : 7 ≤ 2 ^ Format.double.precision := by decide
    have hmem : Range.percent ∈ Range.standard := by simp [Range.standard]
    obtain ⟨d, hd, hfull, hiff, -⟩ := unscale_scale_iff hmem
      (c := (splat (.ofNat 7) : Color .percent .double)) fun i => by
        rw [channel_splat, Binary.value_ofNat hseven]
        exact ⟨Binary.isFinite_ofNat hseven, by norm_num⟩
    dsimp only [Range.percent] at hfull
    obtain rfl : 100 = d :=
      Binary.ofNat_inj (f := .double) (by decide) (Nat.le_trans hd (by decide)) hfull
    rw [Bool.eq_false_iff]
    intro h
    have hreturns := hiff.mp h 0
    rw [channel_splat, Binary.significand_of_value_eq (by decide) (by decide)
      (Binary.isFinite_ofNat hseven) (Binary.value_ofNat hseven)] at hreturns
    exact absurd hreturns (by decide +kernel)
  · have hrepresentable : Format.single.Representable (16769506 * 2 ^ (unitExponent - 18)) := by
      decide +kernel
    have hone : unitsPerOne ≤ 16769506 * 2 ^ (unitExponent - 18) := by decide +kernel
    have hlossy : ¬ Format.single.Returns 255
        (Format.single.significand (16769506 * 2 ^ (unitExponent - 18))) := by
      decide +kernel
    generalize 16769506 * 2 ^ (unitExponent - 18) = n at hrepresentable hone hlossy ⊢
    rw [Binary.ofUnits_of_representable false hrepresentable]
    have hmem : Range.byte ∈ Range.standard := by simp [Range.standard]
    obtain ⟨d, hd, hfull, hiff, -⟩ := unscale_scale_iff hmem
      (c := (splat (.finite false n hrepresentable) : Color .byte .single)) fun i => by
        rw [channel_splat, Binary.abs_value_finite, one_le_div Format.cast_unitsPerOne_pos]
        exact ⟨rfl, by exact_mod_cast hone⟩
    dsimp only [Range.byte] at hfull
    obtain rfl : 255 = d :=
      Binary.ofNat_inj (f := .double) (by decide) (Nat.le_trans hd (by decide)) hfull
    rw [Bool.eq_false_iff]
    intro h
    have hreturns := hiff.mp h 0
    rw [channel_splat] at hreturns
    exact hlossy hreturns

end Color

end ColorAlgebra
