import ColorAlgebra.Proofs.Binary.Overflow
import ColorAlgebra.Proofs.Hex.RoundTrip
import ColorAlgebra.Proofs.Spelling.Detection
import ColorAlgebra.Proofs.Spelling.Grammar
import ColorAlgebra.Proofs.Spelling.Narrow

/-!
# Finite channels in text

The numbers that a text spells are finite. They are checked when they are read, and then
multiplied by the range and narrowed to the channel format; either step may overflow, and the
color has an infinite channel then. It is still printed, but what is printed is no number and
cannot be read again. Colors with finite channels can always be.
-/

namespace ColorAlgebra

variable {r : Range} {t : Format}

/-! ## Texts of triples -/

namespace Spelling

theorem isFinite_of_read? {text : String} {n : Triple Double} (h : read? text = some n) :
    ∀ x ∈ n.toList, x.isFinite = true := by
  rcases readSimplified?_eq_some_iff.mp h with hname | hhex | htuple
  · exact hname.isFinite
  · exact hhex.isFinite
  · exact htuple.isFinite

/-- The text of a channel is read as a number if the channel is finite. -/
theorem isSome_reread?_printed (x : Binary t) :
    (reread? (x.convert (printed t))).isSome = x.isFinite := by
  by_cases hx : x.isFinite = true
  · rw [hx]
    by_cases ht : t = .double
    · subst ht
      show (reread? (x.convert .double)).isSome = true
      rw [Binary.convert_self, reread?_double, if_pos hx]
      rfl
    · obtain ⟨v, hv, -⟩ := reread?_printed ht hx
      rw [hv]
      rfl
  · cases x with
    | nan => rfl
    | infinity => rfl
    | finite => exact absurd rfl hx

/-- Only finite triples have names. -/
theorem isFinite_of_name {n : Triple (Binary t)} {name : String}
    (h : Names.of? (n.map (Binary.convert .double)) = some name) :
    ∀ x ∈ n.toList, x.isFinite = true := by
  obtain ⟨_, -, -, hnear⟩ := Names.of?_eq_some_iff.mp h
  obtain ⟨hfirst, hsecond, hthird⟩ := hnear.within
  exact Triple.forall_mem_toList.mpr ⟨(Binary.isFinite_widen _).symm.trans hfirst.finite,
    (Binary.isFinite_widen _).symm.trans hsecond.finite,
    (Binary.isFinite_widen _).symm.trans hthird.finite⟩

/-- Three channels in parentheses are read if each of them is. -/
theorem isSome_read?_parenthesized {f : Format} (n : Triple (Binary f)) :
    (read? (String.ofList ('(' :: (inside n ++ [')'])))).isSome =
      ((reread? n.first).isSome && (reread? n.second).isSome && (reread? n.third).isSome) := by
  rw [read?_parenthesized]
  cases reread? n.first <;> cases reread? n.second <;> cases reread? n.third <;> rfl

/-- The text of a triple can be read if the triple is finite. -/
theorem exists_read?_write_iff (n : Triple (Binary t)) :
    (∃ m, read? (write n) = some m) ↔ ∀ x ∈ n.toList, x.isFinite = true := by
  cases hname : Names.of? (n.map (Binary.convert .double)) with
  | some name =>
    obtain ⟨m, hread, -⟩ := read?_name hname
    rw [write_of_name hname]
    exact iff_of_true ⟨m, hread⟩ (isFinite_of_name hname)
  | none =>
    rw [write_of_no_name hname, ← Option.isSome_iff_exists, isSome_read?_parenthesized,
      Triple.forall_mem_toList]
    dsimp only [Triple.map]
    rw [isSome_reread?_printed, isSome_reread?_printed, isSome_reread?_printed,
      Bool.and_eq_true, Bool.and_eq_true, and_assoc]

end Spelling

/-! ## Ranges -/

theorem Range.full_of_mem (hr : r ∈ standard) : ∃ n ≤ 256, r.full = .ofNat n := by
  have hcases : r = normal ∨ r = byte ∨ r = wide ∨ r = percent := by simpa [standard] using hr
  rcases hcases with rfl | rfl | rfl | rfl
  · exact ⟨1, by decide, by dsimp only [normal, Binary.one]⟩
  · exact ⟨255, by decide, by dsimp only [byte]⟩
  · exact ⟨256, by decide, by dsimp only [wide]⟩
  · exact ⟨100, by decide, by dsimp only [percent]⟩

/-- Dividing by a range does not overflow. -/
theorem Range.isFinite_unscale (hr : r.Moderate) (x : Binary t) :
    ((r.unscale (x.convert .double)).convert t).isFinite = x.isFinite := by
  obtain ⟨sign, full, hfull, heq⟩ := Binary.exists_finite hr.finite
  have hU := Format.cast_unitsPerOne_pos
  have hone : (unitsPerOne : ℚ) ≤ full := by
    have hle := le_trans hr.one_le (le_abs_self r.full.value)
    have hnonneg : (0 : ℚ) ≤ full / unitsPerOne := by positivity
    rw [heq] at hle
    rw [← one_le_div hU, ← abs_of_nonneg hnonneg]
    exact hle.trans_eq (Binary.abs_sign_mul sign _)
  have hpos : 0 < full := by exact_mod_cast lt_of_lt_of_le hU hone
  unfold Range.unscale
  rw [heq]
  cases x with
  | nan => rfl
  | infinity s => rfl
  | finite s n hn =>
    have hquotient : ((Binary.finite s n hn).convert .double).div (.finite sign full hfull) =
        Binary.round (s ^^ sign) (n * unitsPerOne) full := by
      rw [Binary.convert_finite hn.widen]
      exact if_neg (Nat.ne_of_gt hpos)
    have hself : (n / (1 : Nat) : ℚ) / unitsPerOne < t.limitThroughDouble := by
      refine (Binary.isFinite_convert_round_iff s Nat.one_pos).mp ?_
      show (((Binary.finite s n hn).convert .double).convert t).isFinite = true
      rw [Binary.narrow_widen]
      rfl
    rw [Nat.cast_one, div_one] at hself
    rw [hquotient]
    refine (Binary.isFinite_convert_round_iff _ hpos).mpr (lt_of_le_of_lt ?_ hself)
    rw [Nat.cast_mul, mul_div_right_comm, mul_div_cancel_right₀ _ (ne_of_gt hU)]
    exact div_le_div_of_nonneg_left (Nat.cast_nonneg n) hU hone

namespace Color

/-- The text of a color can be read if its channels are finite. -/
theorem exists_ofText_toText_iff (hr : r.Moderate) (c : Color r t) :
    (∃ d : Color r t, ofText c.toText = .ok d) ↔ ∀ x ∈ c.channels.toList, x.isFinite = true := by
  have hread : (∃ d : Color r t, ofText c.toText = .ok d) ↔
      ∃ m, Spelling.read? (Spelling.write c.unscale.channels) = some m := by
    unfold ofText toText
    cases Spelling.read? (Spelling.write c.unscale.channels) <;> simp
  rw [hread, Spelling.exists_read?_write_iff, Triple.forall_mem_toList, Triple.forall_mem_toList,
    ← Range.isFinite_unscale hr c.channels.first, ← Range.isFinite_unscale hr c.channels.second,
    ← Range.isFinite_unscale hr c.channels.third]
  rfl

/-- A normalized channel becomes a finite one below the number at which overflow starts. -/
theorem isFinite_ofNormalized_iff (hr : r.Moderate) {n : Triple Double}
    (hn : ∀ x ∈ n.toList, x.isFinite = true) :
    ∀ pair ∈ n.toList.zip (ofNormalized n : Color r t).channels.toList,
      pair.2.isFinite = true ↔ |pair.1.value * r.full.value| < t.limitThroughDouble := by
  obtain ⟨hx, hy, hz⟩ := Triple.forall_mem_toList.mp hn
  exact Triple.forall_mem_zip.mpr ⟨Binary.isFinite_convert_mul_iff hx hr.finite,
    Binary.isFinite_convert_mul_iff hy hr.finite, Binary.isFinite_convert_mul_iff hz hr.finite⟩

/-- No product of a byte and a standard range overflows. -/
theorem lt_limitThroughDouble (t : Format) : (255 * 256 : ℚ) < t.limitThroughDouble := by
  have hU := Format.cast_unitsPerOne_pos
  have hunits : 255 * 256 * (2 * unitsPerOne) <
      2 * t.lastDouble + 2 ^ Format.double.step t.lastDouble := by
    cases t <;> decide +kernel
  unfold Format.limitThroughDouble
  rw [lt_div_iff₀ (by positivity)]
  exact_mod_cast hunits

theorem abs_mul_full_lt (hr : r ∈ Range.standard) {v : Double} (hv : |v.value| ≤ 255) :
    |v.value * r.full.value| < t.limitThroughDouble := by
  obtain ⟨n, hn, hfull⟩ := Range.full_of_mem hr
  have hvalue : r.full.value = n := by
    rw [hfull, Binary.value_ofNat (Nat.le_trans hn (by decide))]
  have hn : (n : ℚ) ≤ 256 := by exact_mod_cast hn
  rw [hvalue, abs_mul, Nat.abs_cast]
  calc |v.value| * n ≤ 255 * 256 := mul_le_mul hv hn (Nat.cast_nonneg n) (by norm_num)
    _ < t.limitThroughDouble := lt_limitThroughDouble t

/-- What is spelled is finite; a channel of the color that is read is finite just if the product
of the spelled channel and the range is less than the number at which overflow starts, and the
color can be written and read again just if all of its channels are. No format overflows as
long as what is spelled is no more than 255. -/
theorem ofText_isFinite_iff (hr : r ∈ Range.standard) {text : String} {c : Color r t}
    (h : ofText text = .ok c) :
    ∃ n, Spelling.read? text = some n ∧ (∀ x ∈ n.toList, x.isFinite = true) ∧
      (∀ pair ∈ n.toList.zip c.channels.toList,
        pair.2.isFinite = true ↔ |pair.1.value * r.full.value| < t.limitThroughDouble) ∧
      ((∃ d : Color r t, ofText c.toText = .ok d) ↔ ∀ x ∈ c.channels.toList, x.isFinite = true) ∧
      ((∀ x ∈ n.toList, |x.value| ≤ 255) → ∀ x ∈ c.channels.toList, x.isFinite = true) := by
  have hmoderate := Range.moderate_of_mem hr
  unfold ofText at h
  cases hread : Spelling.read? text with
  | none =>
    rw [hread] at h
    cases h
  | some n =>
    rw [hread] at h
    obtain rfl : ofNormalized n = c := Except.ok.inj h
    have hfinite := Spelling.isFinite_of_read? hread
    have hscaled := isFinite_ofNormalized_iff (t := t) hmoderate hfinite
    refine ⟨n, rfl, hfinite, hscaled, exists_ofText_toText_iff hmoderate _, fun hsmall => ?_⟩
    obtain ⟨hx, hy, hz⟩ := Triple.forall_mem_toList.mp hsmall
    obtain ⟨hxc, hyc, hzc⟩ := Triple.forall_mem_zip.mp hscaled
    exact Triple.forall_mem_toList.mpr ⟨hxc.mpr (abs_mul_full_lt hr hx),
      hyc.mpr (abs_mul_full_lt hr hy), hzc.mpr (abs_mul_full_lt hr hz)⟩

/-- A number that is finite as a double and too large for a single. -/
theorem ofText_not_isFinite :
    ∃ c : Color .normal .single, Range.normal ∈ Range.standard ∧ ofText "(1e39, 0, 0)" = .ok c ∧
      c.channels = ⟨.infinity false, .zero, .zero⟩ ∧
      ¬∃ d : Color .normal .single, ofText c.toText = .ok d := by
  have hmem : Range.normal ∈ Range.standard := List.mem_cons_self
  have hread : ofText "(1e39, 0, 0)" =
      .ok (⟨⟨.infinity false, .zero, .zero⟩⟩ : Color .normal .single) := by decide +kernel
  obtain ⟨n, -, -, -, hagain, -⟩ := ofText_isFinite_iff hmem hread
  refine ⟨_, hmem, hread, rfl, fun h => ?_⟩
  exact Bool.false_ne_true (hagain.mp h _ List.mem_cons_self)

end Color

end ColorAlgebra
