import ColorAlgebra.Proofs.Combining.Channels
import ColorAlgebra.Proofs.Comparing.PartialOrder

namespace ColorAlgebra.Color

variable {r : Range} {t : Format} {a b c : Color r t}

/-! ## The channels that decide -/

/-- Of three orders, one after the other, the first that is not an equality stands. -/
theorem then_of_eq_before (order : Fin 3 → Ordering) (i : Fin 3)
    (hbefore : ∀ j < i, order j = .eq) (hi : order i ≠ .eq) :
    ((order 0).then (order 1)).then (order 2) = order i := by
  have hthen : ∀ {o rest : Ordering}, o ≠ .eq → o.then rest = o := by
    intro o rest ho
    cases o with
    | lt => rfl
    | eq => exact absurd rfl ho
    | gt => rfl
  revert i
  refine forall_index.mpr ⟨fun _ hi => ?_, fun hbefore hi => ?_, fun hbefore _ => ?_⟩
  · rw [hthen hi, hthen hi]
  · rw [hbefore 0 (by decide), Ordering.eq_then, hthen hi]
  · rw [hbefore 0 (by decide), hbefore 1 (by decide), Ordering.eq_then, Ordering.eq_then]

/-- The first channels that are not alike decide. -/
theorem sortOrder_of_alike_before {i : Fin 3}
    (hbefore : ∀ j < i, (a.channel j).Alike (b.channel j))
    (hi : ¬ (a.channel i).Alike (b.channel i)) :
    a.sortOrder b = channelOrder (a.channel i) (b.channel i) := by
  refine then_of_eq_before (fun j => channelOrder (a.channel j) (b.channel j)) i
    (fun j hj => channelOrder_eq_eq_iff.mpr (hbefore j hj)) ?_
  rwa [ne_eq, channelOrder_eq_eq_iff]

/-- A number is before a NaN. -/
theorem sortOrder_of_isNaN {i : Fin 3} (hbefore : ∀ j < i, (a.channel j).Alike (b.channel j))
    (ha : (a.channel i).isNaN = false) (hb : (b.channel i).isNaN = true) :
    a.sortOrder b = .lt := by
  have hless : channelOrder (a.channel i) (b.channel i) = .lt :=
    channelOrder_eq_lt_iff.mpr (.inr ⟨ha, hb⟩)
  have hi : ¬ (a.channel i).Alike (b.channel i) := by
    rw [← channelOrder_eq_eq_iff, hless]
    exact nofun
  rw [sortOrder_of_alike_before hbefore hi, hless]

/-! ## Transitivity -/

theorem sortOrder_ne_gt_iff : a.sortOrder b ≠ .gt ↔ (a.sortOrder b).isLE = true := by
  cases a.sortOrder b <;> decide

theorem sortOrder_trans (hab : a.sortOrder b ≠ .gt) (hbc : b.sortOrder c ≠ .gt) :
    a.sortOrder c ≠ .gt := by
  rw [sortOrder_ne_gt_iff] at hab hbc ⊢
  exact sortOrder_isLE_trans hab hbc

/-- A strict step on either side makes the whole way strict. -/
theorem sortOrder_lt_of_ne_gt (hab : a.sortOrder b ≠ .gt) (hbc : b.sortOrder c ≠ .gt)
    (hstrict : a.sortOrder b = .lt ∨ b.sortOrder c = .lt) : a.sortOrder c = .lt := by
  rw [sortOrder_ne_gt_iff] at hab hbc
  rcases hstrict with hlt | hlt
  · exact Std.TransCmp.lt_of_lt_of_isLE hlt hbc
  · exact Std.TransCmp.lt_of_isLE_of_lt hab hlt

/-! ## Comparing -/

section
variable (ha : a.IsNumeric) (hb : b.IsNumeric)
include ha hb

theorem sortOrder_lt_iff_compare : a.sortOrder b = .lt ↔ (a.compare b).less .zero = true := by
  rw [compare_less_zero, ← order?_eq_lt_iff, order?_eq_sortOrder ha hb, Option.some.injEq]

theorem sortOrder_eq_iff_compare : a.sortOrder b = .eq ↔ (a.compare b).equal .zero = true := by
  rw [compare_equal_zero, ← order?_eq_eq_iff, order?_eq_sortOrder ha hb, Option.some.injEq]

theorem sortOrder_gt_iff_compare :
    a.sortOrder b = .gt ↔ Binary.less .zero (a.compare b) = true := by
  rw [zero_less_compare, ← order?_eq_gt_iff, order?_eq_sortOrder ha hb, Option.some.injEq]

end

/-! ## The preorder -/

/-- The order for sorting is a total preorder that extends the comparison of colors. A color is
equal to itself, and changing sides reverses the order. Two steps that do not go down do not lead
down, and they lead up if one of them does. For colors without a NaN it is the sign of their
comparison. Of colors that are alike up to a channel the one with a number there is before the one
with a NaN. -/
theorem sortOrder_preorder (a b c : Color r t) :
    a.sortOrder a = .eq ∧
    b.sortOrder a = (a.sortOrder b).swap ∧
    (a.sortOrder b ≠ .gt → b.sortOrder c ≠ .gt → a.sortOrder c ≠ .gt ∧
      (a.sortOrder b = .lt ∨ b.sortOrder c = .lt → a.sortOrder c = .lt)) ∧
    (a.IsNumeric → b.IsNumeric →
      (a.sortOrder b = .lt ↔ (a.compare b).less .zero = true) ∧
      (a.sortOrder b = .eq ↔ (a.compare b).equal .zero = true) ∧
      (a.sortOrder b = .gt ↔ Binary.less .zero (a.compare b) = true)) ∧
    ∀ i, (∀ j < i, (a.channel j).Alike (b.channel j)) → (a.channel i).isNaN = false →
      (b.channel i).isNaN = true → a.sortOrder b = .lt := by
  refine ⟨Std.ReflCmp.compare_self, sortOrder_swap b a, fun hab hbc => ?_, fun ha hb => ?_,
    fun i hbefore ha hb => sortOrder_of_isNaN hbefore ha hb⟩
  · exact ⟨sortOrder_trans hab hbc, sortOrder_lt_of_ne_gt hab hbc⟩
  · exact ⟨sortOrder_lt_iff_compare ha hb, sortOrder_eq_iff_compare ha hb,
      sortOrder_gt_iff_compare ha hb⟩

/-- The zeros are alike, and so are the NaNs. Of equal first channels the second decide, where
infinity is before a NaN; of the same infinities the third decide, and the comparison says so. -/
theorem sortOrder_preorder_infinite :
    let a : Color .normal .half := ⟨⟨.signedZero true, .infinity true, .nan⟩⟩
    let b : Color .normal .half := ⟨⟨.zero, .infinity false, .one⟩⟩
    let c : Color .normal .half := ⟨⟨.signedZero true, .infinity false, .infinity false⟩⟩
    let d : Color .normal .half := ⟨⟨.zero, .nan, .infinity true⟩⟩
    a.sortOrder b ≠ .gt ∧ b.sortOrder d ≠ .gt ∧ a.sortOrder b = .lt ∧ b.sortOrder d = .lt ∧
      a.sortOrder d = .lt ∧
      b.IsNumeric ∧ c.IsNumeric ∧ b.sortOrder c = .lt ∧ (b.compare c).less .zero = true := by
  intro a b c d
  have hb : b.IsNumeric := by decide +kernel
  have hc : c.IsNumeric := by decide +kernel
  have hab : a.sortOrder b = .lt := by decide +kernel
  have hbc : b.sortOrder c = .lt := by decide +kernel
  obtain ⟨-, -, htrans, -⟩ := sortOrder_preorder a b d
  obtain ⟨-, -, -, -, hnan⟩ := sortOrder_preorder b d d
  obtain ⟨-, -, -, hcompare, -⟩ := sortOrder_preorder b c c
  have hbd : b.sortOrder d = .lt := hnan 1 (by decide +kernel) rfl rfl
  have hab' : a.sortOrder b ≠ .gt := hab.symm ▸ nofun
  have hbd' : b.sortOrder d ≠ .gt := hbd.symm ▸ nofun
  exact ⟨hab', hbd', hab, hbd, (htrans hab' hbd').2 (.inl hab), hb, hc, hbc,
    (hcompare hb hc).1.mp hbc⟩

end ColorAlgebra.Color
