import ColorAlgebra.Proofs.Sorting.Order

/-!
# Comparing colors

The comparison of two colors is a difference of channels, and it is read in three ways: by
its sign, by testing it for a relation, and through the operators on colors. All three say
the same, because a difference of unlike numbers is never rounded to zero. What they say
is the lexicographic order of the channels, in which a NaN stands in no order.

* `Color.firstUnequal?`: the channels that decide a comparison.
* `Binary.Before`, `Color.Less`: the lexicographic order.

Results:
1. `Binary.less_sub_zero`, `Binary.zero_less_sub`, `Binary.sub_swap`: the sign of a
   difference, and the difference the other way around.
2. `Color.compare_less_zero`, `Color.zero_less_compare`, `Color.compare_equal_zero`: the
   sign of a comparison.
3. `Color.compareWith_eq_stands`: the relations and the operators agree.
4. `Color.Less.irrefl`, `Color.Less.trans`.
5. `Color.comparisons_agree`: all of this together.
-/

namespace ColorAlgebra

/-! ## Channels -/

namespace Binary

variable {f : Format}

/-- The first of two channels is less, or they are equal and what follows decides. -/
def Before (x y : Binary f) (rest : Prop) : Prop :=
  x.less y = true ∨ x.equal y = true ∧ rest

theorem less_iff {x y : Binary f} :
    x.less y = true ↔ ∃ a b, x.rank = some a ∧ y.rank = some b ∧ a < b := by
  unfold less related
  cases x.rank <;> cases y.rank <;> simp

theorem equal_iff {x y : Binary f} :
    x.equal y = true ↔ ∃ a, x.rank = some a ∧ y.rank = some a := by
  unfold equal related
  cases x.rank <;> cases y.rank <;> simp [eq_comm]

theorem atMost_iff {x y : Binary f} :
    x.atMost y = true ↔ x.less y = true ∨ x.equal y = true := by
  unfold atMost less equal related
  cases x.rank <;> cases y.rank <;> simp [Int.le_iff_lt_or_eq]

theorem less_widen (x y : Binary f) : (x.convert .double).less (y.convert .double) = x.less y := by
  unfold less related
  rw [rank_widen, rank_widen]

theorem equal_widen (x y : Binary f) :
    (x.convert .double).equal (y.convert .double) = x.equal y := by
  unfold equal related
  rw [rank_widen, rank_widen]

theorem not_less_of_equal {x y : Binary f} (h : x.equal y = true) : ¬ x.less y = true := by
  obtain ⟨a, hx, hy⟩ := equal_iff.mp h
  rw [less_iff]
  rintro ⟨b, c, hb, hc, hlt⟩
  rw [hx] at hb
  rw [hy] at hc
  cases hb
  cases hc
  exact Int.lt_irrefl a hlt

theorem Before.irrefl {x : Binary f} {p : Prop} (h : x.Before x p) : p := by
  rcases h with hless | ⟨-, hp⟩
  · obtain ⟨a, b, ha, hb, hlt⟩ := less_iff.mp hless
    rw [ha] at hb
    cases hb
    exact absurd hlt (Int.lt_irrefl a)
  · exact hp

theorem Before.trans {x y z : Binary f} {p q r : Prop} (hxy : x.Before y p) (hyz : y.Before z q)
    (hrest : p → q → r) : x.Before z r := by
  unfold Before at hxy hyz ⊢
  rw [less_iff, equal_iff] at hxy hyz ⊢
  rcases hxy with ⟨a, b, hx, hy, hlt⟩ | ⟨⟨a, hx, hy⟩, hp⟩ <;>
    rcases hyz with ⟨c, d, hy', hz, hlt'⟩ | ⟨⟨c, hy', hz⟩, hq⟩ <;>
    rw [hy] at hy' <;> cases hy'
  · exact .inl ⟨a, d, hx, hz, Int.lt_trans hlt hlt'⟩
  · exact .inl ⟨a, b, hx, hz, hlt⟩
  · exact .inl ⟨a, d, hx, hz, hlt'⟩
  · exact .inr ⟨⟨a, hx, hz⟩, hrest hp hq⟩

/-! ## Differences -/

theorem neg_round (negative : Bool) (num den : Nat) :
    (round negative num den : Binary f).neg = round (!negative) num den := by
  unfold round
  split <;> rfl

/-- Unequal numbers have an exact difference that is not zero. -/
theorem sub_finite {s t : Bool} {a b : Nat} {ha : Format.double.Representable a}
    {hb : Format.double.Representable b} (h : signed s a ≠ signed t b) :
    (finite s a ha : Double).sub (finite t b hb) =
      ofUnits (decide (signed s a < signed t b)) (signed s a - signed t b).natAbs := by
  have hsum : signed s a + signed (!t) b = signed s a - signed t b := by
    rw [signed_not, Int.sub_eq_add_neg]
  have hne : signed s a - signed t b ≠ 0 := sub_ne_zero.mpr h
  show (if signed s a + signed (!t) b = 0 then signedZero (s && !t)
    else ofUnits (decide (signed s a + signed (!t) b < 0)) (signed s a + signed (!t) b).natAbs) = _
  rw [hsum, if_neg hne, decide_eq_decide.mpr sub_neg]

/-- The difference the other way around is the opposite number. -/
theorem sub_swap {x y : Double} (h : x.equal y = false) : y.sub x = (x.sub y).neg := by
  cases x with
  | nan => cases y <;> rfl
  | infinity s =>
    cases y with
    | nan => rfl
    | infinity t => cases s <;> cases t <;> rfl
    | finite => rfl
  | finite s a ha =>
    cases y with
    | nan => rfl
    | infinity t => cases t <;> rfl
    | finite t b hb =>
      have hne : signed s a ≠ signed t b := of_decide_eq_false h
      have hsign : decide (signed t b < signed s a) = !decide (signed s a < signed t b) := by
        rw [← decide_not, decide_eq_decide]
        omega
      rw [sub_finite hne, sub_finite hne.symm, hsign, ← Int.natAbs_neg, Int.neg_sub]
      exact (neg_round ..).symm

theorem rank_sub_of_nan {x y : Double} (h : x.rank = none ∨ y.rank = none) :
    (x.sub y).rank = none := by
  rw [rank_eq_none_iff, rank_eq_none_iff] at h
  rcases h with rfl | rfl
  · rfl
  · cases x <;> rfl

/-- The rank of a difference of channels that are not equal. -/
theorem rank_sub_of_not_equal {x y : Double} (h : x.equal y = false) :
    (x.rank = none ∨ y.rank = none) ∧ (x.sub y).rank = none ∨
      ∃ a b m, x.rank = some a ∧ y.rank = some b ∧ a ≠ b ∧ 0 < m ∧
        (x.sub y).rank = some (signed (decide (a < b)) m) := by
  cases hx : x.rank with
  | none => exact .inl ⟨.inl rfl, rank_sub_of_nan (.inl hx)⟩
  | some a =>
    cases hy : y.rank with
    | none => exact .inl ⟨.inr rfl, rank_sub_of_nan (.inr hy)⟩
    | some b =>
      have hne : a ≠ b := by
        rintro rfl
        rw [equal_iff.mpr ⟨a, hx, hy⟩] at h
        cases h
      obtain ⟨m, hm, hrank⟩ := rank_sub hx hy hne
      exact .inr ⟨a, b, m, rfl, rfl, hne, hm, hrank⟩

theorem signed_lt_zero_iff {p : Bool} {m : Nat} (hm : 0 < m) : signed p m < 0 ↔ p = true := by
  cases p <;> simp [signed, hm]

theorem less_sub_zero {x y : Double} (h : x.equal y = false) :
    (x.sub y).less .zero = x.less y := by
  rcases rank_sub_of_not_equal h with ⟨hnan, hrank⟩ | ⟨a, b, m, hx, hy, hne, hm, hrank⟩
  · unfold less related
    rw [hrank]
    rcases hnan with hx | hy
    · rw [hx]
    · rw [hy]
      cases x.rank <;> rfl
  · unfold less related
    rw [hrank, hx, hy, rank_zero]
    dsimp only
    rw [decide_eq_decide, signed_lt_zero_iff hm, decide_eq_true_eq]

theorem zero_less_neg (x : Double) : Binary.less .zero x.neg = x.less .zero := by
  unfold less related
  rw [rank_neg, rank_zero]
  cases x.rank with
  | none => rfl
  | some a => exact decide_eq_decide.mpr Int.neg_pos

theorem zero_less_sub {x y : Double} (h : x.equal y = false) :
    Binary.less .zero (x.sub y) = y.less x := by
  rw [equal_comm] at h
  rw [sub_swap h, zero_less_neg, less_sub_zero h]

theorem sub_equal_zero {x y : Double} (h : x.equal y = false) :
    (x.sub y).equal .zero = false := by
  unfold equal related
  rcases rank_sub_of_not_equal h with ⟨-, hrank⟩ | ⟨a, b, m, -, -, -, hm, hrank⟩
  · rw [hrank]
  · rw [hrank, rank_zero]
    dsimp only
    rw [decide_eq_false_iff_not]
    cases decide (a < b) <;> simp [signed] <;> omega

end Binary

/-! ## Colors -/

namespace Color

variable {r : Range} {t : Format}

/-- The first two channels that are not equal. -/
def firstUnequal? (a b : Color r t) : Option (Binary t × Binary t) :=
  (a.channels.toList.zip b.channels.toList).find? fun pair => !pair.1.equal pair.2

/-- The first channels decide, or if they are equal the second, or if these are equal as
well the third. -/
def Less (a b : Color r t) : Prop :=
  a.channels.first.Before b.channels.first <|
    a.channels.second.Before b.channels.second <|
      a.channels.third.Before b.channels.third False

theorem Less.irrefl {a : Color r t} : ¬ a.Less a :=
  fun h => Binary.Before.irrefl (Binary.Before.irrefl (Binary.Before.irrefl h))

theorem Less.trans {a b c : Color r t} (hab : a.Less b) (hbc : b.Less c) : a.Less c :=
  Binary.Before.trans hab hbc fun hab hbc => Binary.Before.trans hab hbc fun hab hbc =>
    Binary.Before.trans hab hbc fun h _ => h

/-! ## The channels that decide -/

theorem not_equal_of_firstUnequal? {a b : Color r t} {x y : Binary t}
    (h : a.firstUnequal? b = some (x, y)) : x.equal y = false := by
  simpa using List.find?_some h

theorem firstUnequal?_swap (a b : Color r t) :
    b.firstUnequal? a = (a.firstUnequal? b).map Prod.swap := by
  unfold firstUnequal?
  rw [← List.zip_swap, List.find?_map]
  congr 2
  funext pair
  exact congrArg not (Binary.equal_comm ..)

theorem foldr_before_iff {pairs : List (Binary t × Binary t)} :
    pairs.foldr (fun pair rest => pair.1.Before pair.2 rest) False ↔
      ∃ x y, pairs.find? (fun pair => !pair.1.equal pair.2) = some (x, y) ∧ x.less y = true := by
  induction pairs with
  | nil => simp
  | cons pair rest ih =>
    obtain ⟨x, y⟩ := pair
    rw [List.foldr_cons, ih]
    unfold Binary.Before
    cases h : x.equal y with
    | true => simp [h, Binary.not_less_of_equal h]
    | false => simp [h]

theorem less_iff_firstUnequal? {a b : Color r t} :
    a.Less b ↔ ∃ x y, a.firstUnequal? b = some (x, y) ∧ x.less y = true := by
  unfold firstUnequal?
  rw [← foldr_before_iff]
  rfl

theorem equal_iff_firstUnequal? {a b : Color r t} :
    a.equal b = true ↔ a.firstUnequal? b = none := by
  unfold equal firstUnequal?
  rw [Triple.all_eq_true_iff, List.find?_eq_none]
  simp

/-! ## The sign of a comparison -/

theorem compare_eq_match (a b : Color r t) :
    a.compare b = match a.firstUnequal? b with
      | some (x, y) => (x.convert .double).sub (y.convert .double)
      | none => Binary.zero := by
  have hzip : a.toDoubles.toList.zip b.toDoubles.toList =
      (a.channels.toList.zip b.channels.toList).map
        (Prod.map (Binary.convert .double) (Binary.convert .double)) := rfl
  have hwiden : (fun pair : Double × Double => !pair.1.equal pair.2) ∘
      Prod.map (Binary.convert .double) (Binary.convert .double) =
        fun pair : Binary t × Binary t => !pair.1.equal pair.2 := by
    funext pair
    exact congrArg not (Binary.equal_widen ..)
  unfold compare firstUnequal?
  rw [hzip, List.find?_map, hwiden]
  cases List.find? (fun pair : Binary t × Binary t => !pair.1.equal pair.2)
    (a.channels.toList.zip b.channels.toList) <;> rfl

/-- Colors compare as zero, or as the difference of two channels that are not equal. -/
theorem compare_cases (a b : Color r t) :
    a.firstUnequal? b = none ∧ a.compare b = .zero ∨
      ∃ x y, a.firstUnequal? b = some (x, y) ∧
        (x.convert .double).equal (y.convert .double) = false ∧
        a.compare b = (x.convert .double).sub (y.convert .double) := by
  rw [compare_eq_match]
  cases h : a.firstUnequal? b with
  | none => exact .inl ⟨rfl, rfl⟩
  | some pair =>
    refine .inr ⟨pair.1, pair.2, rfl, ?_, rfl⟩
    rw [Binary.equal_widen]
    exact not_equal_of_firstUnequal? h

theorem compare_less_zero {a b : Color r t} : (a.compare b).less .zero = true ↔ a.Less b := by
  rw [less_iff_firstUnequal?]
  rcases compare_cases a b with ⟨h, hzero⟩ | ⟨x, y, h, hne, hsub⟩
  · rw [h, hzero]
    simp [Binary.less, Binary.related, Binary.rank_zero]
  · rw [h, hsub, Binary.less_sub_zero hne, Binary.less_widen]
    simp

theorem zero_less_compare {a b : Color r t} :
    Binary.less .zero (a.compare b) = true ↔ b.Less a := by
  rw [less_iff_firstUnequal?, firstUnequal?_swap]
  rcases compare_cases a b with ⟨h, hzero⟩ | ⟨x, y, h, hne, hsub⟩
  · rw [h, hzero]
    simp [Binary.less, Binary.related, Binary.rank_zero]
  · rw [h, hsub, Binary.zero_less_sub hne, Binary.less_widen]
    simp

theorem compare_equal_zero (a b : Color r t) : (a.compare b).equal .zero = a.equal b := by
  rw [Bool.eq_iff_iff, equal_iff_firstUnequal?]
  rcases compare_cases a b with ⟨h, hzero⟩ | ⟨x, y, h, hne, hsub⟩
  · rw [h, hzero]
    simp [Binary.equal, Binary.related, Binary.rank_zero]
  · rw [h, hsub, Binary.sub_equal_zero hne]
    simp

/-- The comparison the other way around is the opposite number. -/
theorem rank_compare_swap (a b : Color r t) :
    (b.compare a).rank = (a.compare b).neg.rank := by
  rcases compare_cases a b with ⟨h, hzero⟩ | ⟨x, y, h, hne, hsub⟩
  · have hswap := firstUnequal?_swap a b
    rw [h, Option.map_none] at hswap
    rw [compare_eq_match b a, hswap, hzero]
    rfl
  · have hswap := firstUnequal?_swap a b
    rw [h, Option.map_some] at hswap
    rw [compare_eq_match b a, hswap, hsub]
    exact congrArg Binary.rank (Binary.sub_swap hne)

theorem rank_compare_eq_none_iff {a b : Color r t} :
    (a.compare b).rank = none ↔
      ∃ x y, a.firstUnequal? b = some (x, y) ∧ (x.isNaN = true ∨ y.isNaN = true) := by
  rcases compare_cases a b with ⟨h, hzero⟩ | ⟨x, y, h, hne, hsub⟩
  · rw [h, hzero]
    simp [Binary.rank_zero]
  · have hnan : (x.isNaN = true ∨ y.isNaN = true) ↔
        (x.convert .double).rank = none ∨ (y.convert .double).rank = none := by
      rw [Binary.isNaN_eq_true_iff, Binary.isNaN_eq_true_iff, Binary.rank_widen, Binary.rank_widen]
    rw [h, hsub]
    simp only [Option.some.injEq, Prod.mk.injEq]
    rcases Binary.rank_sub_of_not_equal hne with ⟨hx, hrank⟩ | ⟨a, b, m, hx, hy, -, -, hrank⟩
    · exact iff_of_true hrank ⟨x, y, ⟨rfl, rfl⟩, hnan.mpr hx⟩
    · refine iff_of_false (by rw [hrank]; exact nofun) ?_
      rintro ⟨x, y, ⟨rfl, rfl⟩, h⟩
      rw [hnan, hx, hy] at h
      rcases h with h | h <;> cases h

/-! ## The readings of a comparison -/

theorem order?_eq_lt_iff {a b : Color r t} : a.order? b = some .lt ↔ a.Less b := by
  rw [order?_eq_rank, ← compare_less_zero]
  unfold Binary.less Binary.related
  rw [Binary.rank_zero]
  cases (a.compare b).rank <;> simp [Int.compare_eq_lt]

theorem order?_eq_gt_iff {a b : Color r t} : a.order? b = some .gt ↔ b.Less a := by
  rw [order?_eq_rank, ← zero_less_compare]
  unfold Binary.less Binary.related
  rw [Binary.rank_zero]
  cases (a.compare b).rank <;> simp [Int.compare_eq_gt]

theorem order?_eq_eq_iff {a b : Color r t} : a.order? b = some .eq ↔ a.equal b = true := by
  rw [order?_eq_rank, ← compare_equal_zero]
  unfold Binary.equal Binary.related
  rw [Binary.rank_zero]
  cases (a.compare b).rank <;> simp

theorem order?_eq_none_iff {a b : Color r t} :
    a.order? b = none ↔
      ∃ x y, a.firstUnequal? b = some (x, y) ∧ (x.isNaN = true ∨ y.isNaN = true) := by
  rw [order?_eq_rank, Option.map_eq_none_iff, rank_compare_eq_none_iff]

theorem compareWith_eq_stands (rel : Relation) (a b : Color r t) :
    compareWith rel a b = stands rel a b := by
  have hlt : (a.compare b).less .zero = decide (a.order? b = some .lt) := by
    rw [Bool.eq_iff_iff, decide_eq_true_iff, order?_eq_lt_iff, compare_less_zero]
  have hgt : Binary.less .zero (a.compare b) = decide (a.order? b = some .gt) := by
    rw [Bool.eq_iff_iff, decide_eq_true_iff, order?_eq_gt_iff, zero_less_compare]
  have heq : (a.compare b).equal .zero = decide (a.order? b = some .eq) := by
    rw [Bool.eq_iff_iff, decide_eq_true_iff, order?_eq_eq_iff, compare_equal_zero]
  unfold compareWith stands Relation.holds
  cases rel with
  | lt => exact hlt
  | le =>
    dsimp only
    rw [← hlt, ← heq, Bool.eq_iff_iff, Binary.atMost_iff, Bool.or_eq_true]
  | eq => exact compare_equal_zero a b
  | ne => exact congrArg not (compare_equal_zero a b)
  | gt => exact hgt
  | ge =>
    dsimp only
    rw [← hgt, ← heq, Bool.eq_iff_iff, Binary.atMost_iff, Bool.or_eq_true, Binary.equal_comm]

theorem stands_lt_iff {a b : Color r t} : stands .lt a b = true ↔ a.Less b := by
  unfold stands
  rw [decide_eq_true_iff, order?_eq_lt_iff]

theorem stands_gt_iff {a b : Color r t} : stands .gt a b = true ↔ b.Less a := by
  unfold stands
  rw [decide_eq_true_iff, order?_eq_gt_iff]

/-- Where a NaN decides, colors are unequal and stand in no order. -/
theorem stands_of_order?_eq_none {a b : Color r t} (h : a.order? b = none) (rel : Relation) :
    stands rel a b = decide (rel = .ne) := by
  have hne : a.equal b = false := by
    rw [← Bool.not_eq_true, ← order?_eq_eq_iff, h]
    exact nofun
  cases rel <;> simp [stands, h, hne]

/-- Of two colors without a NaN one is less, or they are equal. -/
theorem stands_exactly_one {a b : Color r t} (ha : a.IsNumeric) (hb : b.IsNumeric) :
    ∃ rel ∈ [Relation.lt, .eq, .gt], ∀ rel' ∈ [Relation.lt, .eq, .gt],
      stands rel' a b = decide (rel' = rel) := by
  have horder := order?_eq_sortOrder ha hb
  have hequal : a.equal b = decide (a.order? b = some .eq) := by
    rw [Bool.eq_iff_iff, decide_eq_true_iff, order?_eq_eq_iff]
  cases h : a.sortOrder b with
  | lt =>
    rw [h] at horder
    exact ⟨.lt, by simp, by simp [stands, hequal, horder]⟩
  | eq =>
    rw [h] at horder
    exact ⟨.eq, by simp, by simp [stands, hequal, horder]⟩
  | gt =>
    rw [h] at horder
    exact ⟨.gt, by simp, by simp [stands, hequal, horder]⟩

/-- Colors without a NaN compare as opposite numbers when they change sides. -/
theorem compare_equal_neg {a b : Color r t} (ha : a.IsNumeric) (hb : b.IsNumeric) :
    (a.compare b).equal (b.compare a).neg = true := by
  have horder := order?_eq_sortOrder ha hb
  rw [order?_eq_rank, Option.map_eq_some_iff] at horder
  obtain ⟨d, hd, -⟩ := horder
  rw [Binary.equal_iff]
  refine ⟨d, hd, ?_⟩
  rw [Binary.rank_neg, rank_compare_swap, Binary.rank_neg, hd]
  exact congrArg some (Int.neg_neg d)

/-- All ways to compare colors agree. Comparing gives zero for colors with equal channels
and no others, testing the comparison for a relation is the operator of that relation, and
where a NaN decides only inequality holds. The operators are those of the lexicographic
order, which is irreflexive and transitive. Of colors without a NaN exactly one is less, or
they are equal, and changing sides gives the opposite comparison. -/
theorem comparisons_agree (a b c : Color r t) :
    (a.compare b).equal .zero = a.equal b ∧
    (∀ rel, compareWith rel a b = stands rel a b) ∧
    (∀ x y, a.firstUnequal? b = some (x, y) → x.isNaN = true ∨ y.isNaN = true →
      a.order? b = none ∧ ∀ rel, stands rel a b = decide (rel = .ne)) ∧
    (stands .lt a b = true ↔ a.Less b) ∧
    stands .lt a b = stands .gt b a ∧
    stands .lt a a = false ∧
    (stands .lt a b = true → stands .lt b c = true → stands .lt a c = true) ∧
    (a.IsNumeric → b.IsNumeric →
      (∃ rel ∈ [Relation.lt, .eq, .gt], ∀ rel' ∈ [Relation.lt, .eq, .gt],
        stands rel' a b = decide (rel' = rel)) ∧
      (a.compare b).equal (b.compare a).neg = true) := by
  refine ⟨compare_equal_zero a b, fun rel => compareWith_eq_stands rel a b, ?_, stands_lt_iff,
    ?_, ?_, ?_, fun ha hb => ⟨stands_exactly_one ha hb, compare_equal_neg ha hb⟩⟩
  · intro x y hfirst hnan
    have horder : a.order? b = none := order?_eq_none_iff.mpr ⟨x, y, hfirst, hnan⟩
    exact ⟨horder, stands_of_order?_eq_none horder⟩
  · rw [Bool.eq_iff_iff, stands_lt_iff, stands_gt_iff]
  · rw [← Bool.not_eq_true, stands_lt_iff]
    exact Less.irrefl
  · rw [stands_lt_iff, stands_lt_iff, stands_lt_iff]
    exact Less.trans

/-- Infinities are equal channels, the zeros are as well, and the third channels decide;
where the second channel of one color is a NaN, nothing but inequality holds. -/
theorem comparisons_agree_infinite :
    let a : Color .normal .half := ⟨⟨.signedZero true, .infinity false, .zero⟩⟩
    let b : Color .normal .half := ⟨⟨.zero, .infinity false, .one⟩⟩
    let c : Color .normal .half := ⟨⟨.zero, .infinity false, .infinity false⟩⟩
    let d : Color .normal .half := ⟨⟨.zero, .nan, .one⟩⟩
    a.IsNumeric ∧ b.IsNumeric ∧ stands .lt a b = true ∧ stands .lt b c = true ∧
      stands .lt a c = true ∧ (a.compare b).equal (b.compare a).neg = true ∧
      b.firstUnequal? d = some (.infinity false, .nan) ∧
      ∀ rel, stands rel b d = decide (rel = .ne) := by
  intro a b c d
  have ha : a.IsNumeric := by decide +kernel
  have hb : b.IsNumeric := by decide +kernel
  have hab : stands .lt a b = true := by decide +kernel
  have hbc : stands .lt b c = true := by decide +kernel
  have hbd : b.firstUnequal? d = some (.infinity false, .nan) := by decide +kernel
  obtain ⟨-, -, -, -, -, -, htrans, hnumeric⟩ := comparisons_agree a b c
  obtain ⟨-, -, hnan, -⟩ := comparisons_agree b d d
  exact ⟨ha, hb, hab, hbc, htrans hab hbc, (hnumeric ha hb).2, hbd, (hnan _ _ hbd (.inr rfl)).2⟩

end Color

end ColorAlgebra
