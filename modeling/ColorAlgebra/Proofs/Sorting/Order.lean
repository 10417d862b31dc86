import ColorAlgebra.Color.Order
import ColorAlgebra.Proofs.Binary.Widening

/-!
# The order of colors

Numbers are ordered by size, the two zeros are alike, and the NaNs are alike and behind
every number, infinity included. Colors are ordered by their first channels, then by the
second, then by the third. Unlike the comparison of two colors this order is total: of
two colors one precedes the other or they are alike.
-/

namespace ColorAlgebra

/-! ## Numbers -/

namespace Binary

variable {f : Format}

/-- The first is the smaller number, or a number where the second is a NaN. -/
def Precedes (x y : Binary f) : Prop := x.less y = true ∨ x.isNaN = false ∧ y.isNaN = true

/-- The two are equal numbers, or both are NaNs. -/
def Alike (x y : Binary f) : Prop := x.equal y = true ∨ x.isNaN = true ∧ y.isNaN = true

instance (x y : Binary f) : Decidable (x.Precedes y) := inferInstanceAs (Decidable (_ ∨ _))

instance (x y : Binary f) : Decidable (x.Alike y) := inferInstanceAs (Decidable (_ ∨ _))

theorem isNaN_eq_true_iff {x : Binary f} : x.isNaN = true ↔ x.rank = none := by
  cases x <;> simp [isNaN, rank]

theorem isNaN_eq_false_iff {x : Binary f} : x.isNaN = false ↔ ∃ a, x.rank = some a := by
  cases x <;> simp [isNaN, rank]

theorem rank_zero : (zero : Binary f).rank = some 0 := rfl

/-- Widening keeps the place on the line of units. -/
theorem rank_widen (x : Binary f) : (x.convert .double).rank = x.rank := by
  cases x with
  | nan => rfl
  | infinity negative => rfl
  | finite negative units h =>
    rw [convert_finite h.widen]
    rfl

theorem isNaN_widen (x : Binary f) : (x.convert .double).isNaN = x.isNaN := by
  rw [Bool.eq_iff_iff, isNaN_eq_true_iff, isNaN_eq_true_iff, rank_widen]

/-! ## Signs of differences -/

theorem signed_not (negative : Bool) (n : Nat) : signed (!negative) n = -signed negative n := by
  cases negative <;> simp [signed]

theorem rank_neg (x : Binary f) : x.neg.rank = x.rank.map fun a => -a := by
  cases x with
  | nan => rfl
  | infinity negative => exact congrArg some (signed_not negative _)
  | finite negative units h => exact congrArg some (signed_not negative units)

/-- A double is never rounded to zero unless it is zero: the unit is the least double. -/
theorem rank_ofUnits {n : Nat} (hn : 0 < n) (negative : Bool) :
    ∃ m, 0 < m ∧ (ofUnits negative n : Double).rank = some (signed negative m) := by
  have hunit : Format.double.OnGrid 1 := Format.onGrid_two_pow (k := 0) (Nat.le_refl 0)
  have hle : 1 ≤ Format.double.nearest n 1 := Format.le_nearest Nat.one_pos hunit (by
    simpa using Nat.succ_le_of_lt hn)
  unfold ofUnits round
  split
  · exact ⟨_, hle, rfl⟩
  · exact ⟨_, Nat.two_pow_pos _, rfl⟩

/-- The greater magnitude decides the sign of a sum that is not zero. -/
theorem signed_add_lt {m n : Nat} (h : n ≤ m) {s t : Bool}
    (hne : signed s m + signed t n ≠ 0) : decide (signed s m + signed t n < 0) = s := by
  cases s <;> cases t <;> simp [signed] at hne ⊢ <;> omega

theorem eq_of_signed_add_ne {n : Nat} {s t : Bool} (hne : signed s n + signed t n ≠ 0) : s = t := by
  cases s <;> cases t <;> simp [signed] at hne ⊢

/-- A sum that is not zero keeps its sign in rounding. -/
theorem rank_add {x y : Double} {a b : Int} (hx : x.rank = some a) (hy : y.rank = some b)
    (hne : a + b ≠ 0) :
    ∃ m, 0 < m ∧ (x.add y).rank = some (signed (decide (a + b < 0)) m) := by
  cases x with
  | nan => cases hx
  | infinity s =>
    obtain rfl := Option.some.inj hx
    cases y with
    | nan => cases hy
    | infinity t =>
      obtain rfl := Option.some.inj hy
      rw [signed_add_lt (Nat.le_refl _) hne]
      dsimp only [add]
      rw [if_pos (eq_of_signed_add_ne hne)]
      exact ⟨_, Nat.two_pow_pos _, rfl⟩
    | finite t n hn =>
      obtain rfl := Option.some.inj hy
      rw [signed_add_lt (Nat.le_of_lt hn.1) hne]
      exact ⟨_, Nat.two_pow_pos _, rfl⟩
  | finite s n hn =>
    obtain rfl := Option.some.inj hx
    cases y with
    | nan => cases hy
    | infinity t =>
      obtain rfl := Option.some.inj hy
      rw [Int.add_comm] at hne ⊢
      rw [signed_add_lt (Nat.le_of_lt hn.1) hne]
      exact ⟨_, Nat.two_pow_pos _, rfl⟩
    | finite t m hm =>
      obtain rfl := Option.some.inj hy
      dsimp only [add]
      rw [if_neg hne]
      exact rank_ofUnits (Int.natAbs_pos.mpr hne) _

theorem rank_sub {x y : Double} {a b : Int} (hx : x.rank = some a) (hy : y.rank = some b)
    (hne : a ≠ b) : ∃ m, 0 < m ∧ (x.sub y).rank = some (signed (decide (a < b)) m) := by
  have hneg : y.neg.rank = some (-b) := by rw [rank_neg, hy, Option.map_some]
  obtain ⟨m, hm, hrank⟩ := rank_add hx hneg (by omega)
  refine ⟨m, hm, hrank.trans ?_⟩
  rw [decide_eq_decide.mpr (show a + -b < 0 ↔ a < b by omega)]

end Binary

/-! ## Colors -/

namespace Color

variable {r : Range} {t : Format}

/-- The first channels decide, or if they are alike the second, or if these are alike as
well the third. -/
def Precedes (a b : Color r t) : Prop :=
  a.channels.first.Precedes b.channels.first ∨
    a.channels.first.Alike b.channels.first ∧
      (a.channels.second.Precedes b.channels.second ∨
        a.channels.second.Alike b.channels.second ∧
          a.channels.third.Precedes b.channels.third)

/-- All channels are alike. -/
def Alike (a b : Color r t) : Prop :=
  a.channels.first.Alike b.channels.first ∧ a.channels.second.Alike b.channels.second ∧
    a.channels.third.Alike b.channels.third

/-- No channel is a NaN. -/
def IsNumeric (c : Color r t) : Prop := ∀ x ∈ c.channels.toList, x.isNaN = false

instance (a b : Color r t) : Decidable (a.Precedes b) := inferInstanceAs (Decidable (_ ∨ _))

instance (a b : Color r t) : Decidable (a.Alike b) := inferInstanceAs (Decidable (_ ∧ _))

instance (c : Color r t) : Decidable c.IsNumeric := inferInstanceAs (Decidable (∀ x ∈ _, _))

theorem channelOrder_eq_lt_iff {x y : Binary t} : channelOrder x y = .lt ↔ x.Precedes y := by
  unfold channelOrder Binary.Precedes Binary.less Binary.related
  cases hx : x.rank <;> cases hy : y.rank <;>
    simp [Binary.isNaN_eq_true_iff, Binary.isNaN_eq_false_iff, hx, hy, Int.compare_eq_lt]

theorem channelOrder_eq_eq_iff {x y : Binary t} : channelOrder x y = .eq ↔ x.Alike y := by
  unfold channelOrder Binary.Alike Binary.equal Binary.related
  cases hx : x.rank <;> cases hy : y.rank <;>
    simp [Binary.isNaN_eq_true_iff, hx, hy]

theorem sortOrder_eq_lt_iff {a b : Color r t} : a.sortOrder b = .lt ↔ a.Precedes b := by
  unfold sortOrder Precedes
  rw [Ordering.then_eq_lt, Ordering.then_eq_lt, Ordering.then_eq_eq]
  simp only [channelOrder_eq_lt_iff, channelOrder_eq_eq_iff]
  tauto

theorem sortOrder_eq_eq_iff {a b : Color r t} : a.sortOrder b = .eq ↔ a.Alike b := by
  unfold sortOrder Alike
  rw [Ordering.then_eq_eq, Ordering.then_eq_eq, and_assoc]
  simp only [channelOrder_eq_eq_iff]

/-! ## Totality -/

theorem channelOrder_swap (x y : Binary t) : channelOrder x y = (channelOrder y x).swap := by
  cases hx : x.rank <;> cases hy : y.rank <;> simp only [channelOrder, hx, hy]
  · rfl
  · rfl
  · rfl
  · exact Std.OrientedOrd.eq_swap

theorem channelOrder_isLE_trans {x y z : Binary t} (hxy : (channelOrder x y).isLE = true)
    (hyz : (channelOrder y z).isLE = true) : (channelOrder x z).isLE = true := by
  cases hx : x.rank <;> cases hy : y.rank <;> cases hz : z.rank <;>
    simp only [channelOrder, hx, hy, hz] at hxy hyz ⊢
  all_goals first | exact Std.TransOrd.isLE_trans hxy hyz | contradiction | rfl

/-- Colors by one of their channels. -/
instance (channel : Color r t → Binary t) :
    Std.TransCmp fun a b => channelOrder (channel a) (channel b) where
  eq_swap {a b} := channelOrder_swap (channel a) (channel b)
  isLE_trans {_ _ _} hab hbc := channelOrder_isLE_trans hab hbc

instance : Std.TransCmp (sortOrder (r := r) (t := t)) :=
  inferInstanceAs (Std.TransCmp (compareLex
    (compareLex (fun a b : Color r t => channelOrder a.channels.first b.channels.first)
      fun a b => channelOrder a.channels.second b.channels.second)
    fun a b => channelOrder a.channels.third b.channels.third))

theorem sortOrder_swap (a b : Color r t) : a.sortOrder b = (b.sortOrder a).swap :=
  Std.OrientedCmp.eq_swap

theorem sortOrder_isLE_trans {a b c : Color r t} (hab : (a.sortOrder b).isLE = true)
    (hbc : (b.sortOrder c).isLE = true) : (a.sortOrder c).isLE = true :=
  Std.TransCmp.isLE_trans hab hbc

theorem sortOrder_isLE_iff {a b : Color r t} : (a.sortOrder b).isLE = true ↔ ¬ b.Precedes a := by
  rw [← sortOrder_eq_lt_iff, sortOrder_swap b a]
  cases a.sortOrder b <;> decide

theorem alike_of_not_precedes {a b : Color r t} (hab : ¬ a.Precedes b) (hba : ¬ b.Precedes a) :
    a.Alike b := by
  rw [← sortOrder_eq_lt_iff] at hab hba
  rw [sortOrder_swap b a] at hba
  rw [← sortOrder_eq_eq_iff]
  cases h : a.sortOrder b with
  | lt => exact absurd h hab
  | eq => rfl
  | gt => exact absurd (congrArg Ordering.swap h) hba

theorem Alike.symm {a b : Color r t} (h : a.Alike b) : b.Alike a := by
  rw [← sortOrder_eq_eq_iff] at h ⊢
  rw [sortOrder_swap b a, h]
  rfl

theorem sortOrder_isLE_total (a b : Color r t) :
    ((a.sortOrder b).isLE || (b.sortOrder a).isLE) = true := by
  rw [sortOrder_swap b a]
  cases a.sortOrder b <;> rfl

/-! ## Comparing -/

/-- The order of the first pair that is not alike. -/
def firstOrder (pairs : List (Double × Double)) : Ordering :=
  pairs.foldr (fun (x, y) rest => (channelOrder x y).then rest) .eq

/-- The difference of the first pair that is not equal, or zero. -/
def firstDifference (pairs : List (Double × Double)) : Double :=
  match pairs.find? fun (x, y) => !x.equal y with
  | some (x, y) => x.sub y
  | none => Binary.zero

theorem firstOrder_cons (x y : Double) (rest : List (Double × Double)) :
    firstOrder ((x, y) :: rest) = (channelOrder x y).then (firstOrder rest) := rfl

theorem firstDifference_cons (x y : Double) (rest : List (Double × Double)) :
    firstDifference ((x, y) :: rest) =
      if x.equal y = true then firstDifference rest else x.sub y := by
  unfold firstDifference
  rw [List.find?_cons]
  dsimp only
  cases x.equal y <;> rfl

theorem channelOrder_widen (x y : Binary t) :
    channelOrder (x.convert .double) (y.convert .double) = channelOrder x y := by
  unfold channelOrder
  rw [Binary.rank_widen, Binary.rank_widen]

/-- Sorting may look at the widened channels as well. -/
theorem sortOrder_eq_firstOrder (a b : Color r t) :
    a.sortOrder b = firstOrder (a.toDoubles.toList.zip b.toDoubles.toList) := by
  simp only [Triple.toList, toDoubles, Triple.map, List.zip_cons_cons, List.zip_nil_right,
    firstOrder_cons, channelOrder_widen, sortOrder]
  rw [Ordering.then_assoc]
  simp [firstOrder]

/-- Two colors stand as their comparison stands to zero. -/
theorem order?_eq_rank (a b : Color r t) :
    a.order? b = (a.compare b).rank.map fun d => Ord.compare d 0 := by
  unfold order?
  generalize a.compare b = c
  dsimp only
  cases hc : c.rank with
  | none => simp [Binary.less, Binary.equal, Binary.related, hc]
  | some d =>
    simp only [Binary.less, Binary.equal, Binary.related, hc, Binary.rank_zero,
      decide_eq_true_eq, Option.map_some]
    rcases Int.lt_trichotomy d 0 with hlt | rfl | hgt
    · rw [if_pos hlt, Int.compare_eq_lt.mpr hlt]
    · rfl
    · rw [if_neg (by omega), if_pos hgt, Int.compare_eq_gt.mpr hgt]

theorem compare_signed {a b : Int} (hne : a ≠ b) {m : Nat} (hm : 0 < m) :
    Ord.compare (signed (decide (a < b)) m) 0 = Ord.compare a b := by
  rcases Int.lt_or_gt_of_ne hne with hlt | hgt
  · rw [decide_eq_true hlt, Int.compare_eq_lt.mpr hlt, Int.compare_eq_lt]
    simpa [signed] using hm
  · rw [decide_eq_false (by omega), Int.compare_eq_gt.mpr hgt, Int.compare_eq_gt]
    simpa [signed] using hm

/-- The sign of the first difference is the order of its pair, and the pairs before it
are alike. -/
theorem rank_firstDifference {pairs : List (Double × Double)}
    (h : ∀ pair ∈ pairs, pair.1.isNaN = false ∧ pair.2.isNaN = false) :
    (firstDifference pairs).rank.map (fun d => Ord.compare d 0) = some (firstOrder pairs) := by
  induction pairs with
  | nil => rfl
  | cons pair rest ih =>
    obtain ⟨x, y⟩ := pair
    obtain ⟨⟨hx, hy⟩, hrest⟩ := List.forall_mem_cons.mp h
    obtain ⟨a, ha⟩ := Binary.isNaN_eq_false_iff.mp hx
    obtain ⟨b, hb⟩ := Binary.isNaN_eq_false_iff.mp hy
    have horder : channelOrder x y = Ord.compare a b := by simp only [channelOrder, ha, hb]
    have hequal : x.equal y = decide (a = b) := by
      simp only [Binary.equal, Binary.related, ha, hb]
    rw [firstDifference_cons, firstOrder_cons, horder, hequal]
    by_cases heq : a = b
    · rw [if_pos (decide_eq_true heq), ih hrest, Int.compare_eq_eq.mpr heq]
      rfl
    · obtain ⟨m, hm, hrank⟩ := Binary.rank_sub ha hb heq
      rw [if_neg (by simpa using heq), hrank, Option.map_some, compare_signed heq hm]
      rcases Int.lt_or_gt_of_ne heq with hlt | hgt
      · rw [Int.compare_eq_lt.mpr hlt]
        rfl
      · rw [Int.compare_eq_gt.mpr hgt]
        rfl

/-- Colors without a NaN compare as they are sorted. -/
theorem order?_eq_sortOrder {a b : Color r t} (ha : a.IsNumeric) (hb : b.IsNumeric) :
    a.order? b = some (a.sortOrder b) := by
  rw [order?_eq_rank, sortOrder_eq_firstOrder]
  refine rank_firstDifference (Triple.forall_mem_zip.mpr ?_)
  obtain ⟨ha₁, ha₂, ha₃⟩ := Triple.forall_mem_toList.mp ha
  obtain ⟨hb₁, hb₂, hb₃⟩ := Triple.forall_mem_toList.mp hb
  simp only [toDoubles, Triple.map, Binary.isNaN_widen]
  exact ⟨⟨ha₁, hb₁⟩, ⟨ha₂, hb₂⟩, ⟨ha₃, hb₃⟩⟩

/-- A color that does not stand behind another has no positive comparison with it. -/
theorem compare_atMost_zero {a b : Color r t} (ha : a.IsNumeric) (hb : b.IsNumeric)
    (h : ¬ b.Precedes a) : (a.compare b).atMost .zero = true := by
  have horder := order?_eq_sortOrder ha hb
  rw [order?_eq_rank, Option.map_eq_some_iff] at horder
  obtain ⟨d, hd, hcompare⟩ := horder
  rw [← sortOrder_isLE_iff, ← hcompare, Std.isLE_compare] at h
  simpa [Binary.atMost, Binary.related, hd, Binary.rank_zero] using h

end Color

end ColorAlgebra
