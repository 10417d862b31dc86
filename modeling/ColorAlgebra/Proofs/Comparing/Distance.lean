import ColorAlgebra.Proofs.Binary.Ordered
import ColorAlgebra.Proofs.Combining.Channels

/-!
# The distance of two colors

The distance is the root of a sum of squares. A square has no sign, so that colors that change
sides have the same distance, and neither the sum nor its root is negative. Numbers without a sign
do not cancel either: the sum is a NaN only if one of the squares is.

Comparing takes channels to be equal before it subtracts them, and the distance subtracts them in
any case. This is no difference for finite channels, the two zeros included. Equal infinities have
no difference: where two colors share one, their distance is a NaN although they may be equal.
-/

namespace ColorAlgebra

namespace Binary

variable {f : Format} {x y : Binary f}

/-! ## Numbers without a sign -/

theorem isNegative_mul_self (x : Binary f) : (x.mul x).isNegative = false := by
  cases x with
  | nan => rfl
  | infinity s => exact Bool.xor_self s
  | finite s n hn =>
    rw [← Bool.xor_self s]
    exact isNegative_round ..

theorem isNegative_add (hx : x.isNegative = false) (hy : y.isNegative = false) :
    (x.add y).isNegative = false := by
  cases x with
  | nan => rfl
  | infinity s =>
    obtain rfl : s = false := hx
    cases y with
    | nan => rfl
    | infinity t =>
      obtain rfl : t = false := hy
      rfl
    | finite t n hn => rfl
  | finite s m hm =>
    obtain rfl : s = false := hx
    cases y with
    | nan => rfl
    | infinity t => exact hy
    | finite t n hn =>
      obtain rfl : t = false := hy
      have hsum : ¬signed false m + signed false n < 0 :=
        Int.not_lt.mpr (Int.add_nonneg (Int.natCast_nonneg m) (Int.natCast_nonneg n))
      dsimp only [add]
      split
      · rfl
      · rw [isNegative_ofUnits]
        exact decide_eq_false hsum

theorem isNegative_sqrt (hx : x.isNegative = false) : x.sqrt.isNegative = false := by
  cases x with
  | nan => rfl
  | infinity s =>
    obtain rfl : s = false := hx
    rfl
  | finite s n hn =>
    obtain rfl : s = false := hx
    dsimp only [sqrt]
    split
    · rfl
    · rw [if_neg Bool.false_ne_true]
      split <;> exact isNegative_round ..

/-! ## Where a NaN comes from -/

theorem round_ne_nan (s : Bool) (num den : Nat) : (round s num den : Binary f) ≠ nan := by
  unfold round
  split <;> simp

/-- Only infinities of unlike signs have no sum. -/
theorem add_eq_nan_cases (h : x.add y = nan) :
    x = nan ∨ y = nan ∨ ∃ s, x = infinity s ∧ y = infinity (!s) := by
  cases x with
  | nan => exact .inl rfl
  | infinity s =>
    cases y with
    | nan => exact .inr (.inl rfl)
    | infinity t =>
      by_cases hst : s = t
      · rw [add, if_pos hst] at h
        cases h
      · exact .inr (.inr ⟨s, rfl, congrArg infinity (Bool.eq_not_iff.mpr (Ne.symm hst))⟩)
    | finite => cases h
  | finite s m hm =>
    cases y with
    | nan => exact .inr (.inl rfl)
    | infinity => cases h
    | finite t n hn =>
      dsimp only [add] at h
      split at h
      · cases h
      · exact absurd h (round_ne_nan _ _ _)

theorem add_nan (x : Binary f) : x.add nan = nan := by
  cases x <;> rfl

/-- A sum of numbers without a sign is a NaN only if one of them is. -/
theorem add_eq_nan_iff (hx : x.isNegative = false) (hy : y.isNegative = false) :
    x.add y = nan ↔ x = nan ∨ y = nan := by
  constructor
  · intro h
    rcases add_eq_nan_cases h with hnan | hnan | ⟨s, rfl, rfl⟩
    · exact .inl hnan
    · exact .inr hnan
    · obtain rfl : s = false := hx
      cases hy
  · rintro (rfl | rfl)
    · rfl
    · exact add_nan x

theorem neg_eq_nan_iff : x.neg = nan ↔ x = nan := by
  cases x <;> simp [neg]

theorem neg_eq_infinity_iff {s : Bool} : x.neg = infinity (!s) ↔ x = infinity s := by
  cases x <;> simp [neg]

/-- A difference is a NaN only if one of the numbers is, or both are the same infinity. -/
theorem sub_eq_nan_iff :
    x.sub y = nan ↔ x = nan ∨ y = nan ∨ ∃ s, x = infinity s ∧ y = infinity s := by
  constructor
  · intro h
    rcases add_eq_nan_cases h with hnan | hnan | ⟨s, hx, hy⟩
    · exact .inl hnan
    · exact .inr (.inl (neg_eq_nan_iff.mp hnan))
    · exact .inr (.inr ⟨s, hx, neg_eq_infinity_iff.mp hy⟩)
  · rintro (rfl | rfl | ⟨s, rfl, rfl⟩)
    · rfl
    · exact add_nan x
    · cases s <;> rfl

theorem mul_self_eq_nan_iff : x.mul x = nan ↔ x = nan := by
  cases x with
  | nan => simp [mul]
  | infinity s => simp [mul]
  | finite s n hn => simp [mul, round_ne_nan]

theorem sqrt_eq_nan_iff (hx : x.isNegative = false) : x.sqrt = nan ↔ x = nan := by
  cases x with
  | nan => simp [sqrt]
  | infinity s =>
    obtain rfl : s = false := hx
    simp [sqrt]
  | finite s n hn =>
    obtain rfl : s = false := hx
    refine iff_of_false ?_ (by simp)
    dsimp only [sqrt]
    split
    · simp
    · rw [if_neg Bool.false_ne_true]
      split <;> exact round_ne_nan _ _ _

theorem widen_eq_nan_iff : x.convert .double = nan ↔ x = nan := by
  cases x with
  | nan => simp [convert]
  | infinity => simp [convert]
  | finite s n hn => simp [convert_finite hn.widen]

theorem widen_eq_infinity_iff {s : Bool} : x.convert .double = infinity s ↔ x = infinity s := by
  cases x with
  | nan => simp [convert]
  | infinity => simp [convert]
  | finite t n hn => simp [convert_finite hn.widen]

/-! ## Products and differences -/

theorem neg_mul_neg (x y : Binary f) : x.neg.mul y.neg = x.mul y := by
  cases x <;> cases y <;> simp [neg, mul]

/-- Equal finite numbers differ by a zero, which is negative if `0` is taken from `-0`. -/
theorem exists_sub_eq_signedZero (hx : x.isFinite = true) (h : x.equal y = true) :
    ∃ s, x.sub y = signedZero s := by
  rcases equal_cases h with ⟨s, rfl, -⟩ | ⟨-, hy, -⟩
  · cases hx
  · obtain ⟨s, m, hm, rfl⟩ := exists_finite hx
    obtain ⟨t, n, hn, rfl⟩ := exists_finite hy
    have hsame : signed s m = signed t n := of_decide_eq_true h
    have hsum : signed s m + signed (!t) n = 0 := by
      rw [signed_not, hsame, Int.add_right_neg]
    exact ⟨s && !t, if_pos hsum⟩

theorem mul_self_signedZero (s : Bool) : (signedZero s : Binary f).mul (signedZero s) = zero := by
  have hzero := round_mul_unitsPerOne false f.representable_zero
  rw [Nat.zero_mul] at hzero
  show round (s ^^ s) (0 * 0) unitsPerOne = zero
  rw [Bool.xor_self, Nat.zero_mul]
  exact hzero

end Binary

namespace Color

open Binary

variable {r : Range} {t : Format} {a b : Color r t} {i : Fin 3}

/-! ## What a channel adds -/

theorem square_sub_of_equal {x y : Double} (hx : x.isFinite = true) (h : x.equal y = true) :
    square (x.sub y) = .zero := by
  obtain ⟨s, hs⟩ := exists_sub_eq_signedZero hx h
  rw [hs]
  exact mul_self_signedZero s

/-- The square of the difference the other way around is the same. -/
theorem square_sub_swap (x y : Double) : square (y.sub x) = square (x.sub y) := by
  cases h : x.equal y with
  | false =>
    rw [sub_swap h]
    exact neg_mul_neg ..
  | true =>
    rcases equal_cases h with ⟨s, rfl, rfl⟩ | ⟨hx, hy, -⟩
    · rfl
    · rw [square_sub_of_equal hx h, square_sub_of_equal hy ((Binary.equal_comm y x).trans h)]

/-- What a channel adds to the distance. -/
def squaredDifference (a b : Color r t) (i : Fin 3) : Double :=
  square (((a.channel i).convert .double).sub ((b.channel i).convert .double))

theorem squaredDifference_swap (a b : Color r t) (i : Fin 3) :
    b.squaredDifference a i = a.squaredDifference b i :=
  square_sub_swap ..

theorem isNegative_squaredDifference (a b : Color r t) (i : Fin 3) :
    (a.squaredDifference b i).isNegative = false :=
  isNegative_mul_self _

theorem squaredDifference_of_equal (hi : (a.channel i).isFinite = true)
    (h : (a.channel i).equal (b.channel i) = true) : a.squaredDifference b i = .zero :=
  square_sub_of_equal ((isFinite_widen _).trans hi) ((equal_widen _ _).trans h)

/-- The channels have no squared difference if one is a NaN, or both are the same infinity. -/
theorem squaredDifference_eq_nan_iff :
    a.squaredDifference b i = nan ↔
      a.channel i = nan ∨ b.channel i = nan ∨
        ∃ s, a.channel i = infinity s ∧ b.channel i = infinity s := by
  unfold squaredDifference square
  rw [mul_self_eq_nan_iff, sub_eq_nan_iff]
  simp only [widen_eq_nan_iff, widen_eq_infinity_iff]

/-! ## Sums and roots -/

theorem distance2_eq_add (a b : Color r t) :
    a.distance2 b =
      ((a.squaredDifference b 0).add (a.squaredDifference b 1)).add (a.squaredDifference b 2) :=
  rfl

theorem distance2_swap (a b : Color r t) : b.distance2 a = a.distance2 b := by
  simp only [distance2_eq_add, squaredDifference_swap a b]

theorem isNegative_distance2 (a b : Color r t) : (a.distance2 b).isNegative = false := by
  rw [distance2_eq_add]
  exact isNegative_add
    (isNegative_add (isNegative_squaredDifference a b 0) (isNegative_squaredDifference a b 1))
    (isNegative_squaredDifference a b 2)

theorem distance2_eq_nan_iff : a.distance2 b = nan ↔ ∃ i, a.squaredDifference b i = nan := by
  have hpart := isNegative_squaredDifference a b
  rw [distance2_eq_add, add_eq_nan_iff (isNegative_add (hpart 0) (hpart 1)) (hpart 2),
    add_eq_nan_iff (hpart 0) (hpart 1), Fin.exists_fin_succ, Fin.exists_fin_two, or_assoc]
  rfl

theorem channel_ne_nan (ha : a.IsNumeric) (i : Fin 3) : a.channel i ≠ nan := by
  intro hnan
  have hchannel := isNumeric_iff_channel.mp ha i
  rw [hnan] at hchannel
  cases hchannel

/-- Colors without a NaN have no distance only where they share an infinity. -/
theorem distance2_eq_nan_iff_infinity (ha : a.IsNumeric) (hb : b.IsNumeric) :
    a.distance2 b = nan ↔ ∃ i s, a.channel i = infinity s ∧ b.channel i = infinity s := by
  rw [distance2_eq_nan_iff]
  refine exists_congr fun i => ?_
  rw [squaredDifference_eq_nan_iff, or_iff_right (channel_ne_nan ha i),
    or_iff_right (channel_ne_nan hb i)]

theorem distance_swap (a b : Color r t) : b.distance a = a.distance b :=
  congrArg sqrt (distance2_swap a b)

theorem isNegative_distance (a b : Color r t) : (a.distance b).isNegative = false :=
  isNegative_sqrt (isNegative_distance2 a b)

theorem distance_eq_nan_iff : a.distance b = nan ↔ a.distance2 b = nan :=
  sqrt_eq_nan_iff (isNegative_distance2 a b)

/-! ## Equal colors -/

section
variable (h : a.equal b = true)
include h

theorem compare_of_equal : a.compare b = .zero := by
  rcases compare_cases a b with ⟨-, hzero⟩ | ⟨x, y, hfirst, -⟩
  · exact hzero
  · rw [equal_iff_firstUnequal?.mp h] at hfirst
    cases hfirst

/-- Equal colors with finite channels are at no distance. -/
theorem distance2_of_equal (hfinite : ∀ i, (a.channel i).isFinite = true) :
    a.distance2 b = .zero := by
  have hzero : ∀ i, a.squaredDifference b i = .zero := fun i =>
    squaredDifference_of_equal (hfinite i) (equal_iff_channel.mp h i)
  rw [distance2_eq_add, hzero, hzero, hzero]
  rfl

/-- Equal colors share the infinities that they have. -/
theorem distance2_of_equal_infinity (hi : (a.channel i).isFinite = false) :
    a.distance2 b = nan := by
  rcases equal_cases (equal_iff_channel.mp h i) with hshared | ⟨hfinite, -⟩
  · exact distance2_eq_nan_iff.mpr ⟨i, squaredDifference_eq_nan_iff.mpr (.inr (.inr hshared))⟩
  · rw [hfinite] at hi
    cases hi

theorem distance2_of_equal_eq_zero_iff :
    a.distance2 b = .zero ↔ ∀ i, (a.channel i).isFinite = true := by
  constructor
  · intro hzero i
    by_contra hinfinite
    rw [distance2_of_equal_infinity h (Bool.eq_false_of_not_eq_true hinfinite)] at hzero
    cases hzero
  · exact distance2_of_equal h

end

/-! ## Laws of the distance -/

/-- The distance is the same both ways and never negative, also as a square. Colors without a NaN
have one unless they share an infinite channel. Equal colors compare as zero, and they are at the
distance zero if their channels are finite, and in no other case: if some channel is infinite, it
is a NaN. -/
theorem distance_laws (a b : Color r t) :
    a.distance2 b = b.distance2 a ∧ a.distance b = b.distance a ∧
    (a.distance2 b).isNegative = false ∧ (a.distance b).isNegative = false ∧
    (a.distance b = nan ↔ a.distance2 b = nan) ∧
    (a.IsNumeric → b.IsNumeric →
      (a.distance2 b = nan ↔ ∃ i s, a.channel i = infinity s ∧ b.channel i = infinity s)) ∧
    (a.equal b = true →
      a.compare b = .zero ∧
      (a.distance2 b = .zero ∧ a.distance b = .zero ↔ ∀ i, (a.channel i).isFinite = true) ∧
      ((∃ i, (a.channel i).isFinite = false) → a.distance2 b = nan ∧ a.distance b = nan)) := by
  refine ⟨distance2_swap b a, distance_swap b a, isNegative_distance2 a b, isNegative_distance a b,
    distance_eq_nan_iff, distance2_eq_nan_iff_infinity, fun h => ⟨compare_of_equal h, ?_, ?_⟩⟩
  · rw [← distance2_of_equal_eq_zero_iff h]
    exact and_iff_left_of_imp fun hzero => congrArg sqrt hzero
  · rintro ⟨i, hi⟩
    have hnan := distance2_of_equal_infinity h hi
    exact ⟨hnan, distance_eq_nan_iff.mpr hnan⟩

/-- A color with an infinite channel equals itself and compares with itself as zero, but it has no
distance from itself. Colors of unlike zeros are at the distance zero. -/
theorem not_distance_of_infinity :
    let a : Color .normal .double := ⟨⟨.infinity false, .zero, .one⟩⟩
    let b : Color .normal .double := ⟨⟨.signedZero true, .zero, .one⟩⟩
    let c : Color .normal .double := ⟨⟨.zero, .signedZero true, .one⟩⟩
    a.IsNumeric ∧ a.equal a = true ∧ a.compare a = .zero ∧ a.distance2 a = nan ∧
      a.distance a = nan ∧ b.equal c = true ∧ b.distance2 c = .zero ∧ b.distance c = .zero := by
  intro a b c
  have ha : a.IsNumeric := by decide +kernel
  have hself : a.equal a = true := by decide +kernel
  have hzeros : b.equal c = true := by decide +kernel
  obtain ⟨-, -, -, -, -, -, hsame⟩ := distance_laws a a
  obtain ⟨-, -, -, -, -, -, hequal⟩ := distance_laws b c
  obtain ⟨hcompare, -, hnan⟩ := hsame hself
  have hlost := hnan ⟨0, rfl⟩
  have hfinite : ∀ i, (b.channel i).isFinite = true := by decide +kernel
  have hmet := (hequal hzeros).2.1.mpr hfinite
  exact ⟨ha, hself, hcompare, hlost.1, hlost.2, hzeros, hmet.1, hmet.2⟩

end Color

end ColorAlgebra
