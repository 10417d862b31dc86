import ColorAlgebra.Proofs.Binary.Monotone

namespace ColorAlgebra.Binary

variable {f g : Format} {s : Bool} {x y z : Binary f} {p q : ℚ}

/-! ## Directions -/

/-- The order of numbers, or the opposite one if `down` is set. -/
def ordered (down : Bool) (x y : Binary f) : Bool := if down then y.atMost x else x.atMost y

theorem ordered_false (x y : Binary f) : x.ordered false y = x.atMost y := rfl

theorem ordered_true (x y : Binary f) : x.ordered true y = y.atMost x := rfl

theorem ordered_iff (hx : x.isFinite = true) (hy : y.isFinite = true) :
    x.ordered s y = true ↔ sign s * x.value ≤ sign s * y.value := by
  cases s with
  | false =>
    rw [sign_false_mul, sign_false_mul]
    exact atMost_iff_value hx hy
  | true =>
    rw [sign_true_mul, sign_true_mul, neg_le_neg_iff]
    exact atMost_iff_value hy hx

theorem ordered_iff_rank :
    x.ordered s y = true ↔
      ∃ a b, x.rank = some a ∧ y.rank = some b ∧ if s then b ≤ a else a ≤ b := by
  unfold ordered atMost related
  cases s <;> cases x.rank <;> cases y.rank <;> simp

theorem ordered_self (hx : x.isNaN = false) : x.ordered s x = true := by
  obtain ⟨a, ha⟩ := isNaN_eq_false_iff.mp hx
  exact ordered_iff_rank.mpr ⟨a, a, ha, ha, by simp⟩

theorem ordered_trans (hxy : x.ordered s y = true) (hyz : y.ordered s z = true) :
    x.ordered s z = true := by
  obtain ⟨a, b, ha, hb, hab⟩ := ordered_iff_rank.mp hxy
  obtain ⟨b', c, hb', hc, hbc⟩ := ordered_iff_rank.mp hyz
  obtain rfl : b = b' := Option.some.inj (hb.symm.trans hb')
  refine ordered_iff_rank.mpr ⟨a, c, ha, hc, ?_⟩
  cases s with
  | false => exact Int.le_trans hab hbc
  | true => exact Int.le_trans hbc hab

theorem equal_of_ordered (hxy : x.ordered s y = true) (hyx : y.ordered s x = true) :
    x.equal y = true := by
  obtain ⟨a, b, ha, hb, hab⟩ := ordered_iff_rank.mp hxy
  obtain ⟨b', a', hb', ha', hba⟩ := ordered_iff_rank.mp hyx
  obtain rfl : a = a' := Option.some.inj (ha.symm.trans ha')
  obtain rfl : b = b' := Option.some.inj (hb.symm.trans hb')
  have hsame : a = b := by
    cases s with
    | false => exact Int.le_antisymm hab hba
    | true => exact Int.le_antisymm hba hab
  exact equal_iff.mpr ⟨a, ha, hsame ▸ hb⟩

theorem ordered_of_equal (h : x.equal y = true) : x.ordered s y = true := by
  obtain ⟨a, hx, hy⟩ := equal_iff.mp h
  exact ordered_iff_rank.mpr ⟨a, a, hx, hy, by simp⟩

/-- Only numbers and infinities are in the order. -/
theorem isNaN_of_ordered (h : x.ordered s y = true) : x.isNaN = false ∧ y.isNaN = false := by
  obtain ⟨a, b, ha, hb, -⟩ := ordered_iff_rank.mp h
  exact ⟨isNaN_eq_false_iff.mpr ⟨a, ha⟩, isNaN_eq_false_iff.mpr ⟨b, hb⟩⟩

theorem ordered_of_not_less (hx : x.isNaN = false) (hy : y.isNaN = false)
    (h : x.less y = false) : y.ordered false x = true := by
  obtain ⟨a, ha⟩ := isNaN_eq_false_iff.mp hx
  obtain ⟨b, hb⟩ := isNaN_eq_false_iff.mp hy
  unfold less related at h
  rw [ha, hb] at h
  exact ordered_iff_rank.mpr ⟨b, a, hb, ha, Int.not_lt.mp (of_decide_eq_false h)⟩

theorem ordered_of_less (h : x.less y = true) : x.ordered false y = true :=
  atMost_iff.mpr (.inl h)

theorem ordered_neg (x y : Binary f) (s : Bool) : x.neg.ordered (!s) y.neg = x.ordered s y := by
  unfold ordered atMost related
  rw [rank_neg, rank_neg]
  cases s <;> cases x.rank <;> cases y.rank <;> simp

/-! ## Infinities -/

theorem natAbs_signed (s : Bool) (n : Nat) : (signed s n).natAbs = n := by
  cases s <;> simp [signed]

/-- No value stands farther from zero than the infinities. -/
theorem natAbs_rank_le {a : Int} (h : x.rank = some a) : a.natAbs ≤ 2 ^ Format.double.top := by
  cases x with
  | nan => cases h
  | infinity s =>
    obtain rfl := Option.some.inj h
    exact Nat.le_of_eq (natAbs_signed s _)
  | finite s n hn =>
    obtain rfl := Option.some.inj h
    rw [natAbs_signed]
    exact Nat.le_of_lt (Nat.lt_of_lt_of_le hn.1 (Nat.pow_le_pow_right (by decide) f.top_le_double))

/-- An infinity is at the end of its direction. -/
theorem ordered_infinity (hx : x.isNaN = false) (s : Bool) :
    x.ordered s (infinity s) = true := by
  obtain ⟨a, ha⟩ := isNaN_eq_false_iff.mp hx
  have hle := natAbs_rank_le ha
  refine ordered_iff_rank.mpr ⟨a, _, ha, rfl, ?_⟩
  generalize 2 ^ Format.double.top = m at hle
  cases s <;> simp only [signed, if_true, Bool.false_eq_true, if_false] <;> omega

/-- An infinity is at the start of the other direction. -/
theorem infinity_ordered (hx : x.isNaN = false) (s : Bool) :
    (infinity (!s)).ordered s x = true := by
  have h := ordered_infinity hx (!s)
  cases s with
  | false => exact h
  | true => exact h

/-! ## Equality -/

theorem equal_self (h : x.isNaN = false) : x.equal x = true :=
  equal_of_ordered (ordered_self h) (ordered_self (s := false) h)

/-- A finite value does not stand where the infinities do. -/
theorem not_equal_infinity (hx : x.isFinite = true) (s : Bool) : x.equal (infinity s) = false := by
  obtain ⟨t, n, hn, rfl⟩ := exists_finite hx
  have hbelow : n < 2 ^ Format.double.top :=
    Nat.lt_of_lt_of_le hn.1 (Nat.pow_le_pow_right (by decide) f.top_le_double)
  show decide (signed t n = signed s (2 ^ Format.double.top)) = false
  generalize 2 ^ Format.double.top = m at hbelow
  rw [decide_eq_false_iff_not]
  cases s <;> cases t <;> simp only [signed, if_true, Bool.false_eq_true, if_false] <;> omega

/-- Equal values are the same infinity, or the same number. -/
theorem equal_cases (h : x.equal y = true) :
    (∃ s, x = infinity s ∧ y = infinity s) ∨
      x.isFinite = true ∧ y.isFinite = true ∧ x.value = y.value := by
  cases hx : x.isFinite with
  | true =>
    cases hy : y.isFinite with
    | true => exact .inr ⟨rfl, rfl, (equal_iff_value hx hy).mp h⟩
    | false =>
      cases y with
      | nan => cases x <;> cases h
      | infinity s =>
        rw [not_equal_infinity hx] at h
        cases h
      | finite => cases hy
  | false =>
    cases x with
    | nan => cases h
    | infinity s =>
      cases y with
      | nan => cases h
      | infinity t =>
        have hpos := Nat.two_pow_pos Format.double.top
        have hsigned : signed s (2 ^ Format.double.top) = signed t (2 ^ Format.double.top) :=
          of_decide_eq_true h
        refine .inl ⟨s, rfl, ?_⟩
        generalize 2 ^ Format.double.top = m at hpos hsigned
        cases s <;> cases t <;> simp only [signed, if_true, Bool.false_eq_true, if_false] at hsigned
        · rfl
        · omega
        · omega
        · rfl
      | finite t n hn =>
        rw [equal_comm, not_equal_infinity rfl] at h
        cases h
    | finite => cases hx

/-- Only the infinity itself stands behind an infinity. -/
theorem eq_infinity_of_ordered (h : (infinity s).ordered s x = true) : x = infinity s := by
  have hend := ordered_infinity (isNaN_of_ordered h).2 s
  rcases equal_cases (equal_of_ordered hend h) with ⟨t, hx, ht⟩ | ⟨-, hfinite, -⟩
  · rw [hx, ht]
  · cases hfinite

/-- A value between two finite ones is finite. -/
theorem isFinite_of_between (hx : x.isFinite = true) (hz : z.isFinite = true)
    (hxy : x.atMost y = true) (hyz : y.atMost z = true) : y.isFinite = true := by
  rw [← ordered_false] at hyz
  cases y with
  | nan => cases (isNaN_of_ordered hyz).1
  | finite => rfl
  | infinity s =>
    cases s with
    | false =>
      rw [eq_infinity_of_ordered hyz] at hz
      cases hz
    | true =>
      rw [← ordered_true] at hxy
      rw [eq_infinity_of_ordered hxy] at hx
      cases hx

/-! ## Rounding -/

/-- The count at which a rounded magnitude stands. -/
def place (f : Format) (n : Nat) : Nat := if n < 2 ^ f.top then n else 2 ^ Format.double.top

theorem place_mono {m n : Nat} (h : m ≤ n) : place f m ≤ place f n := by
  have htop := Nat.pow_le_pow_right (show 0 < 2 by decide) f.top_le_double
  unfold place
  split <;> split <;> omega

theorem rank_round (s : Bool) (num den : Nat) :
    (round s num den : Binary f).rank = some (signed s (place f (f.nearest num den))) := by
  unfold round place
  split <;> rfl

section
variable {num den num' den' : Nat} (hden : 0 < den) (hden' : 0 < den')
include hden

theorem place_nearest_eq_zero (h : (num / den / unitsPerOne : ℚ) ≤ 0) :
    place f (f.nearest num den) = 0 := by
  rw [div_le_iff₀ Format.cast_unitsPerOne_pos, zero_mul] at h
  have hzero : f.nearest num den ≤ 0 :=
    Format.nearest_le hden f.representable_zero.onGrid (by rwa [Nat.cast_zero])
  unfold place
  rw [Nat.le_zero.mp hzero, if_pos (Nat.two_pow_pos _)]

include hden' in
theorem place_nearest_mono (h : (num / den / unitsPerOne : ℚ) ≤ num' / den' / unitsPerOne) :
    place f (f.nearest num den) ≤ place f (f.nearest num' den') := by
  rw [div_le_div_iff_of_pos_right Format.cast_unitsPerOne_pos] at h
  exact place_mono (Format.nearest_mono hden hden' h)

end

/-- Numbers are rounded in their order, also where they overflow. -/
theorem IsRounding.atMost (hx : x.IsRounding p) (hy : y.IsRounding q) (h : p ≤ q) :
    x.atMost y = true := by
  obtain ⟨s, num, den, hden, rfl, rfl⟩ := hx
  obtain ⟨t, num', den', hden', rfl, rfl⟩ := hy
  have hnonneg : (0 : ℚ) ≤ num / den / unitsPerOne := by positivity
  have hnonneg' : (0 : ℚ) ≤ num' / den' / unitsPerOne := by positivity
  refine ordered_iff_rank (s := false).mpr
    ⟨_, _, rank_round s num den, rank_round t num' den', ?_⟩
  cases s <;> cases t <;>
    simp only [sign_false_mul, sign_true_mul] at h <;>
    simp only [signed, if_true, Bool.false_eq_true, if_false]
  · exact_mod_cast place_nearest_mono hden hden' h
  · -- of unlike signs, only zeros are in this order
    rw [place_nearest_eq_zero hden (by linarith), place_nearest_eq_zero hden' (by linarith)]
    rfl
  · omega
  · have := place_nearest_mono (f := f) hden' hden (neg_le_neg_iff.mp h)
    omega

/-! ## Rules -/

/-- The rule never takes a value past another. -/
def KeepsOrder (rule : Binary f → Binary g) : Prop :=
  ∀ x y, x.atMost y = true → (rule x).atMost (rule y) = true

theorem KeepsOrder.comp {h : Format} {rule : Binary f → Binary g} {next : Binary g → Binary h}
    (hnext : KeepsOrder next) (hrule : KeepsOrder rule) : KeepsOrder fun x => next (rule x) :=
  fun x y hxy => hnext _ _ (hrule x y hxy)

/-- A rule that keeps the infinities where they are has to keep the order of finite values. -/
theorem keepsOrder_of_finite {rule : Binary f → Binary g}
    (hinfinity : ∀ s, rule (infinity s) = infinity s)
    (hfinite : ∀ x y, x.isFinite = true → y.isFinite = true → x.value ≤ y.value →
      (rule x).atMost (rule y) = true) : KeepsOrder rule := by
  have hnumber : ∀ x, x.isNaN = false → (rule x).isNaN = false := by
    intro x hx
    cases x with
    | nan => cases hx
    | infinity s =>
      rw [hinfinity]
      rfl
    | finite s n hn => exact (isNaN_of_ordered (s := false) (hfinite _ _ rfl rfl le_rfl)).1
  intro x y hxy
  rw [← ordered_false] at hxy ⊢
  obtain ⟨hx, hy⟩ := isNaN_of_ordered hxy
  cases x with
  | nan => cases hx
  | infinity s =>
    rw [hinfinity]
    cases s with
    | false =>
      rw [eq_infinity_of_ordered hxy, hinfinity]
      exact ordered_self rfl
    | true => exact infinity_ordered (hnumber y hy) false
  | finite s n hn =>
    cases y with
    | nan => cases hy
    | infinity t =>
      rw [hinfinity]
      cases t with
      | false => exact ordered_infinity (hnumber _ rfl) false
      | true =>
        rw [ordered_false, ← ordered_true] at hxy
        cases eq_infinity_of_ordered hxy
    | finite t m hm => exact hfinite _ _ rfl rfl ((atMost_iff_value rfl rfl).mp hxy)

/-- The same for a rule that takes finite values to where another rule takes them. -/
theorem KeepsOrder.of_finite {rule other : Binary f → Binary g} (hother : KeepsOrder other)
    (hinfinity : ∀ s, rule (infinity s) = infinity s)
    (hfinite : ∀ x, x.isFinite = true → (rule x).rank = (other x).rank) : KeepsOrder rule := by
  refine keepsOrder_of_finite hinfinity fun x y hx hy hle => ?_
  have horder := hother x y ((atMost_iff_value hx hy).mpr hle)
  unfold atMost related at horder ⊢
  rwa [hfinite x hx, hfinite y hy]

section
variable (hy : y.isFinite = true) (h0 : 0 < y.value)
include hy h0

theorem exists_positive : ∃ n h, y = finite false n h ∧ n ≠ 0 := by
  obtain ⟨s, n, hn, rfl⟩ := exists_finite hy
  have hnonneg : (0 : ℚ) ≤ n / unitsPerOne := by positivity
  have hvalue : (finite s n hn : Binary f).value = sign s * (n / unitsPerOne) := rfl
  rw [hvalue] at h0
  cases s with
  | false =>
    refine ⟨n, hn, rfl, ?_⟩
    rintro rfl
    rw [Nat.cast_zero, zero_div, mul_zero] at h0
    exact lt_irrefl 0 h0
  | true =>
    rw [sign_true_mul] at h0
    exact absurd h0 (not_lt.mpr (neg_nonpos.mpr hnonneg))

/-- Dividing by a positive number keeps the order. -/
theorem keepsOrder_div : KeepsOrder fun x => x.div y := by
  refine keepsOrder_of_finite (fun s => ?_) fun x z hx hz hle => ?_
  · obtain ⟨n, hn, rfl, -⟩ := exists_positive hy h0
    show infinity (s ^^ false) = infinity s
    rw [Bool.xor_false]
  · exact (isRounding_div hx hy (ne_of_gt h0)).atMost (isRounding_div hz hy (ne_of_gt h0))
      (div_le_div_of_nonneg_right hle (le_of_lt h0))

/-- Multiplying by a positive number keeps the order. -/
theorem keepsOrder_mul : KeepsOrder fun x => x.mul y := by
  refine keepsOrder_of_finite (fun s => ?_) fun x z hx hz hle => ?_
  · obtain ⟨n, hn, rfl, hne⟩ := exists_positive hy h0
    show (if n = 0 then nan else infinity (s ^^ false)) = infinity s
    rw [if_neg hne, Bool.xor_false]
  · exact (isRounding_mul hx hy).atMost (isRounding_mul hz hy)
      (mul_le_mul_of_nonneg_right hle (le_of_lt h0))

end

end ColorAlgebra.Binary
