import ColorAlgebra.Proofs.Binary.Ordered
import ColorAlgebra.Proofs.Spreading.Fractions
import ColorAlgebra.Proofs.Spreading.Growth

/-!
# The order of the colors in a spread

Along a spread every channel leads from its first value to its last, without a step back and
without going past the last. That holds as long as the difference of the two does not overflow,
which it cannot in a format narrower than a double, and for as many points as have fractions
that stay away from one.
-/

namespace ColorAlgebra

theorem Spread.isFraction_fraction {count k : Nat} (h0 : 0 < count) (hcount : count ≤ 2 ^ 50)
    (hk : k ≤ count) : (fraction count k).IsFraction := by
  have hword : 2 ^ 50 < wordSize := by decide
  obtain ⟨hfinite, hnonneg, -⟩ := fraction_mem h0 (by omega) hk
  refine ⟨hfinite, hnonneg, ?_⟩
  rcases Nat.eq_or_lt_of_le hk with hlast | hlt
  · exact .inl (if_pos hlast)
  · exact .inr (fraction_le hcount hlt)

namespace Binary

variable {f : Format} {s : Bool} {x y z : Binary f}

/-! ## Formats -/

theorem sign_mul_widen_le (hx : x.isFinite = true) (hy : y.isFinite = true)
    (h : x.ordered s y = true) :
    sign s * (x.convert .double).value ≤ sign s * (y.convert .double).value := by
  rw [value_widen, value_widen]
  exact (ordered_iff hx hy).mp h

/-- Narrowing keeps a value between two that are not changed by it. -/
theorem Between.narrow {y : Double} (h : Between s (x.convert .double) y (z.convert .double))
    (hx : x.isFinite = true) (hz : z.isFinite = true) : Between s x (y.convert f) z := by
  obtain ⟨hy, hlow, hhigh⟩ := h
  rw [value_widen] at hlow hhigh
  have hround : (y.convert f).IsRounding y.value := isRounding_convert hy
  have hfinite := hround.isFinite_of_sign_between s hx hz hlow hhigh
  exact ⟨hfinite, (IsRounding.self hx).sign_mul_value_le s hround hx hfinite hlow,
    hround.sign_mul_value_le s (.self hz) hfinite hz hhigh⟩

theorem abs_value_le_top (hx : x.isFinite = true) :
    |x.value| ≤ (2 ^ f.top : Nat) / unitsPerOne := by
  obtain ⟨s, n, hn, rfl⟩ := exists_finite hx
  rw [abs_value_finite, div_le_div_iff_of_pos_right Format.cast_unitsPerOne_pos]
  exact_mod_cast Nat.le_of_lt hn.1

/-- The difference of two numbers of a narrower format is far from overflow. -/
theorem isFinite_sub_widen (hf : f ≠ .double) (hx : x.isFinite = true) (hy : y.isFinite = true) :
    ((x.convert .double).sub (y.convert .double)).isFinite = true := by
  have hround := isRounding_sub ((isFinite_widen x).trans hx) ((isFinite_widen y).trans hy)
  have htop : f.top ≤ Format.single.top := by
    cases f with
    | half => decide
    | single => exact le_rfl
    | double => exact absurd rfl hf
  have hgreat : Format.double.Representable (2 * 2 ^ Format.single.top) := by decide +kernel
  have hroom : 2 ^ f.top + 2 ^ f.top ≤ 2 * 2 ^ Format.single.top := by
    have hpow := Nat.pow_le_pow_right (show 0 < 2 by decide) htop
    omega
  refine hround.isFinite (z := finite false _ hgreat) rfl ?_
  rw [abs_value_finite, value_widen, value_widen]
  calc |x.value - y.value| ≤ |x.value| + |y.value| := abs_sub _ _
    _ ≤ (2 ^ f.top : Nat) / unitsPerOne + (2 ^ f.top : Nat) / unitsPerOne :=
      add_le_add (abs_value_le_top hx) (abs_value_le_top hy)
    _ ≤ (2 * 2 ^ Format.single.top : Nat) / unitsPerOne := by
      rw [← add_div, div_le_div_iff_of_pos_right Format.cast_unitsPerOne_pos, ← Nat.cast_add]
      exact Nat.cast_le.mpr hroom

end Binary

namespace Palette

open Binary

variable {r : Range} {t : Format} {s : Bool} {start stop : Color r t} {i : Fin 3}

/-! ## Points -/

section
variable (ha : (start.channel i).isFinite = true) (hb : (stop.channel i).isFinite = true)
  (hd : (((stop.channel i).convert .double).sub
    ((start.channel i).convert .double)).isFinite = true)
  (hab : (start.channel i).ordered s (stop.channel i) = true)
include ha hb hd hab

/-- The point that is narrowed lies between the widened ends. -/
theorem between_widened {q : Double} (hq : q.IsFraction) :
    Between s ((start.channel i).convert .double)
      (Scalar.lerp ((start.channel i).convert .double) ((stop.channel i).convert .double) q)
      ((stop.channel i).convert .double) :=
  Scalar.between_lerp ((isFinite_widen _).trans ha) ((isFinite_widen _).trans hb) hd
    (sign_mul_widen_le ha hb hab) hq

/-- A point lies between the ends. -/
theorem between_ends {q : Double} (hq : q.IsFraction) :
    Between s (start.channel i) ((between start stop q).channel i) (stop.channel i) := by
  rw [channel_between]
  exact (between_widened ha hb hd hab hq).narrow ha hb

/-- A point with a greater fraction is not behind another. -/
theorem ordered_between {q u : Double} (hq : q.IsFraction) (hu : u.IsFraction)
    (hqu : q.value ≤ u.value) :
    ((between start stop q).channel i).ordered s ((between start stop u).channel i) = true := by
  have hqb := between_ends ha hb hd hab hq
  have hub := between_ends ha hb hd hab hu
  rw [ordered_iff hqb.finite hub.finite]
  rw [channel_between] at hqb hub ⊢
  rw [channel_between]
  -- the doubles are in order, and narrowing keeps it
  have hmono := Scalar.lerp_mono ((isFinite_widen _).trans ha) ((isFinite_widen _).trans hb) hd
    (sign_mul_widen_le ha hb hab) hq hu hqu
  exact (isRounding_convert (between_widened ha hb hd hab hq).finite).sign_mul_value_le s
    (isRounding_convert (between_widened ha hb hd hab hu).finite) hqb.finite hub.finite hmono

/-- The points of a spread follow each other. -/
theorem pairwise_points {count : Nat} (hcount : count ≤ 2 ^ 50) :
    (points start stop count).Pairwise fun c c' =>
      (c.channel i).ordered s (c'.channel i) = true := by
  unfold points
  rw [List.pairwise_map]
  refine List.pairwise_lt_range.imp_of_mem fun {j k} hj hk hjk => ?_
  rw [List.mem_range] at hj hk
  have h0 : 0 < count := Nat.zero_lt_of_lt hk
  exact ordered_between ha hb hd hab (Spread.isFraction_fraction h0 hcount hj)
    (Spread.isFraction_fraction h0 hcount hk)
    (Spread.fraction_mono h0 (Nat.lt_of_le_of_lt hcount (by decide)) (by omega)
      (Nat.succ_le_of_lt hk))

theorem between_of_mem_points {count : Nat} (hcount : count ≤ 2 ^ 50) {c : Color r t}
    (hc : c ∈ points start stop count) :
    Between s (start.channel i) (c.channel i) (stop.channel i) := by
  obtain ⟨k, hk, rfl⟩ := mem_points.mp hc
  exact between_ends ha hb hd hab
    (Spread.isFraction_fraction (Nat.zero_lt_of_lt hk) hcount hk)

/-- The first value, and the points: nothing steps back, and nothing goes past the end. -/
theorem ordered_points {count : Nat} (hcount : count ≤ 2 ^ 50) :
    (start :: points start stop count).Pairwise
        (fun c c' => (c.channel i).ordered s (c'.channel i) = true) ∧
      ∀ c ∈ points start stop count, (start.channel i).ordered s (c.channel i) = true ∧
        (c.channel i).ordered s (stop.channel i) = true := by
  have hbetween : ∀ c ∈ points start stop count,
      (start.channel i).ordered s (c.channel i) = true ∧
        (c.channel i).ordered s (stop.channel i) = true := by
    intro c hc
    obtain ⟨hfinite, hlow, hhigh⟩ := between_of_mem_points ha hb hd hab hcount hc
    exact ⟨(ordered_iff ha hfinite).mpr hlow, (ordered_iff hfinite hb).mpr hhigh⟩
  exact ⟨List.pairwise_cons.mpr ⟨fun c hc => (hbetween c hc).1,
    pairwise_points ha hb hd hab hcount⟩, hbetween⟩

end

/-! ## Spreads -/

/-- A spread appends as many colors as the palette has less than the size. Along them a channel does
not decrease if its last value is not less than its first, and does not increase if it is not
greater, so that all values in between lie between them. Doubles have to have a difference that does
not overflow. -/
theorem spread_monotone {p : Palette r t} {size : Nat} (hstart : p.getLast? = some start)
    (hsize : size ≤ p.length + 2 ^ 50)
    (ha : (start.channel i).isFinite = true) (hb : (stop.channel i).isFinite = true)
    (hdifference : t = .double →
      (((stop.channel i).convert .double).sub
        ((start.channel i).convert .double)).isFinite = true) :
    ∃ added, p.spread size stop = .ok (p ++ added) ∧ added.length = size - p.length ∧
      ((start.channel i).atMost (stop.channel i) = true →
        (start :: added).Pairwise (fun c c' => (c.channel i).atMost (c'.channel i) = true) ∧
        ∀ c ∈ added, (start.channel i).atMost (c.channel i) = true ∧
          (c.channel i).atMost (stop.channel i) = true) ∧
      ((stop.channel i).atMost (start.channel i) = true →
        (start :: added).Pairwise (fun c c' => (c'.channel i).atMost (c.channel i) = true) ∧
        ∀ c ∈ added, (stop.channel i).atMost (c.channel i) = true ∧
          (c.channel i).atMost (start.channel i) = true) := by
  have hcount : size - p.length ≤ 2 ^ 50 := by omega
  have hword : size - p.length + 1 < Spread.wordSize := by
    unfold Spread.wordSize
    omega
  have hd : (((stop.channel i).convert .double).sub
      ((start.channel i).convert .double)).isFinite = true := by
    by_cases ht : t = .double
    · exact hdifference ht
    · exact isFinite_sub_widen ht hb ha
  have hspread : p.spread size stop = .ok (p ++ points start stop (size - p.length)) := by
    rw [spread_eq p stop hword, grown, hstart, Option.getD_some]
  refine ⟨_, hspread, length_points .., fun hab => ordered_points (s := false) ha hb hd hab hcount,
    fun hab => ?_⟩
  obtain ⟨hpairwise, hbetween⟩ := ordered_points (s := true) ha hb hd hab hcount
  exact ⟨hpairwise, fun c hc => (hbetween c hc).symm⟩

/-- Ten steps from 0.1 to 0.7, neither of which is a double, and ten steps down from the greatest
number of single precision to the least, whose difference no single precision number is. -/
theorem spread_monotone_tenths :
    let tenth : Color .normal .double := .splat (one.div (ofNat 10))
    let tenths : Color .normal .double := .splat ((ofNat 7).div (ofNat 10))
    let greatest : Color .normal .single := .splat (ofNat (2 ^ 128 - 2 ^ 104))
    let least : Color .normal .single := .splat (ofNat (2 ^ 128 - 2 ^ 104)).neg
    (∃ added, spread [tenth] 11 tenths = .ok (tenth :: added) ∧ added.length = 10 ∧
        (tenth :: added).Pairwise (fun c c' => (c.channel 0).atMost (c'.channel 0) = true)) ∧
      ∃ added, spread [greatest] 11 least = .ok (greatest :: added) ∧ added.length = 10 ∧
        (greatest :: added).Pairwise (fun c c' => (c'.channel 2).atMost (c.channel 2) = true) := by
  intro tenth tenths greatest least
  obtain ⟨ups, hups, hlength, hup, -⟩ := @spread_monotone _ _ tenth tenths 0 [tenth] 11 rfl
    (by decide) (by decide +kernel) (by decide +kernel) (fun _ => by decide +kernel)
  obtain ⟨downs, hdowns, hlength', -, hdown⟩ := @spread_monotone _ _ greatest least 2 [greatest] 11
    rfl (by decide) (by decide +kernel) (by decide +kernel) nofun
  exact ⟨⟨ups, hups, hlength, (hup (by decide +kernel)).1⟩,
    ⟨downs, hdowns, hlength', (hdown (by decide +kernel)).1⟩⟩

end Palette

end ColorAlgebra
