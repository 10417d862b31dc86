import ColorAlgebra.Proofs.Binary.Ordered
import ColorAlgebra.Proofs.Spreading.Fractions
import ColorAlgebra.Proofs.Spreading.Growth

namespace ColorAlgebra

variable {r : Range} {t : Format}

namespace Palette

open Binary

variable {p : Palette r t} {size : Nat} {start stop : Color r t} {i : Fin 3}

/-! ## Points between equal colors -/

/-- A finite channel of a point is that of the end. -/
theorem equal_point {q : Double} (hq : q.isFinite = true)
    (h : (start.channel i).equal (stop.channel i) = true)
    (hstop : (stop.channel i).isFinite = true) :
    ((between start stop q).channel i).equal (stop.channel i) = true := by
  rcases equal_cases h with ⟨s, -, hinfinite⟩ | ⟨ha, hb, hab⟩
  · rw [hinfinite] at hstop
    cases hstop
  · obtain ⟨hfinite, hvalue⟩ := Scalar.lerp_self ((isFinite_widen _).trans ha)
      ((isFinite_widen _).trans hb) (by rwa [value_widen, value_widen]) hq
    rw [value_widen] at hvalue
    rw [channel_between]
    obtain ⟨hnarrow, hsame⟩ := (isRounding_convert (g := t) hfinite).exact hb hvalue.symm
    rw [equal_iff_value hnarrow hb, hsame, hvalue]

/-- An infinite channel of a point before the end is a NaN. -/
theorem point_of_infinity {q : Double} (hq : q.equal one = false)
    (h : (start.channel i).equal (stop.channel i) = true)
    (hstop : (stop.channel i).isFinite = false) :
    (between start stop q).channel i = nan := by
  rcases equal_cases h with ⟨s, ha, hb⟩ | ⟨-, hb, -⟩
  · rw [channel_between, ha, hb]
    exact congrArg (convert t) (Scalar.lerp_infinity s hq)
  · rw [hb] at hstop
    cases hstop

theorem points_one (start stop : Color r t) : points start stop 1 = [stop] := by
  have hone : Spread.fraction 1 1 = one := if_pos rfl
  simp [points, hone, between_one]

section
variable {count : Nat} (hcount : count < Spread.wordSize)
  (h : ∀ i, (start.channel i).equal (stop.channel i) = true)
include hcount h

theorem equal_points {c : Color r t} (hc : c ∈ points start stop count)
    (hstop : (stop.channel i).isFinite = true) : (c.channel i).equal (stop.channel i) = true := by
  obtain ⟨k, hk, rfl⟩ := mem_points.mp hc
  exact equal_point (Spread.fraction_mem (Nat.zero_lt_of_lt hk) hcount hk).1 (h i) hstop

/-- All points between equal colors equal the end if it is finite or there is no other point. -/
theorem equal_points_iff (hstop : stop.IsNumeric) :
    (∀ c ∈ points start stop count, c.equal stop = true) ↔
      (∀ i, (stop.channel i).isFinite = true) ∨ count ≤ 1 := by
  constructor
  · intro hequal
    by_contra hnot
    push Not at hnot
    obtain ⟨⟨i, hinfinite⟩, hmany⟩ := hnot
    -- the first of several points has a NaN already
    have hfirst := getElem?_points start stop (Nat.zero_lt_of_lt hmany)
    have hchannel := Color.equal_iff_channel.mp (hequal _ (List.mem_of_getElem? hfirst)) i
    rw [point_of_infinity (Spread.fraction_first_not_equal_one hmany hcount) (h i)
      (Bool.eq_false_of_not_eq_true hinfinite)] at hchannel
    cases hchannel
  · rintro (hfinite | hone) c hc
    · exact Color.equal_iff_channel.mpr fun i => equal_points hcount h hc (hfinite i)
    · obtain rfl : count = 1 := Nat.le_antisymm hone (by
        rw [← length_points start stop count]
        exact List.length_pos_of_mem hc)
      rw [points_one, List.mem_singleton] at hc
      rw [hc, Color.equal_iff_channel]
      exact fun i => equal_self (Color.isNumeric_iff_channel.mp hstop i)

end

/-! ## Spreads -/

/-- A spread from a color that equals the end, or from the end itself, keeps every finite channel.
It is constant if all channels of the end are finite or no more than one color is appended, and
in no other case. Where no word follows the number of colors, the spread is a fault. -/
theorem spread_constant_iff (hsize : size < Spread.wordSize) (hstop : stop.IsNumeric)
    (hstart : ∀ c, p.getLast? = some c → c.equal stop = true) :
    (size - p.length + 1 = Spread.wordSize → p.spread size stop = .error .overflow) ∧
    (size - p.length + 1 ≠ Spread.wordSize →
      ∃ added, p.spread size stop = .ok (p ++ added) ∧ added.length = size - p.length ∧
        (∀ c ∈ added, ∀ i, (stop.channel i).isFinite = true →
          (c.channel i).equal (stop.channel i) = true) ∧
        ((∀ c ∈ added, c.equal stop = true) ↔
          (∀ i, (stop.channel i).isFinite = true) ∨ added.length ≤ 1)) := by
  have hequal : ∀ i, ((p.getLast?.getD stop).channel i).equal (stop.channel i) = true := by
    intro i
    cases hlast : p.getLast? with
    | none => exact equal_self (Color.isNumeric_iff_channel.mp hstop i)
    | some c => exact Color.equal_iff_channel.mp (hstart c hlast) i
  have hcount : size - p.length < Spread.wordSize := Nat.lt_of_le_of_lt (Nat.sub_le ..) hsize
  refine ⟨spread_of_last p stop, fun hnext => ?_⟩
  refine ⟨_, spread_eq p stop (Nat.lt_of_le_of_ne hcount hnext), length_points ..,
    fun c hc i => equal_points hcount hequal hc, ?_⟩
  rw [length_points]
  exact equal_points_iff hcount hequal hstop

/-- The least channels of an empty palette are infinite. A spread of three colors to them ends with
them, but its first color does not equal them. -/
theorem not_spread_constant_minimum :
    let least : Color .normal .double := minimum []
    (∀ c, ([] : Palette .normal .double).getLast? = some c → c.equal least = true) ∧
      least.IsNumeric ∧ least = .splat (infinity false) ∧
      ∃ added, spread [] 3 least = .ok added ∧ added.length = 3 ∧
        ¬∀ c ∈ added, c.equal least = true := by
  intro least
  have hstop : least.IsNumeric := by decide +kernel
  have hstart : ∀ c, ([] : Palette .normal .double).getLast? = some c → c.equal least = true := by
    simp
  obtain ⟨-, hspread⟩ := @spread_constant_iff _ _ [] 3 least (by decide) hstop hstart
  obtain ⟨added, hadded, hlength, -, hiff⟩ := hspread (by decide)
  refine ⟨hstart, hstop, rfl, added, hadded, hlength, fun hequal => ?_⟩
  rcases hiff.mp hequal with hfinite | hone
  · exact absurd (hfinite 0) (by decide +kernel)
  · rw [hlength] at hone
    exact absurd hone (by decide)

end Palette

end ColorAlgebra
