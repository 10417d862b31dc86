import ColorAlgebra.Palette.Algebra
import ColorAlgebra.Proofs.Binary.Whole
import ColorAlgebra.Proofs.Combining.Channels
import ColorAlgebra.Proofs.Scalar.DigitsOrder

namespace ColorAlgebra

variable {r : Range} {t : Format}

theorem Scalar.roundDigits_zero (x : Double) : roundDigits x 0 = x.roundEven := by
  cases x with
  | nan => rfl
  | infinity s => rfl
  | finite s n hn =>
    have hfinite : (Binary.finite s n hn : Double).isFinite = true := rfl
    obtain ⟨-, -, hround, -⟩ := roundedAt_roundDigits hfinite (.inl (Int.le_refl 0))
    rw [hround, roundEven_eq_roundAt]

/-! ## Changes -/

/-- The changes that give the exact result in every channel, with what they make of a number and
of a sign. -/
inductive Change.IsExact : Change → (ℚ → ℚ) → (Bool → Bool) → Prop
  | floor : IsExact .floor (fun q => ⌊q⌋) id
  | ceil : IsExact .ceil (fun q => ⌈q⌉) id
  | trunc : IsExact .trunc (fun q => towardZero q) id
  | round : IsExact (.round 0) (fun q => nearestEven q) id
  | abs : IsExact .abs (fun q => |q|) fun _ => false
  | neg : IsExact .neg (fun q => -q) not

/-- In every channel, `d` is the exact result for `c`. -/
def Color.Exactly (number : ℚ → ℚ) (sign : Bool → Bool) (c d : Color r t) : Prop :=
  ∀ i, (c.channel i).Exactly number sign (d.channel i)

/-- The finite channels lie between those of two colors, which are at most one apart. -/
def Color.Enclosed (low c high : Color r t) : Prop :=
  ∀ i, (c.channel i).isFinite = true →
    (low.channel i).Enclosed (c.channel i) (high.channel i)

/-! ## Colors -/

namespace Color

theorem channel_floor (c : Color r t) (i : Fin 3) : c.floor.channel i = (c.channel i).floor :=
  channel_mapDouble_of_narrow (Binary.narrow_wholeBy Binary.toWhole_floor) c i

theorem channel_ceil (c : Color r t) (i : Fin 3) : c.ceil.channel i = (c.channel i).ceil :=
  channel_mapDouble_of_narrow (Binary.narrow_wholeBy Binary.toWhole_ceil) c i

theorem channel_trunc (c : Color r t) (i : Fin 3) : c.trunc.channel i = (c.channel i).trunc :=
  channel_mapDouble_of_narrow (Binary.narrow_wholeBy fun _ => toWhole_wholeBelow) c i

theorem channel_round_zero (c : Color r t) (i : Fin 3) :
    (c.round 0).channel i = (c.channel i).roundEven := by
  refine channel_mapDouble_of_narrow (fun x => ?_) c i
  rw [Scalar.roundDigits_zero]
  exact Binary.narrow_wholeBy (fun _ => toWhole_roundDiv) x

theorem channel_abs (c : Color r t) (i : Fin 3) : c.abs.channel i = (c.channel i).abs :=
  channel_mapDouble_of_narrow Binary.narrow_abs c i

theorem enclosed_floor_ceil (c : Color r t) : c.floor.Enclosed c c.ceil := by
  intro i hfinite
  rw [channel_floor, channel_ceil]
  exact Binary.enclosed_floor_ceil hfinite

theorem neg_floor_neg (c : Color r t) : c.neg.floor.neg = c.ceil := by
  refine eq_of_channel fun i => ?_
  rw [channel_neg, channel_floor, channel_neg, channel_ceil, Binary.neg_floor_neg]

end Color

namespace Change.IsExact

variable {x : Change} {number : ℚ → ℚ} {sign : Bool → Bool}

/-- An exact change is a rule for values of the channel format. All but the change of sign leave
their own results as they are. -/
theorem exists_rule (h : x.IsExact number sign) (r : Range) (t : Format) :
    ∃ rule : Binary t → Binary t,
      (∀ (c : Color r t) (i : Fin 3), (x.apply c).channel i = rule (c.channel i)) ∧
      (∀ v, Binary.Exactly number sign v (rule v)) ∧ (x ≠ .neg → ∀ v, rule (rule v) = rule v) := by
  cases h with
  | floor =>
    exact ⟨Binary.floor, Color.channel_floor, Binary.exactly_floor,
      fun _ => Binary.wholeBy_wholeBy Binary.toWhole_floor Binary.toWhole_floor⟩
  | ceil =>
    exact ⟨Binary.ceil, Color.channel_ceil, Binary.exactly_ceil,
      fun _ => Binary.wholeBy_wholeBy Binary.toWhole_ceil Binary.toWhole_ceil⟩
  | trunc =>
    exact ⟨Binary.trunc, Color.channel_trunc, Binary.exactly_trunc,
      fun _ => Binary.wholeBy_wholeBy (fun _ => toWhole_wholeBelow) fun _ => toWhole_wholeBelow⟩
  | round =>
    exact ⟨Binary.roundEven, Color.channel_round_zero, Binary.exactly_roundEven,
      fun _ => Binary.wholeBy_wholeBy (fun _ => toWhole_roundDiv) fun _ => toWhole_roundDiv⟩
  | abs => exact ⟨Binary.abs, Color.channel_abs, Binary.exactly_abs, fun _ => Binary.abs_abs⟩
  | neg => exact ⟨Binary.neg, Color.channel_neg, Binary.exactly_neg, fun hne => absurd rfl hne⟩

theorem exactly (h : x.IsExact number sign) (c : Color r t) :
    c.Exactly number sign (x.apply c) := by
  obtain ⟨rule, hchannel, hexact, -⟩ := h.exists_rule r t
  intro i
  rw [hchannel]
  exact hexact _

theorem apply_apply (h : x.IsExact number sign) (hneg : x ≠ .neg) (c : Color r t) :
    x.apply (x.apply c) = x.apply c := by
  obtain ⟨rule, hchannel, -, hagain⟩ := h.exists_rule r t
  refine Color.eq_of_channel fun i => ?_
  rw [hchannel, hchannel, hagain hneg]

end Change.IsExact

/-! ## Palettes -/

namespace Palette

theorem change_getElem? (p : Palette r t) (x : Change) (k : Nat) :
    (p.change x)[k]? = p[k]?.map x.apply :=
  List.getElem?_map

/-- Floor, ceiling, whole part, nearest whole number, magnitude and opposite number of a color are
exact in every channel, and all but the last change nothing a second time. A color lies between
its floor and its ceiling, which are at most one apart, and the opposite of the floor of the
opposite color is the ceiling. The same is true of a palette at every place. -/
theorem change_exact (c : Color r t) (p : Palette r t) :
    (∀ x number sign, Change.IsExact x number sign →
      (c.Exactly number sign (x.apply c) ∧ (x ≠ .neg → x.apply (x.apply c) = x.apply c)) ∧
      (p.change x).length = p.length ∧
      (∀ (k : Nat) (a b : Color r t), p[k]? = some a → (p.change x)[k]? = some b →
        a.Exactly number sign b) ∧
      (x ≠ .neg → (p.change x).change x = p.change x)) ∧
    (c.floor.Enclosed c c.ceil ∧
      ∀ (k : Nat) (low a high : Color r t), p[k]? = some a → (p.change .floor)[k]? = some low →
        (p.change .ceil)[k]? = some high → low.Enclosed a high) ∧
    c.neg.floor.neg = c.ceil ∧ ((p.change .neg).change .floor).change .neg = p.change .ceil := by
  refine ⟨fun x number sign hx => ⟨⟨hx.exactly c, fun hneg => hx.apply_apply hneg c⟩,
    p.length_change x, fun k a b ha hb => ?_, fun hneg => ?_⟩,
    ⟨c.enclosed_floor_ceil, fun k low a high ha hlow hhigh => ?_⟩, c.neg_floor_neg, ?_⟩
  · rw [change_getElem?, ha] at hb
    obtain rfl := Option.some.inj hb
    exact hx.exactly a
  · unfold change
    rw [List.map_map]
    exact List.map_congr_left fun a _ => hx.apply_apply hneg a
  · rw [change_getElem?, ha] at hlow hhigh
    obtain rfl := Option.some.inj hlow
    obtain rfl := Option.some.inj hhigh
    exact a.enclosed_floor_ceil
  · unfold change
    rw [List.map_map, List.map_map]
    exact List.map_congr_left fun a _ => a.neg_floor_neg

/-- The opposite of two and a half, as a half: its floor is that of three, and two is even. The
ceiling of the opposite of one half is a zero that keeps the sign. -/
theorem change_exact_half :
    let v : Binary .half := (Decimal.mk 25 (-1)).toBinary .half true
    let w : Binary .half := (Decimal.mk 5 (-1)).toBinary .half true
    let c : Color .byte .half := ⟨v, v, w⟩
    let p : Palette .byte .half := [c]
    (v.isFinite = true ∧ w.isNaN = false) ∧
      ((c.floor.channel 0).value = -3 ∧ ((c.round 0).channel 0).value = -2) ∧
      (c.ceil.channel 2).isNegative = true ∧
      (p.change .floor).change .floor = p.change .floor := by
  intro v w c p
  have hv : v.isFinite = true ∧ v.value = -5 / 2 := by decide +kernel
  have hw : w.isNaN = false ∧ w.isNegative = true := by decide +kernel
  have hfloor : ⌊(-5 / 2 : ℚ)⌋ = -3 := by decide +kernel
  have hround : nearestEven (-5 / 2) = -2 := by decide +kernel
  clear_value v w
  obtain ⟨hchanges, -, -, -⟩ := change_exact c p
  obtain ⟨⟨hlow, -⟩, -, -, hagain⟩ := hchanges _ _ _ .floor
  obtain ⟨⟨hnear, -⟩, -⟩ := hchanges _ _ _ .round
  obtain ⟨⟨hhigh, -⟩, -⟩ := hchanges _ _ _ .ceil
  obtain ⟨-, hlow⟩ := (hlow 0).finite hv.1
  obtain ⟨-, hnear⟩ := (hnear 0).finite hv.1
  have hsign := (hhigh 2).sign hw.1
  have hvalue : (c.channel 0).value = -5 / 2 := hv.2
  have hnegative : (c.channel 2).isNegative = true := hw.2
  rw [hvalue, hfloor] at hlow
  rw [hvalue, hround] at hnear
  rw [hnegative] at hsign
  exact ⟨⟨hv.1, hw.1⟩, ⟨by exact_mod_cast hlow, by exact_mod_cast hnear⟩, hsign,
    hagain (by decide)⟩

end Palette

end ColorAlgebra
