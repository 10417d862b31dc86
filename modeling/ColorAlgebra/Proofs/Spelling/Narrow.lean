import ColorAlgebra.Proofs.Binary.Widening
import ColorAlgebra.Proofs.Spelling.RoundTrip

/-!
# Text round trip of narrow channels

A narrow channel is printed with the shortest digits that tell singles apart, is read as
a double, and is narrowed again. So it is rounded twice. For halves that loses nothing,
because singles are much closer together than halves. A single comes back as itself
unless its significand is odd and its digits, read as a double, lie midway between it and
a neighbour: the tie then goes to the neighbour.
-/

namespace ColorAlgebra

namespace Spelling

variable {f t : Format}

/-! ## One channel -/

/-- The magnitude of the double that a written magnitude is read as. -/
def rereadUnits (f : Format) (units : Nat) : Nat :=
  Format.double.nearest (digitsOf f units).unitsNum (digitsOf f units).unitsDen

theorem representable_rereadUnits (hf : f.CoarserThan .double) {units : Nat}
    (h : f.Representable units) : Format.double.Representable (rereadUnits f units) := by
  refine Format.representable_nearest (hf.nearest_lt (Decimal.unitsDen_pos _) ?_)
  rw [nearest_digitsOf h]
  exact h.1

/-- From the text of a narrow channel a finite double is read, with the sign of the
channel. -/
theorem reread?_narrow (hf : f.CoarserThan .double) (negative : Bool) {units : Nat}
    (h : f.Representable units) :
    reread? (.finite negative units h : Binary f) =
      some (.finite negative (rereadUnits f units) (representable_rereadUnits hf h)) := by
  dsimp only [reread?]
  rw [Decimal.toBinary_eq_round, Binary.round_of_nearest (representable_rereadUnits hf h) rfl]
  rfl

/-- Singles are much closer together than halves. -/
theorem single_step_add_two_le (units : Nat) :
    Format.single.step units + 2 ≤ Format.half.step units := by
  unfold Format.step
  dsimp only [Format.quantum, Format.precision]
  omega

theorem coarserThan_printed (ht : t ≠ .double) : (printed t).CoarserThan .double := by
  refine Format.coarserThan_of_ne_double ?_
  cases t with
  | half => decide
  | single => decide
  | double => exact absurd rfl ht

theorem representable_printed {units : Nat} (h : t.Representable units) :
    (printed t).Representable units := by
  cases t with
  | half => exact Format.CoarserThan.representable ⟨by decide, by decide, by decide⟩ h
  | single => exact h
  | double => exact h

/-- The double that is read is within half a spacing of the printed format. -/
theorem rereadUnits_close (hf : f.CoarserThan .double) {units : Nat} (h : f.Representable units) :
    2 * rereadUnits f units ≤ 2 * units + 2 ^ f.step units ∧
      2 * units ≤ 2 * rereadUnits f units + 2 ^ f.step units := by
  have hclose := @Format.nearest_close f .double (digitsOf f units).unitsNum _ hf
    (Decimal.unitsDen_pos (digitsOf f units))
  rwa [nearest_digitsOf h] at hclose

/-- A single comes back unless its digits are read midway and its significand is odd. -/
theorem single_reread_iff {units : Nat} (h : Format.single.Representable units) :
    Format.single.nearest (rereadUnits .single units) 1 = units ↔
      ¬ Format.single.Slips units (rereadUnits .single units) := by
  have hiff := @Format.nearest_nearest_eq_iff .single .double (digitsOf .single units).unitsNum _
    (coarserThan_printed (t := .single) (by decide)) (Decimal.unitsDen_pos (digitsOf .single units))
  rwa [nearest_digitsOf h] at hiff

/-- A half comes back from the digits of a single, which are never read near the middle of
two halves. -/
theorem half_reread {units : Nat} (h : Format.half.Representable units) :
    Format.half.nearest (rereadUnits .single units) 1 = units ∧
      ¬ Format.half.Midway units (rereadUnits .single units) := by
  obtain ⟨hhigh, hlow⟩ := rereadUnits_close (coarserThan_printed (t := .half) (by decide))
    (representable_printed h)
  dsimp only [printed] at hhigh hlow
  have hpow : 2 ^ (Format.single.step units + 2) ≤ 2 ^ Format.half.step units :=
    Nat.pow_le_pow_right (by decide) (single_step_add_two_le units)
  rw [Nat.pow_succ, Nat.pow_succ] at hpow
  have hpos := Nat.two_pow_pos (Format.single.step units)
  refine ⟨Format.nearest_of_close h.onGrid (by omega) (by omega), ?_⟩
  unfold Format.Midway
  omega

/-- A narrow magnitude comes back unless it slips. -/
theorem narrow_reread_iff (ht : t ≠ .double) {units : Nat} (h : t.Representable units) :
    t.nearest (rereadUnits (printed t) units) 1 = units ↔
      ¬ t.Slips units (rereadUnits (printed t) units) := by
  cases t with
  | half =>
    obtain ⟨hread, hmidway⟩ := half_reread h
    exact iff_of_true hread fun hslips => hmidway hslips.2
  | single => exact single_reread_iff h
  | double => exact absurd rfl ht

/-! ## Slipping -/

/-- The text of a finite number has no letters to be put in lower case. -/
theorem readNumber?_write (negative : Bool) {units : Nat} (h : f.Representable units) :
    readNumber? (Layout.plain.write (.finite negative units h : Binary f)) =
      reread? (.finite negative units h : Binary f) := by
  rw [← readNumber?_lowered, lowered_finite, write_finite]

/-- The text of the channel is read as a double that narrows to a neighbour: the double
lies midway between the two, and the channel has an odd significand. -/
def SlipsInText (x : Binary t) : Prop :=
  ∃ negative units h v hv, x = .finite negative units h ∧
    readNumber? (writeChannel .plain x) = some (.finite negative v hv) ∧ t.Slips units v

theorem readNumber?_writeChannel (ht : t ≠ .double) (negative : Bool) {units : Nat}
    (h : t.Representable units) :
    readNumber? (writeChannel .plain (.finite negative units h : Binary t)) =
      some (.finite negative (rereadUnits (printed t) units)
        (representable_rereadUnits (coarserThan_printed ht) (representable_printed h))) := by
  unfold writeChannel
  rw [Binary.convert_finite (representable_printed h), readNumber?_write,
    reread?_narrow (coarserThan_printed ht)]

theorem slipsInText_iff (ht : t ≠ .double) {negative : Bool} {units : Nat}
    {h : t.Representable units} :
    SlipsInText (.finite negative units h : Binary t) ↔
      t.Slips units (rereadUnits (printed t) units) := by
  constructor
  · rintro ⟨s, n, hn, v, hv, heq, hread, hslips⟩
    cases heq
    rw [readNumber?_writeChannel ht] at hread
    cases hread
    exact hslips
  · intro hslips
    exact ⟨negative, units, h, _, _, rfl, readNumber?_writeChannel ht negative h, hslips⟩

theorem not_slipsInText_half (x : Binary .half) : ¬ SlipsInText x := by
  intro hslips
  cases x with
  | nan =>
    obtain ⟨_, _, _, _, _, heq, -⟩ := hslips
    cases heq
  | infinity =>
    obtain ⟨_, _, _, _, _, heq, -⟩ := hslips
    cases heq
  | finite negative units h =>
    exact (half_reread h).2 ((slipsInText_iff (by decide)).mp hslips).2

/-- What is read from the text of a finite narrow channel narrows to the channel unless it
slips. -/
theorem reread?_printed (ht : t ≠ .double) {x : Binary t} (hx : x.isFinite = true) :
    ∃ v, reread? (x.convert (printed t)) = some v ∧ (v.convert t = x ↔ ¬ SlipsInText x) := by
  cases x with
  | nan => cases hx
  | infinity => cases hx
  | finite negative units h =>
    rw [Binary.convert_finite (representable_printed h)]
    refine ⟨_, reread?_narrow (coarserThan_printed ht) negative (representable_printed h), ?_⟩
    rw [slipsInText_iff ht, ← narrow_reread_iff ht h]
    exact Binary.convert_eq_finite_iff h

end Spelling

/-! ## The normal range -/

theorem Range.full_normal : Range.normal.full = Binary.one := by
  dsimp only [Range.normal]

theorem Range.unscale_normal (v : Double) : Range.normal.unscale v = v := by
  unfold Range.unscale
  rw [Range.full_normal, Binary.div_one]

theorem Range.scale_normal (v : Double) : Range.normal.scale v = v := by
  unfold Range.scale
  rw [Range.full_normal, Binary.mul_one]

namespace Color

variable {t : Format}

theorem unscale_normal (c : Color .normal t) : c.unscale = c := by
  obtain ⟨x, y, z⟩ := c
  unfold unscale mapDouble ofDoubles toDoubles Triple.map
  dsimp only
  rw [Range.unscale_normal, Range.unscale_normal, Range.unscale_normal, Binary.narrow_widen,
    Binary.narrow_widen, Binary.narrow_widen]

theorem toText_normal (c : Color .normal t) : c.toText = Spelling.write c.channels := by
  unfold toText
  rw [unscale_normal]

theorem ofNormalized_normal (n : Triple Double) :
    (ofNormalized n : Color .normal t) = ⟨n.map (Binary.convert t)⟩ := by
  unfold ofNormalized ofDoubles Triple.map
  dsimp only
  rw [Range.scale_normal, Range.scale_normal, Range.scale_normal]

/-- The color that is read has the narrowed doubles for its channels. -/
theorem ofText_toText {c : Color .normal t} (hname : c.toText ∉ Names.all) {x y z : Double}
    (hx : Spelling.reread? (c.channels.first.convert (Spelling.printed t)) = some x)
    (hy : Spelling.reread? (c.channels.second.convert (Spelling.printed t)) = some y)
    (hz : Spelling.reread? (c.channels.third.convert (Spelling.printed t)) = some z) :
    ofText c.toText = .ok (⟨⟨x.convert t, y.convert t, z.convert t⟩⟩ : Color .normal t) := by
  rw [toText_normal] at hname ⊢
  have hread : Spelling.read? (Spelling.write c.channels) = some ⟨x, y, z⟩ := by
    rw [Spelling.write_of_no_name (Spelling.of?_eq_none_of_write hname),
      Spelling.read?_parenthesized]
    dsimp only [Triple.map]
    rw [hx, hy, hz]
  unfold ofText
  rw [hread]
  dsimp only
  rw [ofNormalized_normal]
  rfl

/-! ## The round trip -/

/-- A color of finite narrow channels that is written as three numbers is read back. A
channel comes back as it was if and only if it does not slip, and a half never slips. -/
theorem ofText_toText_narrow {t : Format} (ht : t ≠ .double) (c : Color .normal t)
    (hfinite : ∀ x ∈ c.channels.toList, x.isFinite = true) (hname : c.toText ∉ Names.all) :
    ∃ d : Color .normal t, ofText c.toText = .ok d ∧
      (∀ pair ∈ c.channels.toList.zip d.channels.toList,
        pair.2 = pair.1 ↔ ¬ Spelling.SlipsInText pair.1) ∧
      (t = .half → d = c) := by
  obtain ⟨⟨a, b, c⟩⟩ := c
  obtain ⟨ha, hb, hc⟩ := Triple.forall_mem_toList.mp hfinite
  obtain ⟨x, hx, hxa⟩ := Spelling.reread?_printed ht ha
  obtain ⟨y, hy, hyb⟩ := Spelling.reread?_printed ht hb
  obtain ⟨z, hz, hzc⟩ := Spelling.reread?_printed ht hc
  refine ⟨_, ofText_toText hname hx hy hz, ?_, ?_⟩
  · exact Triple.forall_mem_zip.mpr ⟨hxa, hyb, hzc⟩
  · rintro rfl
    rw [hxa.mpr (Spelling.not_slipsInText_half a), hyb.mpr (Spelling.not_slipsInText_half b),
      hzc.mpr (Spelling.not_slipsInText_half c)]

/-- Its first channel has an odd significand. The text of the channel is
`0.00000000000000000000000007038531`, and the double nearest to that number lies midway
between the channel and the next single. -/
def slipping : Color .normal .single :=
  ⟨⟨.finite false (0xae43fd * 2 ^ 967) (by decide +kernel),
    (Decimal.mk 5 (-1)).toBinary .single false, (Decimal.mk 25 (-2)).toBinary .single false⟩⟩

theorem ofText_toText_slipping :
    (∀ x ∈ slipping.channels.toList, x.isFinite = true) ∧ slipping.toText ∉ Names.all ∧
      ∃ d : Color .normal .single, ofText slipping.toText = .ok d ∧
        d.channels.first ≠ slipping.channels.first := by
  have hfinite : ∀ x ∈ slipping.channels.toList, x.isFinite = true := by decide +kernel
  have hname : slipping.toText ∉ Names.all := by decide +kernel
  have hslips : Spelling.SlipsInText slipping.channels.first :=
    (Spelling.slipsInText_iff (by decide)).mpr (by decide +kernel)
  obtain ⟨d, hd, hchannels, -⟩ := ofText_toText_narrow (by decide) slipping hfinite hname
  have hfirst := hchannels (slipping.channels.first, d.channels.first) (List.mem_cons_self ..)
  exact ⟨hfinite, hname, d, hd, fun heq => hfirst.mp heq hslips⟩

end Color

end ColorAlgebra
