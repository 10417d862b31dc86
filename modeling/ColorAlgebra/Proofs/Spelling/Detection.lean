import ColorAlgebra.Proofs.Binary.Ordered
import ColorAlgebra.Proofs.Decimal.Places
import ColorAlgebra.Proofs.Hex.Quantize
import ColorAlgebra.Proofs.Spelling.RoundTrip

/-!
# Detecting names

Whether a triple has a name is found out in one step: it is packed, and only the color that
it is packed to is compared with it. That finds the same names as comparing with every entry
of the table, because the tolerance is much smaller than the distance between two bytes. The
text of a color is made of narrowed channels, and its packed color of channels that were not
narrowed; but narrowing moves no channel as far as half a byte, so a name goes with its own
packed color.
-/

namespace ColorAlgebra

open Binary

/-! ## The tolerance -/

namespace Binary

/-- Only finite values have a magnitude that is at most a finite one. -/
theorem isFinite_of_abs_atMost {x y : Double} (hy : y.isFinite = true)
    (h : x.abs.atMost y = true) : x.isFinite = true := by
  cases x with
  | nan => cases h
  | finite => rfl
  | infinity s =>
    have hend : (infinity false).ordered false y = true := h
    rw [eq_infinity_of_ordered hend] at hy
    cases hy

theorem isFinite_of_sub {x y : Double} (hy : y.isFinite = true)
    (h : (x.sub y).isFinite = true) : x.isFinite = true := by
  cases x with
  | nan => cases h
  | finite => rfl
  | infinity s =>
    obtain ⟨_, _, _, rfl⟩ := exists_finite hy
    cases h

end Binary

namespace Names

theorem value_tolerance : tolerance.isFinite = true ∧ tolerance.value ≤ 2 / 10 ^ 6 := by
  have hround : Rounds tolerance (Decimal.mk 1 (-6)).value :=
    one_mul (Decimal.mk 1 (-6)).value ▸ (Decimal.isRounding_toBinary false _).rounds
  have hvalue : (Decimal.mk 1 (-6)).value = 1 / 10 ^ 6 := by norm_num [Decimal.value]
  rw [hvalue] at hround
  have hsize : |(1 : ℚ) / 10 ^ 6| ≤ 1 := by norm_num [abs_of_pos]
  have hself : |(1 : ℚ) / 10 ^ 6 - 1 / 10 ^ 6| ≤ 0 := by norm_num
  obtain ⟨hfinite, hclose⟩ :=
    hround.within hself (le_trans hsize (by norm_num)) (Format.slack_le_double hsize)
  obtain ⟨-, hhigh⟩ := abs_le.mp hclose
  exact ⟨hfinite, by linarith⟩

/-- What is within the tolerance of a number that was rounded once is near the number. -/
theorem within_of_near {v e : Double} {q : ℚ} (he : e.Within q (2 / 2 ^ 53))
    (h : near v e = true) : v.Within q (1 / 10 ^ 5) := by
  obtain ⟨htolerance, hsmall⟩ := value_tolerance
  have hsub : (v.sub e).isFinite = true := isFinite_of_abs_atMost htolerance h
  have hv := isFinite_of_sub he.finite hsub
  have hdifference : |(v.sub e).value| ≤ 2 / 10 ^ 6 := by
    have hle := (atMost_iff_value ((isFinite_abs _).trans hsub) htolerance).mp h
    rw [value_abs] at hle
    exact le_trans hle hsmall
  have herror := (isRounding_sub hv he.finite).rounds.close hsub
  have hslack := Format.slack_le_double (le_refl |v.value - e.value|)
  have htriangle := abs_sub_le (v.value - e.value) (v.sub e).value 0
  rw [sub_zero, sub_zero, abs_sub_comm (v.value - e.value)] at htriangle
  have hexact : |v.value - e.value| ≤ 3 / 10 ^ 6 := by linarith
  refine ⟨hv, le_trans (abs_sub_le v.value e.value q) ?_⟩
  have hclose := he.close
  linarith

/-! ## Searching the table -/

/-- Every channel of the triple is within the tolerance of that of the packed color. -/
def Near (n : Triple Double) (word : UInt32) : Prop :=
  ∀ pair ∈ n.toList.zip (Hex.decode word).toList,
    (pair.1.sub pair.2).abs.atMost tolerance = true

theorem all_near_iff {n : Triple Double} {word : UInt32} :
    Triple.all near n (Hex.decode word) = true ↔ Near n word := Triple.all_eq_true_iff

theorem Near.within {n : Triple Double} {word : UInt32} (h : Near n word) :
    n.first.Within (Hex.byteAt word 16 / 255) (1 / 10 ^ 5) ∧
      n.second.Within (Hex.byteAt word 8 / 255) (1 / 10 ^ 5) ∧
      n.third.Within (Hex.byteAt word 0 / 255) (1 / 10 ^ 5) := by
  have hbyte : ∀ shift, (Hex.decodeByte (Hex.byteAt word shift)).Within
      (Hex.byteAt word shift / 255) (2 / 2 ^ 53) :=
    fun shift => Hex.within_decodeByte (Hex.byteAt_le word shift)
  have hchannels := Triple.forall_mem_zip.mp h
  unfold Hex.decode at hchannels
  dsimp only at hchannels
  obtain ⟨hfirst, hsecond, hthird⟩ := hchannels
  exact ⟨within_of_near (hbyte 16) hfirst, within_of_near (hbyte 8) hsecond,
    within_of_near (hbyte 0) hthird⟩

theorem nearWord_of_near {n : Triple Double} {word : UInt32} (h : Near n word) :
    Hex.NearWord n word := by
  obtain ⟨hfirst, hsecond, hthird⟩ := h.within
  exact ⟨hfirst.mono (by norm_num), hsecond.mono (by norm_num), hthird.mono (by norm_num)⟩

/-- The table has no word with a high byte. -/
theorem mask_entry : ∀ entry ∈ table, entry.2 &&& 0xFFFFFF = entry.2 := by decide

theorem ofHex?_entry : ∀ entry ∈ table, ofHex? entry.2 = some entry.1 := by decide

theorem entry_eq_of_word : ∀ entry ∈ table, ∀ entry' ∈ table, entry.2 = entry'.2 →
    entry = entry' := by decide

theorem entry_eq_of_name : ∀ entry ∈ table, ∀ entry' ∈ table, entry.1 = entry'.1 →
    entry = entry' := by decide

theorem encode_of_near {n : Triple Double} {entry : String × UInt32} (hentry : entry ∈ table)
    (h : Near n entry.2) : Hex.encode n = entry.2 := by
  rw [Hex.encode_of_near (nearWord_of_near h), mask_entry entry hentry]

/-- Packing first and comparing afterwards finds what the search of the table finds. -/
theorem of?_eq_some_iff {n : Triple Double} {name : String} :
    of? n = some name ↔ ∃ entry ∈ table, entry.1 = name ∧ Near n entry.2 := by
  constructor
  · intro h
    obtain ⟨entry, hentry, hname, -, hnear⟩ := Spelling.exists_entry_of_of? h
    exact ⟨entry, hentry, hname, all_near_iff.mp hnear⟩
  · rintro ⟨entry, hentry, rfl, hnear⟩
    unfold of?
    dsimp only
    rw [encode_of_near hentry hnear, if_pos (all_near_iff.mpr hnear)]
    exact ofHex?_entry entry hentry

theorem near_unique {n : Triple Double} {entry entry' : String × UInt32} (hentry : entry ∈ table)
    (hentry' : entry' ∈ table) (h : Near n entry.2) (h' : Near n entry'.2) : entry = entry' := by
  refine entry_eq_of_word entry hentry entry' hentry' ?_
  rw [← encode_of_near hentry h, encode_of_near hentry' h']

end Names

/-! ## Narrowed channels -/

/-- A number that is near a byte after it was narrowed was near the byte before. -/
theorem Hex.nearByte_of_narrow {t : Format} {v : Double} {b : Nat} (hb : b ≤ 255)
    (h : ((v.convert t).convert .double).Within (b / 255) (1 / 10 ^ 5)) : NearByte v b := by
  obtain ⟨hfinite, hclose⟩ := h
  rw [isFinite_widen] at hfinite
  rw [value_widen] at hclose
  have hv : v.isFinite = true := by
    cases v with
    | nan => cases hfinite
    | infinity => cases hfinite
    | finite => rfl
  obtain ⟨h0, h1⟩ := byte_div_mem hb
  have herror : |(v.convert t).value - v.value| ≤ t.slack v.value :=
    (isRounding_convert hv).rounds.close hfinite
  have hslack := Format.slack_le_half (f := t) (le_refl |v.value|)
  -- what narrows to a number of the interval is hardly larger than one itself
  have hsize : |v.value| ≤ 2 := by
    have htriangle := abs_sub_abs_le_abs_sub v.value (v.convert t).value
    rw [abs_sub_comm] at htriangle
    have hnarrow := Within.abs_le ⟨hfinite, hclose⟩
    rw [abs_of_nonneg h0] at hnarrow
    linarith
  refine ⟨hv, le_trans (abs_sub_le v.value (v.convert t).value _) ?_⟩
  rw [abs_sub_comm v.value]
  linarith

namespace Color

variable {r : Range} {t : Format}

theorem toHex_of_near {c : Color r t} {entry : String × UInt32} (hentry : entry ∈ Names.table)
    (h : Names.Near (c.unscale.channels.map (Binary.convert .double)) entry.2) :
    c.toHex = entry.2 := by
  obtain ⟨hfirst, hsecond, hthird⟩ := h.within
  have hword : Hex.NearWord c.toNormalized entry.2 :=
    ⟨Hex.nearByte_of_narrow (Hex.byteAt_le _ _) hfirst,
      Hex.nearByte_of_narrow (Hex.byteAt_le _ _) hsecond,
      Hex.nearByte_of_narrow (Hex.byteAt_le _ _) hthird⟩
  unfold toHex
  rw [Hex.encode_of_near hword, Names.mask_entry entry hentry]

end Color

/-! ## Texts -/

namespace Spelling

variable {t : Format}

theorem write_eq_name_iff {n : Triple (Binary t)} {entry : String × UInt32}
    (hentry : entry ∈ Names.table) :
    write n = entry.1 ↔ Names.Near (n.map (Binary.convert .double)) entry.2 := by
  constructor
  · intro h
    have hmem : write n ∈ Names.all := h ▸ List.mem_map_of_mem hentry
    obtain ⟨name, hname⟩ := (write_mem_all_iff n).mp hmem
    obtain ⟨entry', hentry', rfl, hnear⟩ := Names.of?_eq_some_iff.mp hname
    rw [write_of_name hname] at h
    rwa [← Names.entry_eq_of_name entry' hentry' entry hentry h]
  · intro h
    exact write_of_name (Names.of?_eq_some_iff.mpr ⟨entry, hentry, rfl, h⟩)

/-- A triple is written as a name if and only if it is near an entry of the table, which is
then the only one, and its name is what is written. A color of any range and format that is
written as a name is packed as the color of that name, although the channels are narrowed
for the text and not for packing. -/
theorem names_detected :
    (∀ c : Triple Double,
      (write c ∈ Names.all ↔ ∃ entry ∈ Names.table, Names.Near c entry.2) ∧
      ∀ entry ∈ Names.table, Names.Near c entry.2 →
        write c = entry.1 ∧ ∀ entry' ∈ Names.table, Names.Near c entry'.2 → entry' = entry) ∧
    ∀ (r : Range) (t : Format) (c : Color r t), ∀ entry ∈ Names.table,
      c.toText = entry.1 → c.toHex = entry.2 := by
  refine ⟨fun c => ⟨⟨fun h => ?_, ?_⟩, fun entry hentry hnear => ⟨?_, ?_⟩⟩, ?_⟩
  · obtain ⟨name, hname⟩ := (write_mem_all_iff c).mp h
    obtain ⟨entry, hentry, -, hnear⟩ := Names.of?_eq_some_iff.mp hname
    exact ⟨entry, hentry, map_convert_double c ▸ hnear⟩
  · rintro ⟨entry, hentry, hnear⟩
    rw [(write_eq_name_iff hentry).mpr ((map_convert_double c).symm ▸ hnear)]
    exact List.mem_map_of_mem hentry
  · exact (write_eq_name_iff hentry).mpr ((map_convert_double c).symm ▸ hnear)
  · exact fun entry' hentry' hnear' => Names.near_unique hentry' hentry hnear' hnear
  · exact fun r t c entry hentry h => Color.toHex_of_near hentry ((write_eq_name_iff hentry).mp h)

/-- A number just above one, one with few digits, and a negative zero. -/
def nearlyOrange : Triple Double :=
  ⟨(Decimal.mk 10000005 (-7)).toBinary .double false,
    (Decimal.mk 6470588 (-7)).toBinary .double false, .signedZero true⟩

theorem names_detected_orange :
    ("orange", 0xFFA500) ∈ Names.table ∧ Names.Near nearlyOrange 0xFFA500 ∧
      write nearlyOrange = "orange" ∧
      (Color.ofHex 0xFFA500 : Color .percent .single).toText = "orange" ∧
      (Color.ofHex 0xFFA500 : Color .percent .single).toHex = 0xFFA500 := by
  have hentry : ("orange", 0xFFA500) ∈ Names.table := by decide
  have hnear : Names.Near nearlyOrange 0xFFA500 := Names.all_near_iff.mp (by decide +kernel)
  have htext : (Color.ofHex 0xFFA500 : Color .percent .single).toText = "orange" := by
    decide +kernel
  obtain ⟨htriples, hcolors⟩ := names_detected
  exact ⟨hentry, hnear, ((htriples nearlyOrange).2 _ hentry hnear).1, htext,
    hcolors .percent .single _ _ hentry htext⟩

end Spelling

end ColorAlgebra
