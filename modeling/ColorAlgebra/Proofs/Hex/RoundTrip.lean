import ColorAlgebra.Palette.Basic
import ColorAlgebra.Proofs.Hex.Quantize

/-!
# Round trip of packed colors

A packed color that is unpacked into a range is scaled and narrowed, and packing it again
widens and unscales it. Each step rounds, and narrowing may round a good deal: a half has
eleven bits. All the errors together stay below half the distance between two bytes, as
long as the range is wide enough for its numbers not to vanish and narrow enough for them
not to overflow.
-/

namespace ColorAlgebra

/-! ## Ranges -/

namespace Range

/-- A full channel is a number that is neither too small nor too large for any format. -/
structure Moderate (r : Range) : Prop where
  finite : r.full.isFinite = true
  one_le : 1 ≤ r.full.value
  le : r.full.value ≤ 2 ^ 14

/-- The ranges that have a name. -/
def standard : List Range := [normal, byte, wide, percent]

theorem moderate_of_full {r : Range} {n : Nat} (hr : r.full = .ofNat n) (h1 : 1 ≤ n)
    (h : n ≤ 2 ^ 14) : r.Moderate := by
  have hn : n ≤ 2 ^ Format.double.precision := Nat.le_trans h (by decide)
  have hvalue : r.full.value = n := by rw [hr, Binary.value_ofNat hn]
  refine ⟨by rw [hr, Binary.isFinite_ofNat hn], ?_, ?_⟩
  · rw [hvalue]
    exact_mod_cast h1
  · rw [hvalue]
    exact_mod_cast h

theorem moderate_of_mem {r : Range} (hr : r ∈ standard) : r.Moderate := by
  have hcases : r = normal ∨ r = byte ∨ r = wide ∨ r = percent := by simpa [standard] using hr
  rcases hcases with rfl | rfl | rfl | rfl
  · exact moderate_of_full (n := 1) (by dsimp only [normal, Binary.one]) (by decide) (by decide)
  · exact moderate_of_full (n := 255) (by dsimp only [byte]) (by decide) (by decide)
  · exact moderate_of_full (n := 256) (by dsimp only [wide]) (by decide) (by decide)
  · exact moderate_of_full (n := 100) (by dsimp only [percent]) (by decide) (by decide)

end Range

/-! ## The steps -/

theorem Binary.Within.widen {t : Format} {x : Binary t} {q e : ℚ} (h : x.Within q e) :
    (x.convert .double).Within q e :=
  ⟨(isFinite_widen x).trans h.finite, (value_widen x).symm ▸ h.close⟩

section Steps

open Binary

variable {r : Range} {q : ℚ}

/-- Scaling a number that was rounded once. -/
theorem Range.within_scale {v : Double} (hr : r.Moderate) (hv : v.Within q (2 / 2 ^ 53))
    (h0 : 0 ≤ q) (h1 : q ≤ 1) :
    (r.scale v).Within (q * r.full.value) (5 * r.full.value / 2 ^ 53) := by
  have hround := (isRounding_mul hv.finite hr.finite).rounds
  obtain ⟨-, hone, hle⟩ := hr
  unfold Range.scale
  generalize r.full.value = full at hround hone hle ⊢
  have hfull : |full| = full := abs_of_pos (by linarith)
  have hexact : |v.value * full - q * full| ≤ 2 / 2 ^ 53 * full := by
    rw [← sub_mul, abs_mul, hfull]
    exact mul_le_mul_of_nonneg_right hv.close (by linarith)
  have hvalue : |v.value| ≤ 2 := by
    have hsize := hv.abs_le
    rw [abs_of_nonneg h0] at hsize
    exact le_trans hsize (by linarith)
  have hsize : |v.value * full| ≤ 2 * full := by
    rw [abs_mul, hfull]
    exact mul_le_mul_of_nonneg_right hvalue (by linarith)
  exact (hround.within hexact (le_trans hsize (by linarith))
    (Format.slack_le_double hsize)).mono (by linarith)

/-- Narrowing what was scaled, to any format. -/
theorem Binary.within_narrow {x : Double} {full : ℚ} (t : Format) (hone : 1 ≤ full)
    (hle : full ≤ 2 ^ 14) (hx : x.Within (q * full) (5 * full / 2 ^ 53)) (h0 : 0 ≤ q)
    (h1 : q ≤ 1) : (x.convert t).Within (q * full) (full / 1000) := by
  have hround : (x.convert t).Rounds x.value := (isRounding_convert hx.finite).rounds
  have hexact : q * full ≤ full := mul_le_of_le_one_left (by linarith) h1
  have hsize : |x.value| ≤ 2 * full := by
    have hnear := hx.abs_le
    rw [abs_of_nonneg (mul_nonneg h0 (by linarith))] at hnear
    exact le_trans hnear (by linarith)
  exact (hround.within hx.close (le_trans hsize (by linarith))
    (Format.slack_le_half hsize)).mono (by linarith)

/-- Unscaling what was narrowed. -/
theorem Range.within_unscale {w : Double} (hr : r.Moderate)
    (hw : w.Within (q * r.full.value) (r.full.value / 1000)) (h0 : 0 ≤ q) (h1 : q ≤ 1) :
    (r.unscale w).Within q (1 / 600) := by
  have hpos : 0 < r.full.value := lt_of_lt_of_le zero_lt_one hr.one_le
  have hround := (isRounding_div hw.finite hr.finite (ne_of_gt hpos)).rounds
  unfold Range.unscale
  generalize r.full.value = full at hround hpos hw
  have hclose : |w.value / full - q| ≤ 1 / 1000 := by
    have hquotient : w.value / full - q = (w.value - q * full) / full := by field_simp
    rw [hquotient, abs_div, abs_of_pos hpos, div_le_iff₀ hpos]
    exact le_trans hw.close (le_of_eq (by ring))
  have hsize : |w.value / full| ≤ 2 := by
    obtain ⟨hlow, hhigh⟩ := abs_le.mp hclose
    exact abs_le.mpr ⟨by linarith, by linarith⟩
  exact (hround.within hclose (le_trans hsize (by norm_num))
    (Format.slack_le_double hsize)).mono (by norm_num)

/-- One byte, through all the steps. -/
theorem Range.nearByte_roundTrip (hr : r.Moderate) (t : Format) {b : Nat} (hb : b ≤ 255) :
    Hex.NearByte (r.unscale (((r.scale (Hex.decodeByte b)).convert t).convert .double)) b := by
  obtain ⟨h0, h1⟩ := Hex.byte_div_mem hb
  have hscaled := within_scale hr (Hex.within_decodeByte hb) h0 h1
  have hnarrowed := within_narrow t hr.one_le hr.le hscaled h0 h1
  exact within_unscale hr hnarrowed.widen h0 h1

end Steps

/-! ## Colors and palettes -/

namespace Color

variable {r : Range} {t : Format}

theorem nearWord_ofHex (hr : r.Moderate) (word : UInt32) :
    Hex.NearWord (ofHex word : Color r t).toNormalized word := by
  unfold ofHex toNormalized ofNormalized ofDoubles toDoubles Hex.decode Triple.map Hex.NearWord
  dsimp only
  exact ⟨Range.nearByte_roundTrip hr t (Hex.byteAt_le _ _),
    Range.nearByte_roundTrip hr t (Hex.byteAt_le _ _),
    Range.nearByte_roundTrip hr t (Hex.byteAt_le _ _)⟩

/-- A packed color comes back with its highest byte cleared, whatever is rounded on the
way. -/
theorem toHex_ofHex (hr : r.Moderate) (word : UInt32) :
    (ofHex word : Color r t).toHex = word &&& 0xFFFFFF :=
  Hex.encode_of_near (nearWord_ofHex hr word)

end Color

namespace Palette

/-- In a range that has a name and in every format, a list of packed colors comes back with
the highest byte of each cleared. -/
theorem toHexes_ofHexes {r : Range} (hr : r ∈ Range.standard) (t : Format)
    (words : List UInt32) :
    (toHexes (ofHexes words : Palette r t)).length = words.length ∧
      (∀ i : Nat, (toHexes (ofHexes words : Palette r t))[i]? =
        words[i]?.map fun word => word &&& 0xFFFFFF) ∧
      ∀ word, (Color.ofHex word : Color r t).toHex = word &&& 0xFFFFFF := by
  have hmoderate := Range.moderate_of_mem hr
  have hwords : toHexes (ofHexes words : Palette r t) =
      words.map fun word => word &&& 0xFFFFFF := by
    unfold toHexes ofHexes
    rw [List.map_map]
    exact List.map_congr_left fun word _ => Color.toHex_ofHex hmoderate word
  refine ⟨?_, fun i => ?_, fun word => Color.toHex_ofHex hmoderate word⟩
  · rw [hwords, List.length_map]
  · rw [hwords, List.getElem?_map]

theorem toHexes_ofHexes_wide :
    Range.wide ∈ Range.standard ∧
      (toHexes (ofHexes [0xFF7F80FF, 0x0001FE03] : Palette .wide .half))[1]? = some 0x0001FE03 := by
  have hwide : Range.wide ∈ Range.standard := by simp [Range.standard]
  exact ⟨hwide, (toHexes_ofHexes hwide .half [0xFF7F80FF, 0x0001FE03]).2.1 1⟩

end Palette

end ColorAlgebra
