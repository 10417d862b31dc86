import ColorAlgebra.Color.Hex
import ColorAlgebra.Proofs.Binary.Monotone
import ColorAlgebra.Proofs.Binary.Whole
import Mathlib.Algebra.Order.Group.MinMax

/-!
# Quantizing to bytes

A channel is packed as the byte whose number is nearest, after it has been moved into the
normalized interval. The product that finds the byte is rounded, so a number is sure of
its byte only if it stays a little clear of the middle between two bytes.
-/

namespace ColorAlgebra

namespace Hex

open Binary

/-- The number is near that of a byte. Half the distance between two bytes is `1 / 510`. -/
def NearByte (v : Double) (byte : Nat) : Prop := v.Within (byte / 255) (1 / 600)

/-- Every channel is near its byte of the word. -/
def NearWord (n : Triple Double) (word : UInt32) : Prop :=
  NearByte n.first (byteAt word 16) ∧ NearByte n.second (byteAt word 8) ∧
    NearByte n.third (byteAt word 0)

theorem value_byteMax : byteMax.isFinite = true ∧ byteMax.value = 255 := by
  have h : 255 ≤ 2 ^ Format.double.precision := by decide
  exact ⟨isFinite_ofNat h, value_ofNat h⟩

theorem byte_div_mem {b : Nat} (hb : b ≤ 255) : 0 ≤ (b : ℚ) / 255 ∧ (b : ℚ) / 255 ≤ 1 := by
  have hcast : (b : ℚ) ≤ 255 := by exact_mod_cast hb
  exact ⟨div_nonneg (Nat.cast_nonneg b) (by norm_num), by linarith⟩

/-! ## The normalized interval -/

/-- The number of the normalized interval that is nearest to a value. A NaN is not near any. -/
def clamped : Double → ℚ
  | nan => 0
  | infinity negative => if negative then 0 else 1
  | finite negative units h => Max.max 0 (Min.min (finite negative units h).value 1)

theorem clamped_of_isFinite {v : Double} (hv : v.isFinite = true) :
    clamped v = Max.max 0 (Min.min v.value 1) := by
  obtain ⟨s, n, hn, rfl⟩ := exists_finite hv
  rfl

theorem clamped_mem (v : Double) : 0 ≤ clamped v ∧ clamped v ≤ 1 := by
  cases v with
  | nan => exact ⟨le_rfl, zero_le_one⟩
  | infinity s => cases s <;> exact ⟨by norm_num [clamped], by norm_num [clamped]⟩
  | finite s n hn => exact ⟨le_max_left _ _, max_le zero_le_one (min_le_right _ _)⟩

theorem value_clampUnit {v : Double} (hv : v.isNaN = false) :
    (clampUnit v).isFinite = true ∧ (clampUnit v).value = clamped v := by
  cases v with
  | nan => cases hv
  | infinity s =>
    cases s with
    | false =>
      have hone : clampUnit (infinity false) = one := by decide +kernel
      rw [hone]
      exact ⟨isFinite_one, value_one⟩
    | true =>
      have hzero : clampUnit (infinity true) = zero := by decide +kernel
      rw [hzero]
      exact ⟨rfl, value_zero⟩
  | finite s n hn =>
    rw [clamped_of_isFinite rfl]
    generalize hx : (finite s n hn : Double) = x
    have hfinite : x.isFinite = true := by rw [← hx]; rfl
    unfold clampUnit
    split
    · next hless =>
      rw [less_iff_value hfinite rfl, value_zero] at hless
      refine ⟨rfl, ?_⟩
      rw [value_zero, max_eq_left (le_trans (min_le_left _ _) (le_of_lt hless))]
    · next hnotless =>
      rw [less_iff_value hfinite rfl, value_zero, not_lt] at hnotless
      split
      · next hless =>
        rw [less_iff_value isFinite_one hfinite, value_one] at hless
        refine ⟨isFinite_one, ?_⟩
        rw [value_one, min_eq_right (le_of_lt hless), max_eq_right zero_le_one]
      · next hnotless' =>
        rw [less_iff_value isFinite_one hfinite, value_one, not_lt] at hnotless'
        refine ⟨hfinite, ?_⟩
        rw [min_eq_left hnotless', max_eq_right hnotless]

/-- Moving a number into the normalized interval brings it no farther from a number of the
interval. -/
theorem abs_clamped_sub_le {v : Double} {q e : ℚ} (h : v.Within q e) (h0 : 0 ≤ q) (h1 : q ≤ 1) :
    |clamped v - q| ≤ e := by
  have hself : q = Max.max (Min.min q 1) 0 := by rw [min_eq_left h1, max_eq_left h0]
  rw [clamped_of_isFinite h.finite, max_comm]
  calc |Max.max (Min.min v.value 1) 0 - q|
      = |Max.max (Min.min v.value 1) 0 - Max.max (Min.min q 1) 0| := by rw [← hself]
    _ ≤ |Min.min v.value 1 - Min.min q 1| := abs_max_sub_max_le_abs _ _ _
    _ ≤ Max.max |v.value - q| |1 - 1| := abs_min_sub_min_le_max _ _ _ _
    _ ≤ e := by
      rw [sub_self, abs_zero, max_eq_left (abs_nonneg _)]
      exact h.close

/-! ## One byte -/

/-- The rounded product that is rounded again to the byte. -/
theorem isRounding_product {v : Double} (hv : v.isNaN = false) :
    ((clampUnit v).mul byteMax).IsRounding (clamped v * 255) := by
  obtain ⟨hfinite, hvalue⟩ := value_clampUnit hv
  obtain ⟨hmax, hmaxvalue⟩ := value_byteMax
  have hround := isRounding_mul hfinite hmax
  rwa [hvalue, hmaxvalue] at hround

theorem product_mem {v : Double} (hv : v.isNaN = false) :
    ((clampUnit v).mul byteMax).isFinite = true ∧ 0 ≤ ((clampUnit v).mul byteMax).value ∧
      ((clampUnit v).mul byteMax).value ≤ 255 := by
  obtain ⟨hmax, hmaxvalue⟩ := value_byteMax
  obtain ⟨h0, h1⟩ := clamped_mem v
  have hround := isRounding_product hv
  have hlow : (zero : Double).value ≤ clamped v * 255 := by
    rw [value_zero]
    linarith
  have hhigh : clamped v * 255 ≤ byteMax.value := by
    rw [hmaxvalue]
    linarith
  have hfinite := hround.isFinite_of_between (z := zero) rfl hmax hlow hhigh
  have hle := hround.value_le (.self hmax) hfinite hmax hhigh
  rw [hmaxvalue] at hle
  exact ⟨hfinite, hround.value_nonneg hfinite (by linarith), hle⟩

/-- A number between the least and the greatest byte is rounded to the nearest one, ties to
even. -/
theorem toIntWithin_roundEven {m : Double} (hm : m.isFinite = true) (h0 : 0 ≤ m.value)
    (hmax : m.value ≤ 255) : ∃ b ≤ 255, NearestMultiple 1 m.value b ∧
      m.roundEven.toIntWithin 0 0xffffffff = (b : Int) := by
  obtain ⟨hfinite, hvalue⟩ := (exactly_roundEven m).finite hm
  have hnear := isNearestMultiple_nearestEven m.value
  rw [← sign_false_mul m.value] at hnear
  obtain ⟨b, hb, hnear⟩ := (isNearestMultiple_sign_iff one_pos h0 false).mp hnear
  rw [sign_false_mul] at hb
  have hle : b ≤ 255 := hnear.mono one_pos (.of_eq one_pos (by norm_num)) hmax
  refine ⟨b, hle, hnear, ?_⟩
  rw [toIntWithin_of_isFinite hfinite, hvalue, towardZero_intCast, hb]
  show Max.max (0 : Int) (Min.min 0xffffffff (b : Int)) = b
  omega

/-- The byte is the whole number that is nearest to the rounded product, ties to even. -/
theorem nearest_encodeByte {v : Double} (hv : v.isNaN = false) :
    (encodeByte v).toNat ≤ 255 ∧
      NearestMultiple 1 ((clampUnit v).mul byteMax).value (encodeByte v).toNat := by
  obtain ⟨hfinite, h0, hmax⟩ := product_mem hv
  obtain ⟨b, hb, hnear, hint⟩ := toIntWithin_roundEven hfinite h0 hmax
  unfold encodeByte
  rw [if_neg (by rw [hv]; exact Bool.false_ne_true), hint, Int.toNat_natCast, UInt32.toNat_ofNat',
    Nat.mod_eq_of_lt (Nat.lt_of_le_of_lt hb (by decide))]
  exact ⟨hb, hnear⟩

/-- A number near a byte is packed as that byte. -/
theorem encodeByte_of_near {v : Double} {b : Nat} (h : NearByte v b) (hb : b ≤ 255) :
    encodeByte v = UInt32.ofNat b := by
  have hnan : v.isNaN = false := by
    obtain ⟨_, _, _, rfl⟩ := exists_finite h.finite
    rfl
  obtain ⟨hb0, hb1⟩ := byte_div_mem hb
  obtain ⟨hlow, hhigh⟩ := abs_le.mp (abs_clamped_sub_le h hb0 hb1)
  obtain ⟨h0, h1⟩ := clamped_mem v
  have hexact : |clamped v * 255 - b| ≤ 255 / 600 := abs_le.mpr ⟨by linarith, by linarith⟩
  have hsize : |clamped v * 255| ≤ 255 := abs_le.mpr ⟨by linarith, by linarith⟩
  obtain ⟨-, herror⟩ := (isRounding_product hnan).rounds.within hexact
    (le_trans hsize (by norm_num)) (Format.slack_le_double hsize)
  obtain ⟨hbelow, habove⟩ := abs_lt.mp (lt_of_le_of_lt herror
    (show (255 / 600 + (255 / 2 ^ 53 + 1 / 2 ^ 53) : ℚ) < 1 / 2 by norm_num))
  have hbyte : (encodeByte v).toNat = b :=
    (nearest_encodeByte hnan).2.unique one_pos (.of_lt (by linarith) (by linarith))
  rw [← hbyte, UInt32.ofNat_toNat]

/-! ## Words -/

theorem toNat_pack {x y z : Nat} (hx : x ≤ 255) (hy : y ≤ 255) (hz : z ≤ 255) :
    ((((UInt32.ofNat x <<< 8) ||| UInt32.ofNat y) <<< 8) ||| UInt32.ofNat z).toNat =
      x * 65536 + y * 256 + z := by
  have hor : ∀ {a b : Nat}, b ≤ 255 → a <<< 8 ||| b = a * 256 + b := fun hb => by
    rw [← Nat.shiftLeft_add_eq_or_of_lt (Nat.lt_succ_of_le hb : _ < 2 ^ 8), Nat.shiftLeft_eq]
  simp only [UInt32.toNat_or, UInt32.toNat_shiftLeft, UInt32.toNat_ofNat']
  show ((x % 2 ^ 32) <<< 8 % 2 ^ 32 ||| y % 2 ^ 32) <<< 8 % 2 ^ 32 ||| z % 2 ^ 32 = _
  have hxy : x <<< 8 < 2 ^ 32 := by rw [Nat.shiftLeft_eq]; omega
  rw [Nat.mod_eq_of_lt (a := x) (by omega), Nat.mod_eq_of_lt (a := y) (by omega),
    Nat.mod_eq_of_lt (a := z) (by omega), Nat.mod_eq_of_lt hxy, hor hy,
    Nat.mod_eq_of_lt (by rw [Nat.shiftLeft_eq]; omega), hor hz]
  omega

/-- The three lower bytes of a word. -/
theorem toNat_mask (word : UInt32) :
    (word &&& 0xFFFFFF).toNat =
      word.toNat / 65536 % 256 * 65536 + word.toNat / 256 % 256 * 256 + word.toNat % 256 := by
  have hmask : word.toNat &&& 0xFFFFFF = word.toNat % 2 ^ 24 :=
    Nat.and_two_pow_sub_one_eq_mod word.toNat 24
  rw [UInt32.toNat_and]
  refine Eq.trans hmask ?_
  omega

theorem byteAt_eq (word : UInt32) :
    byteAt word 16 = word.toNat / 65536 % 256 ∧ byteAt word 8 = word.toNat / 256 % 256 ∧
      byteAt word 0 = word.toNat % 256 := by
  have hmask : ∀ n : Nat, n &&& 255 = n % 256 := fun n => Nat.and_two_pow_sub_one_eq_mod n 8
  unfold byteAt
  simp only [UInt32.toNat_and, UInt32.toNat_shiftRight]
  refine ⟨?_, ?_, ?_⟩
  · show word.toNat >>> 16 &&& 255 = _
    rw [hmask, Nat.shiftRight_eq_div_pow]
  · show word.toNat >>> 8 &&& 255 = _
    rw [hmask, Nat.shiftRight_eq_div_pow]
  · exact hmask word.toNat

theorem byteAt_le (word shift : UInt32) : byteAt word shift ≤ 255 := by
  unfold byteAt
  rw [UInt32.toNat_and]
  exact Nat.and_le_right

theorem encode_of_near {n : Triple Double} {word : UInt32} (h : NearWord n word) :
    encode n = word &&& 0xFFFFFF := by
  obtain ⟨hfirst, hsecond, hthird⟩ := h
  obtain ⟨hhigh, hmiddle, hlow⟩ := byteAt_eq word
  unfold encode
  rw [encodeByte_of_near hfirst (byteAt_le _ _), encodeByte_of_near hsecond (byteAt_le _ _),
    encodeByte_of_near hthird (byteAt_le _ _), ← UInt32.toNat_inj,
    toNat_pack (byteAt_le _ _) (byteAt_le _ _) (byteAt_le _ _), hhigh, hmiddle, hlow, toNat_mask]

/-! ## Unpacking -/

/-- The number of a byte is rounded once. -/
theorem within_decodeByte {b : Nat} (hb : b ≤ 255) :
    (decodeByte b).Within (b / 255) (2 / 2 ^ 53) := by
  have hbyte : b ≤ 2 ^ Format.double.precision := Nat.le_trans hb (by decide)
  obtain ⟨hmax, hvalue⟩ := value_byteMax
  have hround := (isRounding_div (isFinite_ofNat hbyte) hmax (by rw [hvalue]; norm_num)).rounds
  rw [value_ofNat hbyte, hvalue] at hround
  obtain ⟨hb0, hb1⟩ := byte_div_mem hb
  have hsize : |(b : ℚ) / 255| ≤ 1 := by rwa [abs_of_nonneg hb0]
  have hexact : |(b : ℚ) / 255 - b / 255| ≤ 0 := by rw [sub_self, abs_zero]
  unfold decodeByte
  exact (hround.within hexact (le_trans hsize (by norm_num))
    (Format.slack_le_double hsize)).mono (by norm_num)

theorem nearByte_decodeByte {b : Nat} (hb : b ≤ 255) : NearByte (decodeByte b) b := by
  unfold NearByte
  exact (within_decodeByte hb).mono (by norm_num)

theorem nearWord_decode (word : UInt32) : NearWord (decode word) word := by
  unfold NearWord decode
  dsimp only
  exact ⟨nearByte_decodeByte (byteAt_le _ _), nearByte_decodeByte (byteAt_le _ _),
    nearByte_decodeByte (byteAt_le _ _)⟩

theorem encode_decode (word : UInt32) : encode (decode word) = word &&& 0xFFFFFF :=
  encode_of_near (nearWord_decode word)

end Hex

end ColorAlgebra
