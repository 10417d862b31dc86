import ColorAlgebra.Proofs.Binary.Ordered
import ColorAlgebra.Proofs.Hex.Quantize

namespace ColorAlgebra.Hex

open Binary

variable {v w : Double}

/-! ## One byte -/

/-- The byte is the whole number nearest to the product, ties to even, where the product is
rounded once. -/
structure Quantizes (v : Double) (byte : Nat) : Prop where
  le_max : byte ≤ 255
  product : ((clampUnit v).mul byteMax).IsRounding (clamped v * 255)
  nearest : NearestMultiple 1 ((clampUnit v).mul byteMax).value byte

theorem encodeByte_nan (hv : v.isNaN = true) : encodeByte v = 0 := by
  unfold encodeByte
  rw [if_pos hv]

theorem encodeByte_le (v : Double) : (encodeByte v).toNat ≤ 255 := by
  cases hv : v.isNaN with
  | true =>
    rw [encodeByte_nan hv]
    exact Nat.zero_le 255
  | false => exact (nearest_encodeByte hv).1

theorem quantizes_encodeByte (hv : v.isNaN = false) : Quantizes v (encodeByte v).toNat where
  le_max := encodeByte_le v
  product := isRounding_product hv
  nearest := (nearest_encodeByte hv).2

/-- The product is rounded to a double, then to a byte, and the byte is divided. Apart from the
errors of rounding, the number is moved by half the distance between two bytes at most. -/
theorem within_encodeByte (hv : v.isNaN = false) :
    (decodeByte (encodeByte v).toNat).Within (clamped v) (1 / 510 + 1 / 2 ^ 50) := by
  obtain ⟨hbyte, hnear⟩ := nearest_encodeByte hv
  obtain ⟨hfinite, hdecode⟩ := within_decodeByte hbyte
  obtain ⟨h0, h1⟩ := clamped_mem v
  have hsize : |clamped v * 255| ≤ 255 := abs_le.mpr ⟨by linarith, by linarith⟩
  have hproduct := le_trans ((isRounding_product hv).rounds.close (product_mem hv).1)
    (Format.slack_le_double hsize)
  generalize ((clampUnit v).mul byteMax).value = m at hnear hproduct
  generalize (encodeByte v).toNat = b at hnear hfinite hdecode ⊢
  have hwhole : |m - b| ≤ 1 / 2 :=
    abs_le.mpr ⟨by linarith [hnear.low], by linarith [hnear.high]⟩
  have hbytes : |(b : ℚ) / 255 - clamped v| ≤ 1 / 510 + 256 / 255 / 2 ^ 53 := by
    obtain ⟨hlow, hhigh⟩ := abs_le.mp hproduct
    obtain ⟨hlow', hhigh'⟩ := abs_le.mp hwhole
    exact abs_le.mpr ⟨by linarith, by linarith⟩
  refine ⟨hfinite, ?_⟩
  calc |(decodeByte b).value - clamped v|
      ≤ |(decodeByte b).value - b / 255| + |(b : ℚ) / 255 - clamped v| := abs_sub_le _ _ _
    _ ≤ 2 / 2 ^ 53 + (1 / 510 + 256 / 255 / 2 ^ 53) := add_le_add hdecode hbytes
    _ ≤ 1 / 510 + 1 / 2 ^ 50 := by norm_num

/-! ## Order -/

theorem clamped_mono (h : v.atMost w = true) : clamped v ≤ clamped w := by
  rw [← ordered_false] at h
  cases v with
  | nan => cases (isNaN_of_ordered h).1
  | infinity s =>
    cases s with
    | false => rw [eq_infinity_of_ordered h]
    | true => exact (clamped_mem w).1
  | finite s n hn =>
    cases w with
    | nan => cases (isNaN_of_ordered h).2
    | infinity t =>
      cases t with
      | false => exact (clamped_mem _).2
      | true =>
        rw [ordered_false, ← ordered_true] at h
        cases eq_infinity_of_ordered h
    | finite t m hm =>
      exact max_le_max_left 0 (min_le_min_right 1 ((atMost_iff_value rfl rfl).mp h))

/-- Both roundings and the clamping follow the order of numbers. -/
theorem encodeByte_mono (h : v.atMost w = true) : (encodeByte v).toNat ≤ (encodeByte w).toNat := by
  obtain ⟨hv, hw⟩ := isNaN_of_ordered (s := false) h
  have hclamped : clamped v * 255 ≤ clamped w * 255 :=
    mul_le_mul_of_nonneg_right (clamped_mono h) (by norm_num)
  have hproduct := (isRounding_product hv).value_le (isRounding_product hw) (product_mem hv).1
    (product_mem hw).1 hclamped
  exact (nearest_encodeByte hv).2.mono one_pos (nearest_encodeByte hw).2 hproduct

/-! ## Words -/

theorem toNat_encode (n : Triple Double) :
    (encode n).toNat = (encodeByte n.first).toNat * 65536 + (encodeByte n.second).toNat * 256 +
      (encodeByte n.third).toNat := by
  have hpack := toNat_pack (encodeByte_le n.first) (encodeByte_le n.second) (encodeByte_le n.third)
  rwa [UInt32.ofNat_toNat, UInt32.ofNat_toNat, UInt32.ofNat_toNat] at hpack

theorem encode_lt (n : Triple Double) : (encode n).toNat < 2 ^ 24 := by
  have hfirst := encodeByte_le n.first
  have hsecond := encodeByte_le n.second
  have hthird := encodeByte_le n.third
  rw [toNat_encode]
  omega

/-- The bytes of a packed triple are those of its channels. -/
theorem byteAt_encode (n : Triple Double) :
    byteAt (encode n) 16 = (encodeByte n.first).toNat ∧
      byteAt (encode n) 8 = (encodeByte n.second).toNat ∧
      byteAt (encode n) 0 = (encodeByte n.third).toNat := by
  have hfirst := encodeByte_le n.first
  have hsecond := encodeByte_le n.second
  have hthird := encodeByte_le n.third
  obtain ⟨hhigh, hmiddle, hlow⟩ := byteAt_eq (encode n)
  rw [toNat_encode] at hhigh hmiddle hlow
  exact ⟨by omega, by omega, by omega⟩

/-- Every channel is unpacked from its own byte. -/
theorem decode_encode (n : Triple Double) :
    decode (encode n) = n.map fun v => decodeByte (encodeByte v).toNat := by
  obtain ⟨hfirst, hsecond, hthird⟩ := byteAt_encode n
  unfold decode
  rw [hfirst, hsecond, hthird]
  rfl

/-- A packed triple has nothing in the highest byte, so that it is packed again to itself. -/
theorem encode_decode_encode (n : Triple Double) : encode (decode (encode n)) = encode n := by
  have hlt := encode_lt n
  rw [encode_decode, ← UInt32.toNat_inj, toNat_mask]
  omega

/-- A packed triple is three bytes, each of which depends on one channel only. The byte of a
number is the one nearest to it, follows the order of numbers, and is zero for a NaN. Packing
what was unpacked changes nothing, and what is unpacked is close to the numbers that were
packed. -/
theorem encode_projects (n : Triple Double) :
    (encode n).toNat < 2 ^ 24 ∧
    (byteAt (encode n) 16 = (encodeByte n.first).toNat ∧
      byteAt (encode n) 8 = (encodeByte n.second).toNat ∧
      byteAt (encode n) 0 = (encodeByte n.third).toNat) ∧
    (∀ v, v.isNaN = false → Quantizes v (encodeByte v).toNat) ∧
    (∀ v, v.isNaN = true → encodeByte v = 0) ∧
    (∀ v w, v.atMost w = true → (encodeByte v).toNat ≤ (encodeByte w).toNat) ∧
    encode (decode (encode n)) = encode n ∧
    ∀ vx ∈ n.toList.zip (decode (encode n)).toList, vx.1.isNaN = false →
      vx.2.Within (clamped vx.1) (1 / 510 + 1 / 2 ^ 50) := by
  refine ⟨encode_lt n, byteAt_encode n, fun v => quantizes_encodeByte, fun v => encodeByte_nan,
    fun v w => encodeByte_mono, encode_decode_encode n, ?_⟩
  rw [decode_encode, Triple.forall_mem_zip]
  dsimp only [Triple.map]
  exact ⟨within_encodeByte, within_encodeByte, within_encodeByte⟩

/-- A half lies midway between two bytes, and the even one of them is packed. -/
theorem encode_projects_half :
    let half : Double := one.div (ofNat 2)
    let n : Triple Double := ⟨nan, infinity false, half⟩
    encode n = 0x00FF80 ∧ encode (decode (encode n)) = encode n ∧ half.isNaN = false ∧
      Quantizes half (encodeByte half).toNat ∧ encodeByte nan = 0 ∧
      half.atMost (infinity false) = true ∧
      (encodeByte half).toNat ≤ (encodeByte (infinity false)).toNat := by
  intro half n
  have hhalf : half.isNaN = false := by decide +kernel
  have horder : half.atMost (infinity false) = true := by decide +kernel
  obtain ⟨-, -, hquantizes, hnan, hmono, hagain, -⟩ := encode_projects n
  exact ⟨by decide +kernel, hagain, hhalf, hquantizes half hhalf, hnan nan rfl, horder,
    hmono half _ horder⟩

end ColorAlgebra.Hex
