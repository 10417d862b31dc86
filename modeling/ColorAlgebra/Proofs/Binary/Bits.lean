import ColorAlgebra.Binary.Bits
import ColorAlgebra.Proofs.Binary.Narrowing

namespace ColorAlgebra.Binary

variable {x : Double} {n : Nat}

/-! ## Magnitudes -/

/-- The exponent field stays below that of the infinities, and the significand below twice the
leading bit. -/
theorem step_lt (hn : Format.double.Representable n) : Format.double.step n < fullExponent - 1 := by
  have hle := hn.step_le
  have htop : Format.double.top - Format.double.precision < fullExponent - 1 := by decide
  omega

theorem significand_double_lt (n : Nat) : n / 2 ^ Format.double.step n < 2 ^ (fractionBits + 1) :=
  Format.double.significand_lt n

/-- A significand without its leading bit is not shifted. -/
theorem step_eq_zero (h : n / 2 ^ Format.double.step n < 2 ^ fractionBits) :
    Format.double.step n = 0 := by
  by_contra hne
  have hlow : 2 ^ (Format.double.precision + (Format.double.step n - 1)) ≤ n :=
    Format.two_pow_le_of_lt_step (Nat.zero_le _) (Nat.sub_lt (Nat.pos_of_ne_zero hne) Nat.one_pos)
  have hexponent : Format.double.precision + (Format.double.step n - 1) =
      fractionBits + Format.double.step n := by
    have hprecision : Format.double.precision = fractionBits + 1 := rfl
    omega
  rw [hexponent, Nat.pow_add] at hlow
  exact absurd h (Nat.not_lt.mpr ((Nat.le_div_iff_mul_le (Nat.two_pow_pos _)).mpr hlow))

theorem magnitudeBits_lt (x : Double) : x.magnitudeBits < signBit := by
  cases x with
  | nan => decide
  | infinity => exact show fullExponent * 2 ^ fractionBits < signBit by decide
  | finite s n hn =>
    have hstep := step_lt hn
    have hsignificand := significand_double_lt n
    unfold magnitudeBits
    dsimp only
    generalize n / 2 ^ Format.double.step n = k at hsignificand
    unfold fullExponent at hstep
    unfold fractionBits signBit at *
    omega

/-! ## Reading -/

/-- What a pattern without its sign is read as. -/
def readMagnitude (negative : Bool) (m : Nat) : Double :=
  let exponent := m / 2 ^ fractionBits
  let fraction := m % 2 ^ fractionBits
  if exponent = fullExponent then
    if fraction = 0 then infinity negative else nan
  else if exponent = 0 then
    ofUnits negative fraction
  else
    ofUnits negative ((2 ^ fractionBits + fraction) * 2 ^ (exponent - 1))

theorem ofBits_eq_readMagnitude {bits : UInt64} {s : Bool} {m : Nat} (hm : m < signBit)
    (hbits : bits.toNat = m + if s then signBit else 0) : ofBits bits = readMagnitude s m := by
  have hsign : decide (signBit ≤ bits.toNat) = s := by
    rw [hbits]
    cases s with
    | false => exact decide_eq_false (Nat.not_le.mpr hm)
    | true => exact decide_eq_true (Nat.le_add_left _ _)
  have hexponent : bits.toNat / 2 ^ fractionBits % 2 ^ exponentBits = m / 2 ^ fractionBits := by
    rw [hbits]
    unfold fractionBits exponentBits
    unfold signBit at hm ⊢
    cases s <;> simp only [if_true, Bool.false_eq_true, if_false] <;> omega
  have hfraction : bits.toNat % 2 ^ fractionBits = m % 2 ^ fractionBits := by
    rw [hbits]
    unfold fractionBits signBit
    cases s <;> simp only [if_true, Bool.false_eq_true, if_false] <;> omega
  unfold ofBits readMagnitude
  rw [hsign, hexponent, hfraction]

theorem readMagnitude_finite (s : Bool) (hn : Format.double.Representable n) :
    readMagnitude s (finite s n hn).magnitudeBits = finite s n hn := by
  have hstep := step_lt hn
  have hsignificand := significand_double_lt n
  have hunits : n / 2 ^ Format.double.step n * 2 ^ Format.double.step n = n :=
    Nat.div_mul_cancel hn.onGrid
  unfold readMagnitude magnitudeBits
  dsimp only
  rcases Nat.lt_or_ge (n / 2 ^ Format.double.step n) (2 ^ fractionBits) with hsmall | hfull
  · have hzero := step_eq_zero hsmall
    rw [hzero, Nat.pow_zero, Nat.div_one] at hsmall ⊢
    rw [Nat.zero_mul, Nat.zero_add, Nat.div_eq_of_lt hsmall, Nat.mod_eq_of_lt hsmall,
      if_neg (by decide), if_pos rfl]
    exact ofUnits_of_representable s hn
  · generalize hk : n / 2 ^ Format.double.step n = k at *
    have hexponent : (Format.double.step n * 2 ^ fractionBits + k) / 2 ^ fractionBits =
        Format.double.step n + 1 := by
      unfold fractionBits at *
      omega
    have hfraction : (Format.double.step n * 2 ^ fractionBits + k) % 2 ^ fractionBits =
        k - 2 ^ fractionBits := by
      unfold fractionBits at *
      omega
    rw [hexponent, hfraction, if_neg (by omega), if_neg (Nat.succ_ne_zero _),
      Nat.add_sub_cancel' hfull, Nat.add_sub_cancel, hunits]
    exact ofUnits_of_representable s hn

theorem readMagnitude_magnitudeBits (hx : x.isNaN = false) :
    readMagnitude x.isNegative x.magnitudeBits = x := by
  cases x with
  | nan => cases hx
  | infinity s => cases s <;> decide
  | finite s n hn => exact readMagnitude_finite s hn

/-- A double is read back from its pattern, zeros and infinities with their signs. -/
theorem ofBits_toBits (hx : x.isNaN = false) : ofBits x.toBits = x := by
  have hlt := x.magnitudeBits_lt
  have hbits : x.toBits.toNat = x.magnitudeBits + if x.isNegative then signBit else 0 := by
    refine (UInt64.toNat_ofNat').trans (Nat.mod_eq_of_lt ?_)
    unfold signBit at *
    split <;> omega
  rw [ofBits_eq_readMagnitude hlt hbits, readMagnitude_magnitudeBits hx]

end ColorAlgebra.Binary
