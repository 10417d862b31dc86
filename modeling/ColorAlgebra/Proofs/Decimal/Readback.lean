import ColorAlgebra.Decimal.Layout
import ColorAlgebra.Proofs.Decimal.Grammar

namespace ColorAlgebra

namespace Numeral

/-! ## Digits -/

theorem isDigit_toDigits (n : Nat) : ∀ c ∈ Nat.toDigits 10 n, c.isDigit = true := by
  intro c hc
  exact Nat.isDigit_of_mem_toDigits (by decide) (by decide) hc

theorem isDigit_replicate_zero (n : Nat) : ∀ c ∈ List.replicate n '0', c.isDigit = true := by
  intro c hc
  rw [List.eq_of_mem_replicate hc]
  decide

theorem isDigit_append {a b : List Char} (ha : ∀ c ∈ a, c.isDigit = true)
    (hb : ∀ c ∈ b, c.isDigit = true) : ∀ c ∈ a ++ b, c.isDigit = true := by
  intro c hc
  rcases List.mem_append.mp hc with h | h
  · exact ha c h
  · exact hb c h

/-! ## Numerals without sign and exponent -/

/-- The text stands for the decimal without a sign or an exponent. -/
inductive Positional : List Char → Decimal → Prop
  | whole {digits : List Char} : digits ≠ [] → (∀ c ∈ digits, c.isDigit = true) →
      Positional digits ⟨Nat.ofDigitChars 10 digits 0, 0⟩
  | fraction {whole fraction : List Char} : whole ≠ [] → (∀ c ∈ whole, c.isDigit = true) →
      (∀ c ∈ fraction, c.isDigit = true) →
      Positional (whole ++ '.' :: fraction)
        ⟨Nat.ofDigitChars 10 (whole ++ fraction) 0, -fraction.length⟩

namespace Positional

variable {text : List Char} {d : Decimal}

theorem mantissaText (h : Positional text d) : MantissaText text d := by
  cases h with
  | whole hne hdigits => exact .whole hne hdigits
  | fraction hne hwhole hfraction =>
    exact .point (List.append_ne_nil_of_left_ne_nil hne _) hwhole hfraction

theorem read?_eq (h : Positional text d) (negative : Bool) :
    read? ((if negative then ['-'] else []) ++ text) = some ⟨negative, d⟩ := by
  have hsign : SignText (if negative then ['-'] else []) negative := by
    cases negative with
    | false => exact .absent
    | true => exact .minus
  have hdenotes := Denotes.parts hsign h.mantissaText .absent
  rw [List.append_nil, Int.zero_add] at hdenotes
  exact hdenotes.read?

theorem isDigit_or_point (h : Positional text d) {c : Char} (hc : c ∈ text) :
    c.isDigit = true ∨ c = '.' := by
  cases h with
  | whole _ hdigits => exact .inl (hdigits c hc)
  | fraction _ hwhole hfraction =>
    rcases List.mem_append.mp hc with h | h
    · exact .inl (hwhole c h)
    · rcases List.mem_cons.mp h with h | h
      · exact .inr h
      · exact .inl (hfraction c h)

end Positional

/-! ## Written decimals -/

section
variable {digits : List Char} (hdigits : ∀ c ∈ digits, c.isDigit = true) (hne : digits ≠ [])
include hdigits hne

/-- Zeros up to the point become digits. -/
theorem positional_zeros (zeros : Nat) :
    Positional (digits ++ List.replicate zeros '0')
      ⟨10 ^ zeros * Nat.ofDigitChars 10 digits 0, 0⟩ := by
  have hall := isDigit_append hdigits (isDigit_replicate_zero zeros)
  have h := Positional.whole (List.append_ne_nil_of_left_ne_nil hne _) hall
  rwa [Nat.ofDigitChars_append, Nat.ofDigitChars_replicate_zero] at h

/-- A point between digits moves none of them. -/
theorem positional_point {places : Nat} (hplaces : places < digits.length) :
    Positional (digits.take (digits.length - places) ++ '.' :: digits.drop (digits.length - places))
      ⟨Nat.ofDigitChars 10 digits 0, -places⟩ := by
  have htake : ∀ c ∈ digits.take (digits.length - places), c.isDigit = true :=
    fun c hc => hdigits c (List.mem_of_mem_take hc)
  have hdrop : ∀ c ∈ digits.drop (digits.length - places), c.isDigit = true :=
    fun c hc => hdigits c (List.mem_of_mem_drop hc)
  have hwhole : digits.take (digits.length - places) ≠ [] := by
    intro hnil
    rcases List.take_eq_nil_iff.mp hnil with h | h
    · omega
    · exact hne h
  have h := Positional.fraction hwhole htake hdrop
  rw [List.take_append_drop, List.length_drop] at h
  rwa [Nat.sub_sub_self (Nat.le_of_lt hplaces)] at h

omit hne in
/-- Zeros behind the point add nothing to the digits. -/
theorem positional_below_one {places : Nat} (hplaces : digits.length ≤ places) :
    Positional ('0' :: '.' :: List.replicate (places - digits.length) '0' ++ digits)
      ⟨Nat.ofDigitChars 10 digits 0, -places⟩ := by
  have hzero : Nat.ofDigitChars 10 ['0'] 0 = 0 := rfl
  have hfraction := isDigit_append (isDigit_replicate_zero (places - digits.length)) hdigits
  have h := Positional.fraction (List.cons_ne_nil '0' []) (isDigit_replicate_zero 1) hfraction
  rw [Nat.ofDigitChars_append, hzero, Nat.ofDigitChars_append, Nat.ofDigitChars_replicate_zero,
    Nat.mul_zero, List.length_append, List.length_replicate] at h
  rwa [Nat.sub_add_cancel hplaces] at h

end

theorem writeDecimal_plain (d : Decimal) :
    Layout.plain.writeDecimal d =
      Layout.plain.writePositional (Nat.toDigits 10 d.digits) d.exponent := rfl

/-- A written decimal stands for a decimal of the same value. -/
theorem positional_writeDecimal (d : Decimal) :
    ∃ e, Positional (Layout.plain.writeDecimal d) e ∧ e.value = d.value := by
  have hdigits := isDigit_toDigits d.digits
  have hne : Nat.toDigits 10 d.digits ≠ [] := Nat.toDigits_ne_nil
  have hread : Nat.ofDigitChars 10 (Nat.toDigits 10 d.digits) 0 = d.digits :=
    Nat.ofDigitChars_ten_toDigits
  rw [writeDecimal_plain]
  unfold Layout.writePositional
  split
  · next hexp =>
    have h := positional_zeros hdigits hne d.exponent.toNat
    have hpow : (10 : ℚ) ^ d.exponent = 10 ^ d.exponent.toNat := by
      rw [← zpow_natCast, Int.toNat_of_nonneg hexp]
    rw [hread] at h
    refine ⟨_, by simpa [Layout.plain] using h, ?_⟩
    unfold Decimal.value
    rw [hpow, zpow_zero, mul_one, mul_comm, Nat.cast_mul, Nat.cast_pow]
    rfl
  · next hexp =>
    have hplaces : -(((-d.exponent).toNat : Nat) : Int) = d.exponent := by omega
    dsimp only
    refine ⟨d, ?_, rfl⟩
    split
    · next hlen =>
      have h := positional_point hdigits hne hlen
      rwa [hread, hplaces] at h
    · next hlen =>
      have h := positional_below_one hdigits (Nat.le_of_not_lt hlen)
      rwa [hread, hplaces] at h

example : Layout.plain.writeDecimal ⟨125, -3⟩ = ['0', '.', '1', '2', '5'] := by decide

end Numeral

end ColorAlgebra
