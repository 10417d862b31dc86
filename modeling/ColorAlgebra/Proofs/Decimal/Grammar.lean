import ColorAlgebra.Decimal.Numeral
import ColorAlgebra.Proofs.Binary.Nearest
import ColorAlgebra.Proofs.Decimal.Value

/-!
# The grammar of numerals

A numeral is a sign, digits with at most one point, and an exponent. The sign and the
exponent may be left out, and so may the digits on one side of the point, but there is
at least one digit.
-/

namespace ColorAlgebra.Numeral

variable {f : Format}

/-! ## Grammar -/

/-- A sign, which may be left out, and whether it is a minus. -/
inductive SignText : List Char → Bool → Prop
  | absent : SignText [] false
  | plus : SignText ['+'] false
  | minus : SignText ['-'] true

/-- Digits with at most one point, which may stand before, among or behind them. -/
inductive MantissaText : List Char → Decimal → Prop
  | whole {digits : List Char} : digits ≠ [] → (∀ c ∈ digits, c.isDigit = true) →
      MantissaText digits ⟨Nat.ofDigitChars 10 digits 0, 0⟩
  | point {whole fraction : List Char} : whole ++ fraction ≠ [] →
      (∀ c ∈ whole, c.isDigit = true) → (∀ c ∈ fraction, c.isDigit = true) →
      MantissaText (whole ++ '.' :: fraction)
        ⟨Nat.ofDigitChars 10 (whole ++ fraction) 0, -fraction.length⟩

/-- A power of ten, which may be left out: a mark, a sign and digits. -/
inductive ExponentText : List Char → Int → Prop
  | absent : ExponentText [] 0
  | marked {mark : Char} {sign digits : List Char} {negative : Bool} : mark = 'e' ∨ mark = 'E' →
      SignText sign negative → digits ≠ [] → (∀ c ∈ digits, c.isDigit = true) →
      ExponentText (mark :: (sign ++ digits)) (signed negative (Nat.ofDigitChars 10 digits 0))

/-- The text is a numeral, and this is the sign and the decimal that it stands for. -/
inductive Denotes : List Char → Numeral → Prop
  | parts {sign mantissa exponent : List Char} {negative : Bool} {d : Decimal} {power : Int} :
      SignText sign negative → MantissaText mantissa d → ExponentText exponent power →
      Denotes (sign ++ (mantissa ++ exponent)) ⟨negative, ⟨d.digits, power + d.exponent⟩⟩

/-! ## Runs of digits -/

/-- The text does not go on with a digit. -/
def NoDigitHead (text : List Char) : Prop := ∀ c, text.head? = some c → c.isDigit = false

theorem noDigitHead_nil : NoDigitHead [] := by
  intro c h
  cases h

theorem noDigitHead_point (text : List Char) : NoDigitHead ('.' :: text) := by
  intro c h
  cases h
  decide

theorem takeDigits_of_noDigitHead {digits rest : List Char}
    (hdigits : ∀ c ∈ digits, c.isDigit = true) (hrest : NoDigitHead rest) :
    takeDigits (digits ++ rest) = (digits, rest) := by
  unfold takeDigits
  rw [List.takeWhile_append_of_pos hdigits, List.dropWhile_append_of_pos hdigits]
  cases rest with
  | nil => simp
  | cons c rest => simp [hrest c rfl]

theorem takeDigits_all {digits : List Char} (hdigits : ∀ c ∈ digits, c.isDigit = true) :
    takeDigits digits = (digits, []) := by
  have h := takeDigits_of_noDigitHead hdigits noDigitHead_nil
  rwa [List.append_nil] at h

theorem takeDigits_parts {text digits rest : List Char} (h : takeDigits text = (digits, rest)) :
    digits ++ rest = text ∧ ∀ c ∈ digits, c.isDigit = true := by
  have happend := takeDigits_append text
  have hdigits : ∀ c ∈ (takeDigits text).1, c.isDigit = true :=
    fun c hc => isDigit_of_mem_takeDigits hc
  rw [h] at happend hdigits
  exact ⟨happend, hdigits⟩

/-! ## Signs -/

/-- The text does not start with a sign. -/
def NoSignHead (text : List Char) : Prop := ∀ c, text.head? = some c → c ≠ '-' ∧ c ≠ '+'

theorem noSignHead_digits {digits rest : List Char} (hne : digits ≠ [])
    (hdigits : ∀ c ∈ digits, c.isDigit = true) : NoSignHead (digits ++ rest) := by
  cases digits with
  | nil => exact absurd rfl hne
  | cons d digits =>
    intro c hc
    obtain rfl : d = c := Option.some.inj hc
    have hd := hdigits d List.mem_cons_self
    exact ⟨by rintro rfl; exact absurd hd (by decide), by rintro rfl; exact absurd hd (by decide)⟩

theorem noSignHead_point (rest : List Char) : NoSignHead ('.' :: rest) := by
  rintro c ⟨⟩
  decide

theorem SignText.takeSign_append {sign rest : List Char} {negative : Bool}
    (h : SignText sign negative) (hrest : NoSignHead rest) :
    takeSign (sign ++ rest) = (negative, rest) := by
  cases h with
  | plus => rfl
  | minus => rfl
  | absent =>
    rw [List.nil_append]
    unfold takeSign
    split
    · exact absurd rfl (hrest _ rfl).1
    · exact absurd rfl (hrest _ rfl).2
    · rfl

theorem signText_takeSign {text rest : List Char} {negative : Bool}
    (h : takeSign text = (negative, rest)) : ∃ sign, SignText sign negative ∧ sign ++ rest = text := by
  unfold takeSign at h
  split at h
  · cases h
    exact ⟨['-'], .minus, rfl⟩
  · cases h
    exact ⟨['+'], .plus, rfl⟩
  · cases h
    exact ⟨[], .absent, rfl⟩

/-! ## Exponents -/

theorem readExponent?_of_take {mark : Char} {rest text digits after : List Char} {negative : Bool}
    (hsign : takeSign rest = (negative, text)) (hdigits : takeDigits text = (digits, after)) :
    readExponent? (mark :: rest) =
      if mark = 'e' ∨ mark = 'E' then
        if digits ≠ [] ∧ after = [] then some (signed negative (Nat.ofDigitChars 10 digits 0)) else none
      else none := by
  unfold readExponent?
  simp only [hsign, hdigits]

theorem ExponentText.readExponent? {text : List Char} {power : Int} (h : ExponentText text power) :
    readExponent? text = some power := by
  cases h with
  | absent => rfl
  | @marked mark sign digits negative hmark hsign hne hdigits =>
    have hhead : NoSignHead (digits ++ []) := noSignHead_digits hne hdigits
    rw [List.append_nil] at hhead
    rw [readExponent?_of_take (hsign.takeSign_append hhead) (takeDigits_all hdigits),
      if_pos hmark, if_pos ⟨hne, rfl⟩]

theorem exponentText_of_readExponent? {text : List Char} {power : Int}
    (h : readExponent? text = some power) : ExponentText text power := by
  cases text with
  | nil =>
    cases h
    exact .absent
  | cons mark rest =>
    rcases hs : takeSign rest with ⟨negative, unsigned⟩
    rcases hd : takeDigits unsigned with ⟨digits, after⟩
    obtain ⟨sign, hsign, rfl⟩ := signText_takeSign hs
    obtain ⟨rfl, hdigits⟩ := takeDigits_parts hd
    rw [readExponent?_of_take hs hd, Option.ite_none_right_eq_some,
      Option.ite_none_right_eq_some] at h
    obtain ⟨hmark, ⟨hne, rfl⟩, hpower⟩ := h
    rw [← Option.some.inj hpower, List.append_nil]
    exact .marked hmark hsign hne hdigits

theorem readExponent?_eq_some_iff {text : List Char} {power : Int} :
    readExponent? text = some power ↔ ExponentText text power :=
  ⟨exponentText_of_readExponent?, ExponentText.readExponent?⟩

theorem ExponentText.noDigitHead {text : List Char} {power : Int} (h : ExponentText text power) :
    NoDigitHead text := by
  cases h with
  | absent => exact noDigitHead_nil
  | marked hmark _ _ _ =>
    rintro c ⟨⟩
    rcases hmark with rfl | rfl <;> decide

/-! ## Mantissas -/

theorem MantissaText.noSignHead {text : List Char} {d : Decimal} (h : MantissaText text d)
    (rest : List Char) : NoSignHead (text ++ rest) := by
  cases h with
  | whole hne hdigits => exact noSignHead_digits hne hdigits
  | @point whole fraction _ hwhole _ =>
    rw [List.append_assoc]
    cases whole with
    | nil => exact noSignHead_point _
    | cons c whole => exact noSignHead_digits (List.cons_ne_nil c whole) hwhole

theorem ExponentText.takeFraction {text : List Char} {power : Int} (h : ExponentText text power) :
    takeFraction text = ([], text) := by
  cases h with
  | absent => rfl
  | marked hmark _ _ _ => rcases hmark with rfl | rfl <;> rfl

/-- Digits and a fraction taken off the front are a mantissa, if there is a digit. -/
theorem mantissaText_take {text whole after fraction rest : List Char}
    (hw : takeDigits text = (whole, after)) (hf : takeFraction after = (fraction, rest))
    (hne : ¬ (whole = [] ∧ fraction = [])) :
    ∃ mantissa, mantissa ++ rest = text ∧
      MantissaText mantissa ⟨Nat.ofDigitChars 10 (whole ++ fraction) 0, -fraction.length⟩ := by
  obtain ⟨rfl, hwhole⟩ := takeDigits_parts hw
  unfold Numeral.takeFraction at hf
  split at hf
  · obtain ⟨rfl, hfraction⟩ := takeDigits_parts hf
    refine ⟨whole ++ '.' :: fraction, List.append_assoc _ _ _, ?_⟩
    exact .point (fun hnil => hne (List.append_eq_nil_iff.mp hnil)) hwhole hfraction
  · cases hf
    have hmantissa := MantissaText.whole (fun hnil => hne ⟨hnil, rfl⟩) hwhole
    rw [← List.append_nil whole] at hmantissa
    exact ⟨whole ++ [], by rw [List.append_nil], hmantissa⟩

/-! ## Numerals -/

theorem read?_of_take {text unsigned whole after fraction rest : List Char} {negative : Bool}
    (hs : takeSign text = (negative, unsigned)) (hw : takeDigits unsigned = (whole, after))
    (hf : takeFraction after = (fraction, rest)) :
    read? text =
      if whole = [] ∧ fraction = [] then none
      else (readExponent? rest).map fun power =>
        ⟨negative, Nat.ofDigitChars 10 (whole ++ fraction) 0, power - fraction.length⟩ := by
  unfold read?
  simp only [hs, hw, hf]

theorem Denotes.read? {text : List Char} {n : Numeral} (h : Denotes text n) :
    read? text = some n := by
  obtain @⟨sign, mantissa, exponent, _, _, _, hsign, hmantissa, hexponent⟩ := h
  have hs := hsign.takeSign_append (hmantissa.noSignHead exponent)
  cases hmantissa with
  | whole hne hdigits =>
    have hw := takeDigits_of_noDigitHead hdigits hexponent.noDigitHead
    rw [read?_of_take hs hw hexponent.takeFraction, if_neg (fun h => hne h.1),
      hexponent.readExponent?, List.append_nil]
    rfl
  | @point whole fraction hne hwhole hfraction =>
    rw [List.append_assoc, List.cons_append] at hs ⊢
    have hw := takeDigits_of_noDigitHead hwhole (noDigitHead_point (fraction ++ exponent))
    have hf := takeDigits_of_noDigitHead hfraction hexponent.noDigitHead
    rw [read?_of_take hs hw hf, if_neg (fun h => hne (List.append_eq_nil_iff.mpr h)),
      hexponent.readExponent?]
    rfl

theorem denotes_of_read? {text : List Char} {n : Numeral} (h : read? text = some n) :
    Denotes text n := by
  rcases hs : takeSign text with ⟨negative, unsigned⟩
  rcases hw : takeDigits unsigned with ⟨whole, after⟩
  rcases hf : takeFraction after with ⟨fraction, rest⟩
  rw [read?_of_take hs hw hf, Option.ite_none_left_eq_some, Option.map_eq_some_iff] at h
  obtain ⟨hne, power, hpower, rfl⟩ := h
  obtain ⟨sign, hsign, rfl⟩ := signText_takeSign hs
  obtain ⟨mantissa, rfl, hmantissa⟩ := mantissaText_take hw hf hne
  exact .parts hsign hmantissa (readExponent?_eq_some_iff.mp hpower)

/-- A text is read if it is a numeral, as what it denotes. -/
theorem read?_eq_some_iff {text : List Char} {n : Numeral} :
    read? text = some n ↔ Denotes text n :=
  ⟨denotes_of_read?, Denotes.read?⟩

example : read? ['-', '.', '5', 'e', '1'] = some ⟨true, 5, 0⟩ := by decide
example : read? ['1', 'e'] = none := by decide

/-! ## Characters -/

/-- What is not a digit in numerals. -/
def marks : List Char := ['+', '-', '.', 'e', 'E']

theorem SignText.mem_marks {sign : List Char} {negative : Bool} (h : SignText sign negative) :
    ∀ c ∈ sign, c ∈ marks := by
  cases h with
  | absent => exact List.forall_mem_nil _
  | plus => exact List.forall_mem_singleton.mpr (by decide)
  | minus => exact List.forall_mem_singleton.mpr (by decide)

theorem Denotes.isDigit_or_mark {text : List Char} {n : Numeral} (h : Denotes text n) :
    ∀ c ∈ text, c.isDigit = true ∨ c ∈ marks := by
  obtain ⟨hsign, hmantissa, hexponent⟩ := h
  intro c hc
  rcases List.mem_append.mp hc with hc | hc
  · exact .inr (hsign.mem_marks c hc)
  rcases List.mem_append.mp hc with hc | hc
  · cases hmantissa with
    | whole _ hdigits => exact .inl (hdigits c hc)
    | point _ hwhole hfraction =>
      rcases List.mem_append.mp hc with hc | hc
      · exact .inl (hwhole c hc)
      · rcases List.mem_cons.mp hc with rfl | hc
        · exact .inr (by decide)
        · exact .inl (hfraction c hc)
  · cases hexponent with
    | absent => exact absurd hc List.not_mem_nil
    | marked hmark hsign _ hdigits =>
      rcases List.mem_cons.mp hc with rfl | hc
      · rcases hmark with rfl | rfl <;> exact .inr (by decide)
      · rcases List.mem_append.mp hc with hc | hc
        · exact .inr (hsign.mem_marks c hc)
        · exact .inl (hdigits c hc)

/-! ## Values -/

/-- The finite number has the sign of the numeral, and no magnitude of the format is
nearer to that of the numeral. A numeral that overflows rounds to no finite number. -/
inductive RoundsTo (n : Numeral) : Binary f → Prop
  | finite {units : Nat} (h : f.Representable units) :
      f.IsNearest (n.magnitude.value * unitsPerOne) units →
      RoundsTo n (.finite n.negative units h)

/-- A numeral is worth the number it rounds to, or nothing finite. -/
theorem toBinary_eq_iff {n : Numeral} {x : Binary f} :
    n.toBinary f = x ∧ x.isFinite = true ↔ n.RoundsTo x := by
  have hiff : ∀ units, f.nearest n.magnitude.unitsNum n.magnitude.unitsDen = units ↔
      f.IsNearest (n.magnitude.value * unitsPerOne) units := by
    intro units
    rw [Format.nearest_eq_iff n.magnitude.unitsDen_pos, Decimal.unitsNum_div_unitsDen]
  unfold toBinary
  rw [Decimal.toBinary_eq_round]
  constructor
  · rintro ⟨rfl, hfinite⟩
    unfold Binary.round at hfinite ⊢
    split at hfinite
    · next hlt =>
      rw [dif_pos hlt]
      exact .finite _ ((hiff _).mp rfl)
    · cases hfinite
  · rintro ⟨h, hnearest⟩
    exact ⟨Binary.round_of_nearest h ((hiff _).mpr hnearest), rfl⟩

end ColorAlgebra.Numeral
