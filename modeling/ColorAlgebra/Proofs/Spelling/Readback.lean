import ColorAlgebra.Color.Spelling
import ColorAlgebra.Proofs.Decimal.Readback

namespace ColorAlgebra.Spelling

variable {f : Format}

/-! ## Characters -/

/-- What is not a digit in written channels, with letters in lower case. -/
def otherMarks : List Char := ['-', '.', 'i', 'n', 'f', 'a']

/-- The characters of written channels after their letters are put in lower case. -/
def IsMark (c : Char) : Prop := c.isDigit = true ∨ c ∈ otherMarks

theorem code_of_isDigit {c : Char} (h : c.isDigit = true) : 48 ≤ c.toNat ∧ c.toNat ≤ 57 := by
  unfold Char.isDigit at h
  rw [Bool.and_eq_true, decide_eq_true_eq, decide_eq_true_eq] at h
  exact h

theorem isBlank_of_isDigit {c : Char} (h : c.isDigit = true) : Text.isBlank c = false := by
  obtain ⟨hlow, hhigh⟩ := code_of_isDigit h
  unfold Text.isBlank
  rw [List.any_eq_false]
  intro range hrange
  have hout : ∀ r ∈ Text.blankRanges, r.2 < 48 ∨ 57 < r.1 := by decide
  rw [Bool.and_eq_true, decide_eq_true_eq, decide_eq_true_eq]
  have := hout range hrange
  omega

theorem toLower_of_isDigit {c : Char} (h : c.isDigit = true) : c.toLower = c := by
  obtain ⟨hlow, hhigh⟩ := code_of_isDigit h
  unfold Char.toLower
  rw [dif_neg]
  rintro ⟨hA, -⟩
  have : 65 ≤ c.toNat := hA
  omega

namespace IsMark

variable {c : Char}

theorem isBlank (h : IsMark c) : Text.isBlank c = false := by
  have hother : otherMarks.all (fun c => !Text.isBlank c) = true := by decide
  rcases h with h | h
  · exact isBlank_of_isDigit h
  · have hnot := List.all_eq_true.mp hother c h
    rwa [Bool.not_eq_true'] at hnot

theorem ne_comma (h : IsMark c) : c ≠ ',' := by
  rintro rfl
  rcases h with h | h
  · exact absurd h (by decide)
  · exact absurd h (by decide)

end IsMark

theorem trim_of_isMark {text : List Char} (h : ∀ c ∈ text, IsMark c) : Text.trim text = text := by
  refine Text.trim_eq_self ?_ ?_
  · intro c hc
    exact (h c (List.mem_of_mem_head? hc)).isBlank
  · intro c hc
    exact (h c (List.mem_of_mem_getLast? hc)).isBlank

/-! ## One channel -/

/-- The decimal that a magnitude is written as. -/
def digitsOf (f : Format) (units : Nat) : Decimal :=
  if units = 0 then ⟨0, 0⟩ else Decimal.shortest f units

theorem nearest_digitsOf {units : Nat} (h : f.Representable units) :
    f.nearest (digitsOf f units).unitsNum (digitsOf f units).unitsDen = units := by
  unfold digitsOf
  split
  · next h0 =>
    rw [h0]
    refine Format.nearest_eq_zero ?_
    unfold Decimal.unitsNum
    rw [Nat.zero_mul, Nat.zero_mul]
    exact Decimal.unitsDen_pos _
  · exact Decimal.nearest_shortest h

/-- The double that the text of a number is read as, if it is finite. -/
def reread? : Binary f → Option Double
  | .finite negative units _ =>
    let x : Double := (digitsOf f units).toBinary .double negative
    if x.isFinite then some x else none
  | _ => none

/-- The text of a number in lower case. -/
def lowered (x : Binary f) : List Char := (Layout.plain.write x).map Char.toLower

theorem write_finite (negative : Bool) (units : Nat) (h : f.Representable units) :
    Layout.plain.write (.finite negative units h : Binary f) =
      (if negative then ['-'] else []) ++ Layout.plain.writeDecimal (digitsOf f units) := rfl

/-- The text of a finite number has no capital letters. -/
theorem lowered_finite (negative : Bool) (units : Nat) (h : f.Representable units) :
    lowered (.finite negative units h : Binary f) =
      (if negative then ['-'] else []) ++ Layout.plain.writeDecimal (digitsOf f units) := by
  obtain ⟨e, htext, -⟩ := Numeral.positional_writeDecimal (digitsOf f units)
  have hself : (Layout.plain.writeDecimal (digitsOf f units)).map Char.toLower =
      Layout.plain.writeDecimal (digitsOf f units) := by
    refine (List.map_congr_left fun c hc => ?_).trans (List.map_id _)
    rcases htext.isDigit_or_point hc with hd | rfl
    · exact toLower_of_isDigit hd
    · rfl
  unfold lowered
  rw [write_finite, List.map_append, hself]
  cases negative <;> rfl

theorem isMark_lowered (x : Binary f) : ∀ c ∈ lowered x, IsMark c := by
  intro c hc
  cases x with
  | nan =>
    have hmem : ['n', 'a', 'n'].all otherMarks.contains = true := by decide
    exact .inr (List.contains_iff_mem.mp (List.all_eq_true.mp hmem c hc))
  | infinity negative =>
    have hmem : ['-', 'i', 'n', 'f'].all otherMarks.contains = true := by decide
    have hc' : c ∈ ['-', 'i', 'n', 'f'] := by
      cases negative with
      | true => exact hc
      | false => exact List.mem_cons_of_mem _ hc
    exact .inr (List.contains_iff_mem.mp (List.all_eq_true.mp hmem c hc'))
  | finite negative units h =>
    rw [lowered_finite] at hc
    rcases List.mem_append.mp hc with hsign | htext
    · cases negative with
      | true =>
        rw [List.mem_singleton.mp hsign]
        exact .inr (by decide)
      | false => exact absurd hsign List.not_mem_nil
    · obtain ⟨e, hpos, -⟩ := Numeral.positional_writeDecimal (digitsOf f units)
      rcases hpos.isDigit_or_point htext with hd | rfl
      · exact .inl hd
      · exact .inr (by decide)

/-- Reading the text of one number. -/
theorem readNumber?_lowered (x : Binary f) : readNumber? (lowered x) = reread? x := by
  have htrim := trim_of_isMark (isMark_lowered x)
  unfold readNumber?
  rw [htrim]
  cases x with
  | nan => rfl
  | infinity negative => cases negative <;> rfl
  | finite negative units h =>
    obtain ⟨e, hpos, hvalue⟩ := Numeral.positional_writeDecimal (digitsOf f units)
    rw [lowered_finite, hpos.read?_eq]
    dsimp only [Numeral.toBinary, reread?]
    rw [Decimal.toBinary_congr hvalue]

theorem readNumber?_blank (text : List Char) : readNumber? (' ' :: text) = readNumber? text := by
  unfold readNumber?
  rw [Text.trim_cons_of_isBlank (by decide)]

/-! ## Three channels -/

theorem comma_not_mem_lowered (x : Binary f) : ',' ∉ lowered x :=
  fun h => (isMark_lowered x ',' h).ne_comma rfl

/-- The text between the parentheses. -/
def inside (n : Triple (Binary f)) : List Char :=
  [',', ' '].intercalate (n.map Layout.plain.write).toList

theorem inside_map_toLower (n : Triple (Binary f)) :
    (inside n).map Char.toLower =
      lowered n.first ++ ',' :: ' ' :: (lowered n.second ++ ',' :: ' ' :: lowered n.third) := by
  have h : inside n = Layout.plain.write n.first ++ ([',', ' '] ++
      (Layout.plain.write n.second ++ ([',', ' '] ++ Layout.plain.write n.third))) := by
    simp [inside, Triple.toList, Triple.map, List.intercalate]
  rw [h, List.map_append, List.map_append, List.map_append, List.map_append]
  rfl

theorem split_inside (n : Triple (Binary f)) :
    Text.split ',' ((inside n).map Char.toLower) =
      [lowered n.first, ' ' :: lowered n.second, ' ' :: lowered n.third] := by
  have hblank : ∀ x : Binary f, ',' ∉ ' ' :: lowered x := by
    intro x h
    rcases List.mem_cons.mp h with h | h
    · exact absurd h (by decide)
    · exact comma_not_mem_lowered x h
  rw [inside_map_toLower, Text.split_append_cons _ (comma_not_mem_lowered n.first),
    ← List.cons_append, Text.split_append_cons _ (hblank n.second),
    Text.split_of_not_mem (hblank n.third)]

theorem unwrap?_parenthesized (text : List Char) :
    unwrap? ('(' :: (text ++ [')'])) = some text := by
  show (if (text ++ [')']).getLast? = some ')' then some (text ++ [')']).dropLast else none) = _
  rw [if_pos List.getLast?_concat, List.dropLast_concat]

theorem simplify_parenthesized (text : List Char) :
    simplify ('(' :: (text ++ [')'])) = '(' :: (text.map Char.toLower ++ [')']) := by
  have htrim : Text.trim ('(' :: (text ++ [')'])) = '(' :: (text ++ [')']) := by
    refine Text.trim_eq_self ?_ ?_
    · intro c hc
      cases hc
      decide
    · intro c hc
      rw [← List.cons_append, List.getLast?_concat] at hc
      cases hc
      decide
  unfold simplify
  rw [htrim, List.map_cons, List.map_append]
  rfl

/-- No name starts with a parenthesis. -/
theorem hexOf?_parenthesis (text : List Char) : Names.hexOf? ('(' :: text) = none := by
  have hfirst : ∀ entry ∈ Names.table, entry.1.toList.head? ≠ some '(' := by decide
  have hnone : Names.table.find? (fun entry => entry.1.toList = '(' :: text) = none := by
    rw [List.find?_eq_none]
    intro entry hentry heq
    rw [decide_eq_true_eq] at heq
    exact hfirst entry hentry (by rw [heq]; rfl)
  unfold Names.hexOf?
  rw [hnone]
  rfl

/-- Three written numbers in parentheses are read one by one. -/
theorem read?_parenthesized (n : Triple (Binary f)) :
    read? (String.ofList ('(' :: (inside n ++ [')']))) =
      match reread? n.first, reread? n.second, reread? n.third with
      | some x, some y, some z => some ⟨x, y, z⟩
      | _, _, _ => none := by
  have hmark : ∀ text : List Char, afterHexMark? ('(' :: text) = none := fun _ => rfl
  unfold read? readSimplified?
  rw [String.toList_ofList, simplify_parenthesized, hexOf?_parenthesis]
  dsimp only
  rw [hmark]
  dsimp only
  unfold readTuple?
  rw [unwrap?_parenthesized, Option.map_some, split_inside]
  show (match readNumber? (lowered n.first), readNumber? (' ' :: lowered n.second),
      readNumber? (' ' :: lowered n.third) with
    | some x, some y, some z => some (⟨x, y, z⟩ : Triple Double)
    | _, _, _ => none) = _
  rw [readNumber?_blank, readNumber?_blank, readNumber?_lowered, readNumber?_lowered,
    readNumber?_lowered]

end ColorAlgebra.Spelling
