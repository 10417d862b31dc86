import ColorAlgebra.Proofs.Decimal.Grammar
import ColorAlgebra.Proofs.Hex.Quantize
import ColorAlgebra.Proofs.Spelling.Readback
import ColorAlgebra.Proofs.Text.Parts

/-!
# The grammar of spelled colors

Which texts spell a color, and which color each of them spells, without the order in
which the reader tries one thing after the other. Blanks around a text and the case of
its letters make no difference. What is left is a name, a mark with six hexadecimal
digits, or three numbers between commas, in parentheses or not; no text is more than one
of these, and what is none of them spells no color.

* `Spelling.Simplifies`: a text without the blanks around it, in lower case.
* `Spelling.NameForm`, `Spelling.HexForm`, `Spelling.TupleForm`: the three forms, with the
  normalized triple that each spells.

Results:
1. `Spelling.nameForm_iff`, `Spelling.hexForm_iff`, `Spelling.tupleForm_iff`: each form,
   by the step of the reader that is for it.
2. `Spelling.forms_disjoint`: the forms are told apart by single characters.
3. `Spelling.readSimplified?_eq_some_iff`, `Spelling.read?_iff_form`: a text spells a
   color if it has one of the forms.
-/

namespace ColorAlgebra.Spelling

/-! ## Grammar -/

/-- A text without the blanks at its ends and with its letters in lower case. -/
inductive Simplifies : List Char → List Char → Prop
  | lowered {text body : List Char} : Text.Trims text body →
      Simplifies text (body.map Char.toLower)

/-- The normalized triple of three bytes, each over 255. -/
def ofBytes (r g b : Nat) : Triple Double :=
  ⟨Hex.decodeByte r, Hex.decodeByte g, Hex.decodeByte b⟩

/-- A name of the table spells the three bytes of its packed color. -/
inductive NameForm : List Char → Triple Double → Prop
  | listed {name : String} {word : UInt32} : (name, word) ∈ Names.table →
      NameForm name.toList
        (ofBytes (word.toNat / 65536 % 256) (word.toNat / 256 % 256) (word.toNat % 256))

/-- The hexadecimal digits, each at its value. -/
def hexDigits : List Char :=
  ['0', '1', '2', '3', '4', '5', '6', '7', '8', '9', 'a', 'b', 'c', 'd', 'e', 'f']

/-- The marks that stand before hexadecimal digits. -/
def hexMarks : List (List Char) := [['#'], ['0', 'x']]

/-- Six hexadecimal digits behind a mark spell three bytes, two digits for each. -/
inductive HexForm : List Char → Triple Double → Prop
  | digits {mark : List Char} {c₁ c₂ c₃ c₄ c₅ c₆ : Char} {d₁ d₂ d₃ d₄ d₅ d₆ : Nat} :
      mark ∈ hexMarks → hexDigits[d₁]? = some c₁ → hexDigits[d₂]? = some c₂ →
      hexDigits[d₃]? = some c₃ → hexDigits[d₄]? = some c₄ → hexDigits[d₅]? = some c₅ →
      hexDigits[d₆]? = some c₆ →
      HexForm (mark ++ [c₁, c₂, c₃, c₄, c₅, c₆])
        (ofBytes (16 * d₁ + d₂) (16 * d₃ + d₄) (16 * d₅ + d₆))

/-- A numeral with blanks around it that rounds to a finite double. -/
inductive NumberForm : List Char → Double → Prop
  | numeral {part body : List Char} {n : Numeral} {x : Double} : Text.Trims part body →
      Numeral.Denotes body n → n.RoundsTo x → NumberForm part x

/-- Three numbers between two commas. -/
inductive PartsForm : List Char → Triple Double → Prop
  | three {a b c : List Char} {x y z : Double} : ',' ∉ a → ',' ∉ b → ',' ∉ c →
      NumberForm a x → NumberForm b y → NumberForm c z →
      PartsForm (a ++ ',' :: (b ++ ',' :: c)) ⟨x, y, z⟩

/-- Three numbers in parentheses, or without them. -/
inductive TupleForm : List Char → Triple Double → Prop
  | bare {text : List Char} {v : Triple Double} : text.head? ≠ some '(' → PartsForm text v →
      TupleForm text v
  | parenthesized {text : List Char} {v : Triple Double} : PartsForm text v →
      TupleForm ('(' :: (text ++ [')'])) v

/-! ## Simplifying -/

theorem simplifies_iff {text simple : List Char} :
    Simplifies text simple ↔ simplify text = simple := by
  unfold simplify
  constructor
  · rintro ⟨h⟩
    rw [Text.trim_eq_iff.mpr h]
  · rintro rfl
    exact .lowered (Text.trims_trim text)

/-! ## Names -/

theorem decode_eq (word : UInt32) :
    Hex.decode word =
      ofBytes (word.toNat / 65536 % 256) (word.toNat / 256 % 256) (word.toNat % 256) := by
  obtain ⟨hhigh, hmiddle, hlow⟩ := Hex.byteAt_eq word
  unfold Hex.decode ofBytes
  rw [hhigh, hmiddle, hlow]

theorem hexOf?_eq_some_iff {text : List Char} {word : UInt32} :
    Names.hexOf? text = some word ↔ ∃ name, (name, word) ∈ Names.table ∧ name.toList = text := by
  unfold Names.hexOf?
  rw [Option.map_eq_some_iff]
  constructor
  · rintro ⟨⟨name, word'⟩, hfind, rfl⟩
    have htext := List.find?_some hfind
    exact ⟨name, List.mem_of_find?_eq_some hfind, of_decide_eq_true htext⟩
  · rintro ⟨name, hmem, rfl⟩
    have hall : ∀ entry ∈ Names.table, Names.hexOf? entry.1.toList = some entry.2 := by decide
    exact Option.map_eq_some_iff.mp (hall (name, word) hmem)

theorem nameForm_iff {text : List Char} {v : Triple Double} :
    NameForm text v ↔ (Names.hexOf? text).map Hex.decode = some v := by
  rw [Option.map_eq_some_iff]
  constructor
  · rintro ⟨hmem⟩
    exact ⟨_, hexOf?_eq_some_iff.mpr ⟨_, hmem, rfl⟩, decode_eq _⟩
  · rintro ⟨word, hword, rfl⟩
    obtain ⟨name, hmem, rfl⟩ := hexOf?_eq_some_iff.mp hword
    rw [decode_eq]
    exact .listed hmem

/-! ## Hexadecimal digits -/

theorem hexDigit?_eq_some_iff {c : Char} {d : Nat} :
    hexDigit? c = some d ↔ hexDigits[d]? = some c := by
  have hdecimal : ∀ k < 10, hexDigits[k]? = some (Char.ofNat (48 + k)) := by decide
  have hletter : ∀ k < 6, hexDigits[k + 10]? = some (Char.ofNat (97 + k)) := by decide
  have hvalue : ∀ k < 16, hexDigits[k]?.bind hexDigit? = some k := by decide
  constructor
  · intro h
    unfold hexDigit? at h
    split at h
    · next hdigit =>
      obtain ⟨hlow, hhigh⟩ := code_of_isDigit hdigit
      obtain rfl : c.toNat - 48 = d := Option.some.inj h
      rw [hdecimal _ (by omega), Nat.add_sub_cancel' hlow, Char.ofNat_toNat]
    · rw [Option.ite_none_right_eq_some] at h
      obtain ⟨⟨hlow, hhigh⟩, h⟩ := h
      have hlow : 97 ≤ c.toNat := hlow
      have hhigh : c.toNat ≤ 102 := hhigh
      obtain rfl : c.toNat - 97 + 10 = d := Option.some.inj h
      rw [hletter _ (by omega), Nat.add_sub_cancel' hlow, Char.ofNat_toNat]
  · intro h
    have hd := hvalue d (List.getElem?_eq_some_iff.mp h).1
    rwa [h] at hd

theorem mapM_eq_some_iff {α β : Type} {f : α → Option β} {l : List α} {l' : List β} :
    l.mapM f = some l' ↔ l.map f = l'.map some := by
  induction l generalizing l' with
  | nil => cases l' <;> simp
  | cons x rest ih =>
    rw [List.mapM_cons, List.map_cons]
    cases f x with
    | none => cases l' <;> simp
    | some y =>
      cases l' with
      | nil => cases hrest : rest.mapM f <;> simp
      | cons z rest' =>
        rw [List.map_cons, List.cons.injEq, Option.some.injEq, ← ih]
        cases hrest : rest.mapM f <;> simp

theorem readHex?_eq_some_iff {text : List Char} {word : UInt32} :
    readHex? text = some word ↔ ∃ digits : List Nat, digits.length = 6 ∧
      text.map hexDigit? = digits.map some ∧
      UInt32.ofNat (digits.foldl (fun n d => 16 * n + d) 0) = word := by
  unfold readHex?
  constructor
  · intro h
    split at h
    · next digits hdigits =>
      rw [Option.ite_none_right_eq_some] at h
      exact ⟨digits, h.1, mapM_eq_some_iff.mp hdigits, Option.some.inj h.2⟩
    · cases h
  · rintro ⟨digits, hlength, hdigits, rfl⟩
    rw [mapM_eq_some_iff.mpr hdigits]
    exact if_pos hlength

theorem afterHexMark?_eq_some_iff {text rest : List Char} :
    afterHexMark? text = some rest ↔ ∃ mark ∈ hexMarks, mark ++ rest = text := by
  constructor
  · intro h
    unfold afterHexMark? at h
    split at h
    · cases h
      exact ⟨['#'], by decide, rfl⟩
    · cases h
      exact ⟨['0', 'x'], by decide, rfl⟩
    · cases h
  · rintro ⟨mark, hmark, rfl⟩
    have hmarks : mark = ['#'] ∨ mark = ['0', 'x'] := by simpa [hexMarks] using hmark
    rcases hmarks with rfl | rfl <;> rfl

/-- Six digits of the packed color are three bytes of two digits. -/
theorem decode_ofNat {d₁ d₂ d₃ d₄ d₅ d₆ : Nat} (h₁ : d₁ < 16) (h₂ : d₂ < 16) (h₃ : d₃ < 16)
    (h₄ : d₄ < 16) (h₅ : d₅ < 16) (h₆ : d₆ < 16) :
    Hex.decode (UInt32.ofNat ([d₁, d₂, d₃, d₄, d₅, d₆].foldl (fun n d => 16 * n + d) 0)) =
      ofBytes (16 * d₁ + d₂) (16 * d₃ + d₄) (16 * d₅ + d₆) := by
  simp only [List.foldl_cons, List.foldl_nil, Nat.mul_zero, Nat.zero_add]
  rw [decode_eq, UInt32.toNat_ofNat', Nat.mod_eq_of_lt (by omega)]
  congr 1 <;> omega

theorem hexForm_iff {text : List Char} {v : Triple Double} :
    HexForm text v ↔ ((afterHexMark? text).bind readHex?).map Hex.decode = some v := by
  have hlt : ∀ {d : Nat} {c : Char}, hexDigits[d]? = some c → d < 16 :=
    fun h => (List.getElem?_eq_some_iff.mp h).1
  constructor
  · rintro ⟨hmark, h₁, h₂, h₃, h₄, h₅, h₆⟩
    rw [afterHexMark?_eq_some_iff.mpr ⟨_, hmark, rfl⟩, Option.bind_some,
      readHex?_eq_some_iff.mpr ⟨[_, _, _, _, _, _], rfl, ?_, rfl⟩, Option.map_some,
      decode_ofNat (hlt h₁) (hlt h₂) (hlt h₃) (hlt h₄) (hlt h₅) (hlt h₆)]
    simp only [← hexDigit?_eq_some_iff] at h₁ h₂ h₃ h₄ h₅ h₆
    simp only [List.map_cons, List.map_nil, h₁, h₂, h₃, h₄, h₅, h₆]
  · rw [Option.map_eq_some_iff]
    rintro ⟨word, hword, rfl⟩
    obtain ⟨rest, hrest, hhex⟩ := Option.bind_eq_some_iff.mp hword
    obtain ⟨mark, hmark, rfl⟩ := afterHexMark?_eq_some_iff.mp hrest
    obtain ⟨digits, hlength, hdigits, rfl⟩ := readHex?_eq_some_iff.mp hhex
    match digits, hlength with
    | [d₁, d₂, d₃, d₄, d₅, d₆], _ =>
      simp only [List.map_cons, List.map_nil, List.map_eq_cons_iff, List.map_eq_nil_iff,
        hexDigit?_eq_some_iff] at hdigits
      obtain ⟨c₁, _, rfl, h₁, c₂, _, rfl, h₂, c₃, _, rfl, h₃, c₄, _, rfl, h₄, c₅, _, rfl, h₅,
        c₆, _, rfl, h₆, rfl⟩ := hdigits
      rw [decode_ofNat (hlt h₁) (hlt h₂) (hlt h₃) (hlt h₄) (hlt h₅) (hlt h₆)]
      exact .digits hmark h₁ h₂ h₃ h₄ h₅ h₆

/-! ## Numbers between commas -/

theorem numberForm_iff {text : List Char} {x : Double} :
    NumberForm text x ↔ readNumber? text = some x := by
  unfold readNumber?
  constructor
  · rintro ⟨htrim, hdenotes, hround⟩
    obtain ⟨hvalue, hfinite⟩ := Numeral.toBinary_eq_iff.mpr hround
    rw [Text.trim_eq_iff.mpr htrim, Numeral.read?_eq_some_iff.mpr hdenotes]
    dsimp only
    rw [hvalue, if_pos hfinite]
  · intro h
    split at h
    · next n hread =>
      dsimp only at h
      rw [Option.ite_none_right_eq_some] at h
      obtain ⟨hfinite, hvalue⟩ := h
      have hvalue := Option.some.inj hvalue
      rw [hvalue] at hfinite
      exact .numeral (Text.trims_trim text) (Numeral.read?_eq_some_iff.mp hread)
        (Numeral.toBinary_eq_iff.mp ⟨hvalue, hfinite⟩)
    · cases h

theorem partsForm_iff {text : List Char} {v : Triple Double} :
    PartsForm text v ↔ ∃ a b c, Text.split ',' text = [a, b, c] ∧
      readNumber? a = some v.first ∧ readNumber? b = some v.second ∧
      readNumber? c = some v.third := by
  constructor
  · rintro ⟨ha, hb, hc, hx, hy, hz⟩
    exact ⟨_, _, _, Text.split_eq_three_iff.mpr ⟨rfl, ha, hb, hc⟩, numberForm_iff.mp hx,
      numberForm_iff.mp hy, numberForm_iff.mp hz⟩
  · rintro ⟨a, b, c, hsplit, hx, hy, hz⟩
    obtain ⟨rfl, ha, hb, hc⟩ := Text.split_eq_three_iff.mp hsplit
    exact .three ha hb hc (numberForm_iff.mpr hx) (numberForm_iff.mpr hy) (numberForm_iff.mpr hz)

theorem unwrap?_eq_some_iff {text inner : List Char} :
    unwrap? text = some inner ↔
      text.head? ≠ some '(' ∧ text = inner ∨ text = '(' :: (inner ++ [')']) := by
  constructor
  · intro h
    unfold unwrap? at h
    split at h
    · next rest =>
      rw [Option.ite_none_right_eq_some] at h
      obtain ⟨hlast, hinner⟩ := h
      refine .inr ?_
      rw [← Option.some.inj hinner, List.dropLast_append_getLast? _ hlast]
    · next hhead =>
      refine .inl ⟨fun hopen => ?_, Option.some.inj h⟩
      obtain ⟨rest, hrest⟩ := List.head?_eq_some_iff.mp hopen
      exact hhead rest hrest
  · rintro (⟨hhead, rfl⟩ | rfl)
    · unfold unwrap?
      split
      · exact absurd rfl hhead
      · rfl
    · exact unwrap?_parenthesized inner

theorem readTuple?_eq_some_iff {text : List Char} {v : Triple Double} :
    readTuple? text = some v ↔ ∃ inner, unwrap? text = some inner ∧ PartsForm inner v := by
  unfold readTuple?
  constructor
  · intro h
    split at h
    · next a b c hsplit =>
      obtain ⟨inner, hinner, hparts⟩ := Option.map_eq_some_iff.mp hsplit
      split at h
      · next x y z hx hy hz =>
        cases h
        exact ⟨inner, hinner, partsForm_iff.mpr ⟨a, b, c, hparts, hx, hy, hz⟩⟩
      · cases h
    · cases h
  · rintro ⟨inner, hinner, hform⟩
    obtain ⟨a, b, c, hparts, hx, hy, hz⟩ := partsForm_iff.mp hform
    simp only [hinner, Option.map_some, hparts, hx, hy, hz]

theorem tupleForm_iff {text : List Char} {v : Triple Double} :
    TupleForm text v ↔ readTuple? text = some v := by
  rw [readTuple?_eq_some_iff]
  constructor
  · rintro (⟨hhead, hparts⟩ | ⟨hparts⟩)
    · exact ⟨text, unwrap?_eq_some_iff.mpr (.inl ⟨hhead, rfl⟩), hparts⟩
    · exact ⟨_, unwrap?_parenthesized _, hparts⟩
  · rintro ⟨inner, hinner, hparts⟩
    rcases unwrap?_eq_some_iff.mp hinner with ⟨hhead, rfl⟩ | rfl
    · exact .bare hhead hparts
    · exact .parenthesized hparts

/-! ## Telling the forms apart -/

/-- The characters that stand in hexadecimal marks and nowhere else. -/
def hexSigns : List Char := ['#', 'x']

theorem mem_hexSigns {c : Char} : c ∈ hexSigns ↔ c = '#' ∨ c = 'x' := by
  simp [hexSigns]

theorem hexSign_mem {text rest : List Char} (h : afterHexMark? text = some rest) :
    ∃ c ∈ text, c ∈ hexSigns := by
  unfold afterHexMark? at h
  split at h
  · exact ⟨'#', List.mem_cons_self, mem_hexSigns.mpr (.inl rfl)⟩
  · exact ⟨'x', List.mem_cons_of_mem _ List.mem_cons_self, mem_hexSigns.mpr (.inr rfl)⟩
  · cases h

theorem NameForm.chars {text : List Char} {v : Triple Double} (h : NameForm text v) :
    ',' ∉ text ∧ ∀ c ∈ text, c ∉ hexSigns := by
  have hall : Names.table.all (fun entry => !entry.1.toList.contains ',' &&
      entry.1.toList.all fun c => !hexSigns.contains c) = true := by decide
  simp only [List.all_eq_true, Bool.and_eq_true, Bool.not_eq_true', List.contains_eq_mem,
    decide_eq_false_iff_not] at hall
  obtain ⟨hmem⟩ := h
  exact hall _ hmem

theorem HexForm.chars {text : List Char} {v : Triple Double} (h : HexForm text v) :
    ∃ c ∈ text, c ∈ hexSigns := by
  rw [hexForm_iff, Option.map_eq_some_iff] at h
  obtain ⟨word, hword, -⟩ := h
  obtain ⟨rest, hrest, -⟩ := Option.bind_eq_some_iff.mp hword
  exact hexSign_mem hrest

theorem NumberForm.chars {text : List Char} {x : Double} (h : NumberForm text x) :
    ∀ c ∈ text, c ∉ hexSigns := by
  have hblank : ∀ c ∈ hexSigns, Text.isBlank c = false := by
    intro c hc
    rcases mem_hexSigns.mp hc with rfl | rfl <;> decide
  have hnumeral : ∀ c ∈ hexSigns, ¬ (c.isDigit = true ∨ c ∈ Numeral.marks) := by
    intro c hc
    rcases mem_hexSigns.mp hc with rfl | rfl <;> decide
  obtain ⟨htrim, hdenotes, -⟩ := h
  obtain ⟨lead, trail, rfl, hlead, htrail⟩ := htrim.apart
  intro c hc hsign
  have hnot := hblank c hsign
  rcases List.mem_append.mp hc with hc | hc
  · exact absurd (hlead c hc) (by rw [hnot]; decide)
  · rcases List.mem_append.mp hc with hc | hc
    · exact hnumeral c hsign (hdenotes.isDigit_or_mark c hc)
    · exact absurd (htrail c hc) (by rw [hnot]; decide)

theorem PartsForm.chars {text : List Char} {v : Triple Double} (h : PartsForm text v) :
    ',' ∈ text ∧ ∀ c ∈ text, c ∉ hexSigns := by
  obtain ⟨-, -, -, hx, hy, hz⟩ := h
  refine ⟨by simp, fun c hc => ?_⟩
  have hcomma : ',' ∉ hexSigns := by decide
  rw [List.mem_append, List.mem_cons, List.mem_append, List.mem_cons] at hc
  rcases hc with hc | rfl | hc | rfl | hc
  · exact hx.chars c hc
  · exact hcomma
  · exact hy.chars c hc
  · exact hcomma
  · exact hz.chars c hc

theorem TupleForm.chars {text : List Char} {v : Triple Double} (h : TupleForm text v) :
    ',' ∈ text ∧ ∀ c ∈ text, c ∉ hexSigns := by
  cases h with
  | bare _ hparts => exact hparts.chars
  | parenthesized hparts =>
    obtain ⟨hcomma, hsigns⟩ := hparts.chars
    refine ⟨by simp [hcomma], fun c hc => ?_⟩
    rw [List.mem_cons, List.mem_append, List.mem_singleton] at hc
    rcases hc with rfl | hc | rfl
    · decide
    · exact hsigns c hc
    · decide

/-- No text has two of the forms. -/
theorem forms_disjoint (text : List Char) (v w : Triple Double) :
    ¬ (NameForm text v ∧ HexForm text w) ∧ ¬ (NameForm text v ∧ TupleForm text w) ∧
      ¬ (HexForm text v ∧ TupleForm text w) := by
  refine ⟨?_, ?_, ?_⟩
  · rintro ⟨hname, hhex⟩
    obtain ⟨c, hc, hsign⟩ := hhex.chars
    exact hname.chars.2 c hc hsign
  · rintro ⟨hname, htuple⟩
    exact hname.chars.1 htuple.chars.1
  · rintro ⟨hhex, htuple⟩
    obtain ⟨c, hc, hsign⟩ := hhex.chars
    exact htuple.chars.2 c hc hsign

/-! ## Reading -/

/-- A simplified text is read if it has one of the forms. What is tried first makes no
difference, since a mark and a name already rule the other forms out. -/
theorem readSimplified?_eq_some_iff {text : List Char} {v : Triple Double} :
    readSimplified? text = some v ↔ NameForm text v ∨ HexForm text v ∨ TupleForm text v := by
  rw [nameForm_iff, hexForm_iff, tupleForm_iff]
  unfold readSimplified?
  cases hname : Names.hexOf? text with
  | some word =>
    have hform : NameForm text (Hex.decode word) := nameForm_iff.mpr (by rw [hname]; rfl)
    obtain ⟨hhex, htuple, -⟩ := forms_disjoint text (Hex.decode word) v
    rw [← hexForm_iff, ← tupleForm_iff]
    constructor
    · exact .inl
    · rintro (h | h | h)
      · exact h
      · exact absurd ⟨hform, h⟩ hhex
      · exact absurd ⟨hform, h⟩ htuple
  | none =>
    cases hmark : afterHexMark? text with
    | some digits =>
      obtain ⟨c, hc, hsign⟩ := hexSign_mem hmark
      rw [← tupleForm_iff]
      constructor
      · exact fun h => .inr (.inl h)
      · rintro (h | h | h)
        · cases h
        · exact h
        · exact absurd hsign (h.chars.2 c hc)
    | none =>
      constructor
      · exact fun h => .inr (.inr h)
      · rintro (h | h | h)
        · cases h
        · cases h
        · exact h

/-! ## Finite channels -/

theorem isFinite_ofBytes {r g b : Nat} (hr : r < 256) (hg : g < 256) (hb : b < 256) :
    ∀ x ∈ (ofBytes r g b).toList, x.isFinite = true := by
  rw [Triple.forall_mem_toList]
  dsimp only [ofBytes]
  exact ⟨(Hex.within_decodeByte (Nat.le_of_lt_succ hr)).finite,
    (Hex.within_decodeByte (Nat.le_of_lt_succ hg)).finite,
    (Hex.within_decodeByte (Nat.le_of_lt_succ hb)).finite⟩

theorem NumberForm.isFinite {text : List Char} {x : Double} (h : NumberForm text x) :
    x.isFinite = true := by
  obtain ⟨-, -, hround⟩ := h
  exact (Numeral.toBinary_eq_iff.mpr hround).2

theorem NameForm.isFinite {text : List Char} {v : Triple Double} (h : NameForm text v) :
    ∀ x ∈ v.toList, x.isFinite = true := by
  obtain ⟨-⟩ := h
  exact isFinite_ofBytes (Nat.mod_lt _ (by decide)) (Nat.mod_lt _ (by decide))
    (Nat.mod_lt _ (by decide))

theorem HexForm.isFinite {text : List Char} {v : Triple Double} (h : HexForm text v) :
    ∀ x ∈ v.toList, x.isFinite = true := by
  have hlt : ∀ {d : Nat} {c : Char}, hexDigits[d]? = some c → d < 16 :=
    fun h => (List.getElem?_eq_some_iff.mp h).1
  obtain ⟨-, h₁, h₂, h₃, h₄, h₅, h₆⟩ := h
  have h₁ := hlt h₁
  have h₂ := hlt h₂
  have h₃ := hlt h₃
  have h₄ := hlt h₄
  have h₅ := hlt h₅
  have h₆ := hlt h₆
  exact isFinite_ofBytes (by omega) (by omega) (by omega)

theorem TupleForm.isFinite {text : List Char} {v : Triple Double} (h : TupleForm text v) :
    ∀ x ∈ v.toList, x.isFinite = true := by
  have hparts : ∀ {text : List Char}, PartsForm text v → ∀ x ∈ v.toList, x.isFinite = true := by
    rintro _ ⟨-, -, -, hx, hy, hz⟩
    exact Triple.forall_mem_toList.mpr ⟨hx.isFinite, hy.isFinite, hz.isFinite⟩
  cases h with
  | bare _ h => exact hparts h
  | parenthesized h => exact hparts h

/-- A text spells a color if, simplified, it has one of the three forms, and then the
color is that of the form. No text has two of the forms, and only finite channels are
spelled. -/
theorem read?_iff_form (text : String) :
    ∃ simple, (∀ t, Simplifies text.toList t ↔ t = simple) ∧
      (∀ v, read? text = some v ↔ NameForm simple v ∨ HexForm simple v ∨ TupleForm simple v) ∧
      (∀ v w, ¬ (NameForm simple v ∧ HexForm simple w) ∧
        ¬ (NameForm simple v ∧ TupleForm simple w) ∧ ¬ (HexForm simple v ∧ TupleForm simple w)) ∧
      ∀ v, read? text = some v → ∀ x ∈ v.toList, x.isFinite = true := by
  refine ⟨simplify text.toList, fun t => simplifies_iff.trans eq_comm,
    fun v => readSimplified?_eq_some_iff, forms_disjoint _, fun v hv => ?_⟩
  rcases readSimplified?_eq_some_iff.mp hv with h | h | h
  · exact h.isFinite
  · exact h.isFinite
  · exact h.isFinite

/-- Three numerals with all that may be left out or put around them. -/
theorem read?_iff_form_tuple :
    ∃ v, read? "\t( +.5E1 ,1.,-0e-7)" = some v ∧ ∀ x ∈ v.toList, x.isFinite = true := by
  obtain ⟨simple, -, -, -, hfinite⟩ := read?_iff_form "\t( +.5E1 ,1.,-0e-7)"
  have hread : read? "\t( +.5E1 ,1.,-0e-7)" =
      some ⟨.ofNat 5, .one, .signedZero true⟩ := by decide +kernel
  exact ⟨_, hread, hfinite _ hread⟩

example : read? " #0000FF\n" = some ⟨.zero, .zero, .one⟩ := by decide +kernel
example : read? "(1, 0, 1e999)" = none := by decide +kernel

end ColorAlgebra.Spelling
