import ColorAlgebra.Text.Extending
import ColorAlgebra.Text.Unprintable

/-!
# Quoted text

A text between double quotes, as messages show it: a quote or backslash has a
backslash in front, four control characters have a letter of their own, and
every other character that shows nothing by itself is spelled by its code
point. An apostrophe stays as it is.
-/

namespace ColorAlgebra.Text

/-- A character that shows nothing by itself. -/
def isHidden (c : Char) : Bool := isExtending c || isUnprintable c

/-- A code point in lowercase hexadecimal, in braces behind `\u`. -/
def spellOut (c : Char) : List Char :=
  ['\\', 'u', '\x7b'] ++ Nat.toDigits 16 c.toNat ++ ['\x7d']

/-- How a character stands in a quoted text. -/
def quoteChar (c : Char) : List Char :=
  if c = '"' ∨ c = '\\' then ['\\', c]
  else if c = '\x00' then ['\\', '0']
  else if c = '\t' then ['\\', 't']
  else if c = '\n' then ['\\', 'n']
  else if c = '\r' then ['\\', 'r']
  else if isHidden c then spellOut c
  else [c]

/-- The text in quotes. -/
def quote (text : String) : String :=
  String.ofList ('"' :: text.toList.flatMap quoteChar ++ ['"'])

/-! ## Everything shows -/

/-- The characters of ASCII that are printed. -/
def isPlain (c : Char) : Bool := 0x20 ≤ c.toNat && c.toNat < 0x7f

/-- No range of hidden characters reaches into the plain ones. -/
theorem hiddenRanges_apart :
    (extendingRanges ++ unprintableRanges).all
      (fun (low, high) => high < 0x20 || 0x7f ≤ low) = true := by
  decide +kernel

theorem isHidden_of_isPlain {c : Char} (h : isPlain c = true) : isHidden c = false := by
  have hranges : ∀ range ∈ extendingRanges ++ unprintableRanges,
      (range.1 ≤ c.toNat && c.toNat ≤ range.2) = false := by
    intro range hrange
    have hapart := List.all_eq_true.mp hiddenRanges_apart range hrange
    simp only [isPlain, Bool.and_eq_true, decide_eq_true_eq] at h
    simp only [Bool.or_eq_true, decide_eq_true_eq] at hapart
    rw [Bool.and_eq_false_iff, decide_eq_false_iff_not, decide_eq_false_iff_not]
    omega
  have hnone := List.any_eq_false.mpr fun range hrange => ne_true_of_eq_false (hranges range hrange)
  rwa [List.any_append] at hnone

theorem isPlain_of_mem_toDigits {n : Nat} {c : Char} (h : c ∈ Nat.toDigits 16 n) :
    isPlain c = true := by
  have hdigit : ∀ n < 16, isPlain n.digitChar = true := by decide
  induction n using Nat.strongRecOn with
  | ind n ih =>
    rcases Nat.lt_or_ge n 16 with hlt | hge
    · rw [Nat.toDigits_of_lt_base hlt, List.mem_singleton] at h
      exact h ▸ hdigit n hlt
    · rw [Nat.toDigits_of_base_le (by decide) hge, List.mem_append, List.mem_singleton] at h
      rcases h with h | rfl
      · exact ih (n / 16) (Nat.div_lt_self (by omega) (by decide)) h
      · exact hdigit _ (Nat.mod_lt n (by decide))

theorem isPlain_of_mem_spellOut {c d : Char} (h : d ∈ spellOut c) : isPlain d = true := by
  have hfront : ['\\', 'u', '\x7b'].all isPlain = true := by decide
  have hback : ['\x7d'].all isPlain = true := by decide
  simp only [spellOut, List.mem_append] at h
  rcases h with (h | h) | h
  · exact List.all_eq_true.mp hfront d h
  · exact isPlain_of_mem_toDigits h
  · exact List.all_eq_true.mp hback d h

/-- A plain character behind a backslash. -/
theorem isHidden_of_mem_escaped {mark d : Char} (hmark : isPlain mark = true)
    (h : d ∈ ['\\', mark]) : isHidden d = false := by
  rcases List.mem_cons.mp h with rfl | h
  · exact isHidden_of_isPlain (by decide)
  · rw [List.mem_singleton.mp h]
    exact isHidden_of_isPlain hmark

theorem isHidden_of_mem_quoteChar {c d : Char} (h : d ∈ quoteChar c) : isHidden d = false := by
  unfold quoteChar at h
  repeat' split at h
  · next hquote => exact isHidden_of_mem_escaped (by rcases hquote with rfl | rfl <;> decide) h
  · exact isHidden_of_mem_escaped (by decide) h
  · exact isHidden_of_mem_escaped (by decide) h
  · exact isHidden_of_mem_escaped (by decide) h
  · exact isHidden_of_mem_escaped (by decide) h
  · exact isHidden_of_isPlain (isPlain_of_mem_spellOut h)
  · next hshown =>
    rw [List.mem_singleton.mp h]
    exact eq_false_of_ne_true hshown

/-- Whatever characters a text holds, all that stand in its quotation show. -/
theorem isHidden_of_mem_quote {text : String} {d : Char} (h : d ∈ (quote text).toList) :
    isHidden d = false := by
  have hquote : isHidden '"' = false := isHidden_of_isPlain (by decide)
  rw [quote, String.toList_ofList, List.cons_append, List.mem_cons, List.mem_append,
    List.mem_singleton, List.mem_flatMap] at h
  rcases h with rfl | ⟨c, -, hd⟩ | rfl
  · exact hquote
  · exact isHidden_of_mem_quoteChar hd
  · exact hquote

example : quoteChar '\u0301' = ['\\', 'u', '\x7b', '3', '0', '1', '\x7d'] := by decide +kernel
example : quoteChar '\uff9e' = ['\uff9e'] := by decide +kernel

end ColorAlgebra.Text
