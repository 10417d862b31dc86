namespace ColorAlgebra.Text

/-- The parts of a text between the occurrences of `mark`. -/
def split (mark : Char) : List Char → List (List Char)
  | [] => [[]]
  | c :: rest =>
    if c = mark then [] :: split mark rest
    else
      match split mark rest with
      | [] => [[c]]
      | part :: parts => (c :: part) :: parts

theorem split_ne_nil (mark : Char) (text : List Char) : split mark text ≠ [] := by
  cases text with
  | nil => simp [split]
  | cons c rest =>
    simp only [split]
    split
    · simp
    · split <;> simp

theorem length_split (mark : Char) (text : List Char) :
    (split mark text).length = text.count mark + 1 := by
  induction text with
  | nil => rfl
  | cons c rest ih =>
    by_cases h : c = mark
    · simp [split, h, ih]
    · have hc : (c :: rest).count mark = rest.count mark := List.count_cons_of_ne h
      rw [hc, ← ih, split, if_neg h]
      cases hs : split mark rest with
      | nil => exact absurd hs (split_ne_nil mark rest)
      | cons part parts => rfl

theorem intercalate_split (mark : Char) (text : List Char) :
    [mark].intercalate (split mark text) = text := by
  induction text with
  | nil => rfl
  | cons c rest ih =>
    rw [split]
    cases hs : split mark rest with
    | nil => exact absurd hs (split_ne_nil mark rest)
    | cons part parts =>
      rw [hs] at ih
      split
      · next h => rw [← ih, h]; rfl
      · rw [← ih]; cases parts <;> rfl

theorem split_of_not_mem {mark : Char} {text : List Char} (h : mark ∉ text) :
    split mark text = [text] := by
  induction text with
  | nil => rfl
  | cons c rest ih =>
    have hc : c ≠ mark := fun heq => h (heq ▸ List.mem_cons_self)
    rw [split, if_neg hc, ih (fun hm => h (List.mem_cons_of_mem c hm))]

theorem split_append_cons {mark : Char} {part : List Char} (rest : List Char)
    (h : mark ∉ part) : split mark (part ++ mark :: rest) = part :: split mark rest := by
  induction part with
  | nil => rw [List.nil_append, split, if_pos rfl]
  | cons c part ih =>
    have hc : c ≠ mark := fun heq => h (heq ▸ List.mem_cons_self)
    rw [List.cons_append, split, if_neg hc, ih (fun hm => h (List.mem_cons_of_mem c hm))]

end ColorAlgebra.Text
