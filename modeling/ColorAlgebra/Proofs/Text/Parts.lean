import Mathlib.Data.List.TakeWhile
import ColorAlgebra.Text.Blank
import ColorAlgebra.Text.Split

namespace ColorAlgebra.Text

variable {mark : Char} {text body : List Char}

/-! ## Trimming -/

/-- The text is the body with blanks before and behind it, and the body has no blank at
its front or back. -/
structure Trims (text body : List Char) : Prop where
  apart : ∃ lead trail, text = lead ++ (body ++ trail) ∧ (∀ c ∈ lead, isBlank c = true) ∧
    ∀ c ∈ trail, isBlank c = true
  front : ∀ c, body.head? = some c → isBlank c = false
  back : ∀ c, body.getLast? = some c → isBlank c = false

theorem front_dropWhile (text : List Char) :
    ∀ c, (text.dropWhile isBlank).head? = some c → isBlank c = false := by
  intro c hc
  have h := List.head?_dropWhile_not isBlank text
  rwa [hc] at h

theorem Trims.trim_eq (h : Trims text body) : trim text = body := by
  obtain ⟨lead, trail, rfl, hlead, htrail⟩ := h.apart
  have hback : body.reverse.dropWhile isBlank = body.reverse :=
    dropWhile_of_front (by simpa using h.back)
  have hdrop : (body ++ trail).reverse.dropWhile isBlank = body.reverse := by
    rw [List.reverse_append, List.dropWhile_append_of_pos (by simpa using htrail), hback]
  unfold trim
  rw [List.dropWhile_append_of_pos hlead]
  cases body with
  | nil =>
    rw [List.nil_append, List.dropWhile_eq_nil_iff.mpr htrail]
    rfl
  | cons c rest =>
    have hkeep : (c :: rest ++ trail).dropWhile isBlank = c :: rest ++ trail :=
      dropWhile_of_front h.front
    rw [hkeep, hdrop, List.reverse_reverse]

theorem trims_trim (text : List Char) : Trims text (trim text) := by
  have hlead := List.takeWhile_append_dropWhile (p := isBlank) (l := text)
  have hfront := front_dropWhile text
  unfold trim
  generalize text.dropWhile isBlank = rest at hlead hfront ⊢
  have htrail := List.takeWhile_append_dropWhile (p := isBlank) (l := rest.reverse)
  have hrest : (rest.reverse.dropWhile isBlank).reverse ++
      (rest.reverse.takeWhile isBlank).reverse = rest := by
    rw [← List.reverse_append, htrail, List.reverse_reverse]
  refine ⟨⟨text.takeWhile isBlank, (rest.reverse.takeWhile isBlank).reverse, ?_, ?_, ?_⟩, ?_, ?_⟩
  · rw [hrest, hlead]
  · exact fun c hc => List.all_eq_true.mp List.all_takeWhile c hc
  · exact fun c hc => List.all_eq_true.mp List.all_takeWhile c (List.mem_reverse.mp hc)
  · intro c hc
    refine hfront c ?_
    rw [← hrest, List.head?_append, hc]
    rfl
  · intro c hc
    rw [List.getLast?_reverse] at hc
    exact front_dropWhile rest.reverse c hc

theorem trim_eq_iff : trim text = body ↔ Trims text body :=
  ⟨fun h => h ▸ trims_trim text, Trims.trim_eq⟩

/-! ## Splitting -/

theorem not_mem_of_mem_split {part : List Char} (h : part ∈ split mark text) : mark ∉ part := by
  induction text generalizing part with
  | nil =>
    rw [split, List.mem_singleton] at h
    rw [h]
    exact List.not_mem_nil
  | cons c rest ih =>
    rw [split] at h
    split at h
    · rcases List.mem_cons.mp h with rfl | h
      · exact List.not_mem_nil
      · exact ih h
    · next hc =>
      cases hs : split mark rest with
      | nil => exact absurd hs (split_ne_nil mark rest)
      | cons first parts =>
        rw [hs] at h ih
        rcases List.mem_cons.mp h with rfl | h
        · rw [List.mem_cons, not_or]
          exact ⟨fun heq => hc heq.symm, ih List.mem_cons_self⟩
        · exact ih (List.mem_cons_of_mem first h)

theorem split_eq_three_iff {a b c : List Char} :
    split mark text = [a, b, c] ↔
      text = a ++ mark :: (b ++ mark :: c) ∧ mark ∉ a ∧ mark ∉ b ∧ mark ∉ c := by
  constructor
  · intro h
    have hparts : ∀ part ∈ [a, b, c], mark ∉ part := fun part hp =>
      not_mem_of_mem_split (h ▸ hp)
    have htext := intercalate_split mark text
    rw [h] at htext
    refine ⟨?_, hparts a (by simp), hparts b (by simp), hparts c (by simp)⟩
    rw [← htext]
    simp [List.intercalate]
  · rintro ⟨rfl, ha, hb, hc⟩
    rw [split_append_cons _ ha, split_append_cons _ hb, split_of_not_mem hc]

end ColorAlgebra.Text
