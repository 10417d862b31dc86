import ColorAlgebra.Proofs.Binary.Ordered
import ColorAlgebra.Proofs.Combining.Channels
import ColorAlgebra.Proofs.Editing.Atomicity

namespace ColorAlgebra

/-! ## Sequences -/

namespace Sequence

variable {α : Type} {l : List α} {test : α → Bool} {i : Nat}

/-- The element at the place passes the test, and none before it does. -/
structure IsFirst (l : List α) (test : α → Bool) (i : Nat) : Prop where
  passes : ∃ x, l[i]? = some x ∧ test x = true
  earlier : ∀ j < i, ∀ x, l[j]? = some x → test x = false

theorem findIdx?_eq_some_iff : l.findIdx? test = some i ↔ IsFirst l test i := by
  rw [List.findIdx?_eq_some_iff_getElem]
  constructor
  · rintro ⟨hi, hpass, hearlier⟩
    refine ⟨⟨l[i], List.getElem?_eq_getElem hi, hpass⟩, fun j hj x hx => ?_⟩
    obtain ⟨_, rfl⟩ := List.getElem?_eq_some_iff.mp hx
    exact Bool.eq_false_iff.mpr (hearlier j hj)
  · rintro ⟨⟨x, hx, hpass⟩, hearlier⟩
    obtain ⟨hi, rfl⟩ := List.getElem?_eq_some_iff.mp hx
    refine ⟨hi, hpass, fun j hj => Bool.eq_false_iff.mp (hearlier j hj _ ?_)⟩
    exact List.getElem?_eq_getElem (Nat.lt_trans hj hi)

/-- The list around the place: nothing in front passes the test. -/
theorem IsFirst.split (h : IsFirst l test i) :
    ∃ x, test x = true ∧ l = l.take i ++ x :: l.drop (i + 1) ∧
      ∀ y ∈ l.take i, test y = false := by
  obtain ⟨⟨x, hx, hpass⟩, hearlier⟩ := h
  obtain ⟨hi, rfl⟩ := List.getElem?_eq_some_iff.mp hx
  refine ⟨l[i], hpass, ?_, fun y hy => ?_⟩
  · rw [← List.drop_eq_getElem_cons hi, List.take_append_drop]
  · obtain ⟨j, hj, rfl⟩ := List.mem_take_iff_getElem.mp hy
    have hlt := Nat.lt_min.mp hj
    exact hearlier j hlt.1 _ (List.getElem?_eq_getElem hlt.2)

/-- Taking out the first element that passes takes one from their number. -/
theorem IsFirst.countP_without (h : IsFirst l test i) :
    (l.take i ++ l.drop (i + 1)).countP test + 1 = l.countP test := by
  obtain ⟨x, hpass, hsplit, -⟩ := h.split
  have hcount := congrArg (List.countP test) hsplit
  rw [List.countP_append, List.countP_cons_of_pos hpass] at hcount
  rw [List.countP_append]
  omega

/-- It takes nothing from the elements that do not pass. -/
theorem IsFirst.filter_without (h : IsFirst l test i) :
    (l.take i ++ l.drop (i + 1)).filter (fun x => !test x) = l.filter fun x => !test x := by
  obtain ⟨x, hpass, hsplit, -⟩ := h.split
  have hfilter := congrArg (List.filter fun x => !test x) hsplit
  rw [List.filter_append, List.filter_cons_of_neg (by simp [hpass])] at hfilter
  rw [hfilter, List.filter_append]

theorem removeFirst?_of_isFirst (h : IsFirst l test i) :
    removeFirst? l test = some (l.take i ++ l.drop (i + 1)) := by
  unfold removeFirst?
  rw [findIdx?_eq_some_iff.mpr h, Option.map_some, List.eraseIdx_eq_take_drop_succ]

theorem removeFirst?_eq_none (h : l.countP test = 0) : removeFirst? l test = none := by
  have hfails : ∀ x ∈ l, test x = false := fun x hx =>
    Bool.eq_false_iff.mpr (List.countP_eq_zero.mp h x hx)
  unfold removeFirst?
  rw [List.findIdx?_eq_none_iff.mpr hfails, Option.map_none]

end Sequence

/-! ## Palettes -/

variable {r : Range} {t : Format}

/-- Only a color without a NaN equals anything. -/
theorem Color.isNumeric_of_equal {a b : Color r t} (h : a.equal b = true) : b.IsNumeric := by
  refine isNumeric_iff_channel.mpr fun i => ?_
  have horder := Binary.ordered_of_equal (s := false) (equal_iff_channel.mp h i)
  exact (Binary.isNaN_of_ordered horder).2

namespace Palette

variable {p : Palette r t} {c : Color r t}

/-- The colors that do not equal `c`, in their order. -/
def others (p : Palette r t) (c : Color r t) : Palette r t := p.filter fun x => !x.equal c

theorem others_of_count_eq_zero (h : p.count c = 0) : p.others c = p :=
  List.filter_eq_self.mpr fun x hx => by simpa using List.countP_eq_zero.mp h x hx

theorem exists_isFirst (h : 0 < p.count c) :
    ∃ i, Sequence.IsFirst p (fun x => x.equal c) i := by
  cases hfind : p.indexOf? c with
  | none => exact absurd (indexOf?_eq_none_iff.mp hfind) (Nat.ne_of_gt h)
  | some i => exact ⟨i, Sequence.findIdx?_eq_some_iff.mp hfind⟩

theorem count_eq_zero_of_not_isNumeric (hc : ¬c.IsNumeric) : p.count c = 0 :=
  List.countP_eq_zero.mpr fun _ _ h => hc (Color.isNumeric_of_equal h)

end Palette

/-! ## Workspaces -/

namespace Workspace

variable {w : Workspace r t} {c : Color r t}

/-- Removes a color a number of times in a row. -/
def removals (w : Workspace r t) (c : Color r t) (n : Nat) : Workspace r t :=
  w.runAll (List.replicate n (.remove c))

theorem removals_succ (w : Workspace r t) (c : Color r t) (n : Nat) :
    w.removals c (n + 1) = (w.run (.remove c)).2.removals c n := by
  unfold removals
  rw [List.replicate_succ, runAll_cons]

theorem run_remove_of_isFirst {i : Nat}
    (h : Sequence.IsFirst w.current (fun x => x.equal c) i) :
    w.run (.remove c) =
      (.done, { w with current := w.current.take i ++ w.current.drop (i + 1) }) := by
  have hremove : w.current.remove c = .ok (w.current.take i ++ w.current.drop (i + 1)) := by
    unfold Palette.remove
    rw [Sequence.removeFirst?_of_isFirst h]
  exact congrArg w.attempt hremove

theorem run_remove_of_count_eq_zero (h : w.current.count c = 0) :
    w.run (.remove c) = (.failed .notFound, w) := by
  have hremove : w.current.remove c = .error .notFound := by
    unfold Palette.remove
    rw [Sequence.removeFirst?_eq_none h]
  exact congrArg w.attempt hremove

/-- A removal succeeds if there is something to remove. -/
theorem reply_remove (w : Workspace r t) (c : Color r t) :
    (w.run (.remove c)).1 = if 0 < w.current.count c then .done else .failed .notFound := by
  split
  · next hpos =>
    obtain ⟨i, hi⟩ := Palette.exists_isFirst hpos
    rw [run_remove_of_isFirst hi]
  · next hzero => rw [run_remove_of_count_eq_zero (Nat.eq_zero_of_not_pos hzero)]

/-- What one removal keeps and what it counts down. -/
theorem remove_keeps (w : Workspace r t) (c : Color r t) :
    (w.run (.remove c)).2.current.count c = w.current.count c - 1 ∧
      (w.run (.remove c)).2.current.others c = w.current.others c ∧
      (w.run (.remove c)).2.spare = w.spare := by
  rcases Nat.eq_zero_or_pos (w.current.count c) with hzero | hpos
  · rw [run_remove_of_count_eq_zero hzero, hzero]
    exact ⟨rfl, rfl, rfl⟩
  · obtain ⟨i, hi⟩ := Palette.exists_isFirst hpos
    rw [run_remove_of_isFirst hi]
    exact ⟨Nat.eq_sub_of_add_eq hi.countP_without, hi.filter_without, rfl⟩

/-- By induction on the number of removals, what all of them keep and count down. -/
theorem removals_keeps (w : Workspace r t) (c : Color r t) (n : Nat) :
    (w.removals c n).current.count c = w.current.count c - n ∧
      (w.removals c n).current.others c = w.current.others c ∧
      (w.removals c n).spare = w.spare := by
  induction n generalizing w with
  | zero => exact ⟨rfl, rfl, rfl⟩
  | succ n ih =>
    obtain ⟨hcount, hothers, hspare⟩ := w.remove_keeps c
    obtain ⟨hcount', hothers', hspare'⟩ := ih (w.run (.remove c)).2
    rw [removals_succ]
    refine ⟨?_, hothers'.trans hothers, hspare'.trans hspare⟩
    rw [hcount', hcount, Nat.sub_sub, Nat.add_comm]

/-- The colors that are left in the end are those that never passed the test. -/
theorem removals_of_count_le {n : Nat} (h : w.current.count c ≤ n) :
    w.removals c n = { w with current := w.current.others c } := by
  obtain ⟨hcount, hothers, hspare⟩ := w.removals_keeps c n
  rw [Nat.sub_eq_zero_of_le h] at hcount
  rw [Palette.others_of_count_eq_zero hcount] at hothers
  generalize w.removals c n = w' at hothers hspare ⊢
  obtain ⟨current, spare⟩ := w'
  obtain rfl : current = w.current.others c := hothers
  obtain rfl : spare = w.spare := hspare
  rfl

/-- A color is found at the first place that holds an equal one, and nowhere if none is
counted; then its number is minus one. It is removed from the place at which it is found, and
the others stay in their order. Removing it again and again succeeds as often as it was
counted, fails from then on, and leaves the colors that do not equal it. A color with a NaN is
not removed at all. -/
theorem search_and_removal_agree (w : Workspace r t) (c : Color r t) :
    (∀ i, w.current.indexOf? c = some i ↔
      Sequence.IsFirst w.current (fun x => x.equal c) i) ∧
    (w.current.indexOf? c = none ↔ w.current.count c = 0) ∧
    (w.current.count c = 0 →
      w.current.indexOrNeg c = -1 ∧ w.run (.remove c) = (.failed .notFound, w)) ∧
    (0 < w.current.count c → ∃ i rest, w.current.indexOf? c = some i ∧
      w.current.indexOrNeg c = i ∧ rest = w.current.take i ++ w.current.drop (i + 1) ∧
      w.run (.remove c) = (.done, { w with current := rest }) ∧
      Palette.count rest c + 1 = w.current.count c) ∧
    (∀ n, ((w.removals c n).run (.remove c)).1 =
      if n < w.current.count c then .done else .failed .notFound) ∧
    (∀ n, w.current.count c ≤ n →
      w.removals c n = { w with current := w.current.others c }) ∧
    (¬c.IsNumeric → w.current.count c = 0 ∧ w.run (.remove c) = (.failed .notFound, w)) := by
  refine ⟨fun i => Sequence.findIdx?_eq_some_iff, Palette.indexOf?_eq_none_iff, fun hzero => ?_,
    fun hpos => ?_, fun n => ?_, fun n => removals_of_count_le, fun hc => ?_⟩
  · refine ⟨?_, run_remove_of_count_eq_zero hzero⟩
    unfold Palette.indexOrNeg
    rw [Palette.indexOf?_eq_none_iff.mpr hzero]
  · obtain ⟨i, hi⟩ := Palette.exists_isFirst hpos
    have hfind : w.current.indexOf? c = some i := Sequence.findIdx?_eq_some_iff.mpr hi
    refine ⟨i, _, hfind, ?_, rfl, run_remove_of_isFirst hi, hi.countP_without⟩
    unfold Palette.indexOrNeg
    rw [hfind]
  · rw [reply_remove, (w.removals_keeps c n).1]
    simp only [Nat.sub_pos_iff_lt]
  · have hzero : w.current.count c = 0 := Palette.count_eq_zero_of_not_isNumeric hc
    exact ⟨hzero, run_remove_of_count_eq_zero hzero⟩

/-- The two zeros are one color; a color with a NaN stays between them. -/
theorem search_and_removal_agree_zeros :
    let minusZero : Color .normal .double := .splat (.signedZero true)
    let w : Workspace .normal .double := ⟨[.splat .one, minusZero, .splat .nan, .zero], []⟩
    Palette.count w.current .zero ≤ 2 ∧ ¬(Color.splat .nan : Color .normal .double).IsNumeric ∧
      w.removals .zero 2 = ⟨[.splat .one, .splat .nan], []⟩ ∧
      ((w.removals .zero 1).run (.remove .zero)).1 = .done ∧
      ((w.removals .zero 2).run (.remove .zero)).1 = .failed .notFound ∧
      w.run (.remove (.splat .nan)) = (.failed .notFound, w) := by
  intro minusZero w
  have hcount : Palette.count w.current .zero = 2 := by decide +kernel
  have hnan : ¬(Color.splat .nan : Color .normal .double).IsNumeric := by decide
  obtain ⟨-, -, -, -, hreply, hleft, -⟩ := search_and_removal_agree w .zero
  obtain ⟨-, -, -, -, -, -, hmissing⟩ := search_and_removal_agree w (.splat .nan)
  have hothers : Palette.others w.current .zero = [.splat .one, .splat .nan] := by decide +kernel
  have hsecond := hreply 1
  have hthird := hreply 2
  rw [hcount, if_pos (by decide)] at hsecond
  rw [hcount, if_neg (by decide)] at hthird
  refine ⟨Nat.le_of_eq hcount, hnan, ?_, hsecond, hthird, (hmissing hnan).2⟩
  rw [hleft 2 (Nat.le_of_eq hcount), hothers]

end Workspace

end ColorAlgebra
