import ColorAlgebra.Palette.Workspace
import ColorAlgebra.Proofs.Combining.Natural

namespace ColorAlgebra

variable {r : Range} {t : Format}

/-! ## The rule of an operation -/

namespace Operation

/-- The palette's color is the right operand. -/
def isReversed : Operation → Bool
  | reversedDiv | reversedPow | reversedSub => true
  | _ => false

/-- The rule on two colors, the left operand first. -/
def rule : Operation → Color r t → Color r t → Color r t
  | add => Color.add
  | sub | reversedSub => Color.sub
  | mul => Color.mul
  | div | reversedDiv => Color.div
  | mod => Color.floorMod
  | pow | reversedPow => Color.pow
  | limitMin => Color.limitMin
  | limitMax => Color.limitMax

theorem apply_eq_rule (op : Operation) (c x : Color r t) :
    op.apply c x = if op.isReversed then op.rule x c else op.rule c x := by
  cases op <;> rfl

end Operation

namespace Palette

variable {p q : Palette r t} {xs : List (Color r t)} {op : Operation}

/-! ## Place by place -/

theorem combine_all_getElem? {x : Color r t} (hq : p.combine op (.all x) = .ok q) {i : Nat}
    {c : Color r t} (hc : p[i]? = some c) :
    q[i]? = some (if op.isReversed then op.rule x c else op.rule c x) := by
  cases hq
  rw [List.getElem?_map, hc, ← op.apply_eq_rule]
  rfl

theorem combine_each_of_length (hlen : xs.length = p.length) :
    p.combine op (.each xs) = .ok (p.zipWith op.apply xs) := if_pos hlen

theorem combine_each_of_length_ne (hlen : xs.length ≠ p.length) :
    p.combine op (.each xs) = .error (.lengthMismatch p.length xs.length) := if_neg hlen

theorem combine_each_getElem? (hlen : xs.length = p.length)
    (hq : p.combine op (.each xs) = .ok q) {i : Nat} {c x : Color r t} (hc : p[i]? = some c)
    (hx : xs[i]? = some x) :
    q[i]? = some (if op.isReversed then op.rule x c else op.rule c x) := by
  rw [combine_each_of_length hlen] at hq
  cases hq
  rw [List.getElem?_zipWith, hc, hx, ← op.apply_eq_rule]

/-! ## Rearranging -/

/-- An operation and then `g` is `g` on both sides and then the operation. -/
def CommutesWith (p : Palette r t) (op : Operation) (xs : List (Color r t))
    (g : List (Color r t) → Except Error (List (Color r t))) : Prop :=
  ∃ q p' xs' q', p.combine op (.each xs) = .ok q ∧ g p = .ok p' ∧ g xs = .ok xs' ∧
    g q = .ok q' ∧ Palette.combine p' op (.each xs') = .ok q'

theorem commutesWith_of_natural {g : (α : Type) → List α → Except Error (List α)}
    (hg : Sequence.Natural g) (hlen : xs.length = p.length) {p' : Palette r t}
    (hp : g _ p = .ok p') : p.CommutesWith op xs (g _) := by
  obtain ⟨xs', hxs, hlen', hzip⟩ := hg.zipWith op.apply hlen hp
  exact ⟨p.zipWith op.apply xs, p', xs', p'.zipWith op.apply xs', combine_each_of_length hlen, hp,
    hxs, hzip, combine_each_of_length hlen'⟩

end Palette

/-! ## Edits of a palette -/

namespace Workspace

open Sequence

variable (w : Workspace r t) (op : Operation)

theorem run_combine_of_ok {x : Argument r t} {q : Palette r t}
    (hq : w.current.combine op (w.operand x) = .ok q) :
    w.run (.combine op x) = (.done, { w with current := q }) :=
  congrArg w.attempt hq

/-- One operand for all always works, and so do operands that come one for each and are as
many as the colors: what stands at each place is the rule for the color there and its
operand, in the order of the operation. One operand for all is as many copies of it.
Operands that are more or fewer fail, and the workspace stays as it is. Moving or selecting
colors and operands alike makes no difference before the operation or after it. -/
theorem combine_elementwise :
    (∀ x, ∃ q, w.run (.combine op (.all x)) = (.done, { w with current := q }) ∧
      q.length = w.current.length ∧
      (∀ (i : Nat) (c : Color r t), w.current[i]? = some c →
        q[i]? = some (if op.isReversed then op.rule x c else op.rule c x)) ∧
      w.run (.combine op (.each (List.replicate w.current.length x))) =
        w.run (.combine op (.all x))) ∧
    (∀ xs, xs.length = w.current.length →
      ∃ q, w.run (.combine op (.each xs)) = (.done, { w with current := q }) ∧
        q.length = w.current.length ∧
        (∀ (i : Nat) (c x : Color r t), w.current[i]? = some c → xs[i]? = some x →
          q[i]? = some (if op.isReversed then op.rule x c else op.rule c x)) ∧
        (∀ places, w.current.CommutesWith op xs fun l => .ok (rotate l places)) ∧
        (w.current.CommutesWith op xs fun l => .ok l.reverse) ∧
        ∀ s : Slice, s.step ≠ 0 → (w.current.CommutesWith op xs fun l => extract l s) ∧
          w.current.CommutesWith op xs fun l => delete l s) ∧
    ∀ xs, xs.length ≠ w.current.length →
      w.run (.combine op (.each xs)) =
        (.failed (.lengthMismatch w.current.length xs.length), w) := by
  refine ⟨fun x => ?one, fun xs hlen => ?each, fun xs hlen => ?mismatch⟩
  case one =>
    have hq : w.current.combine op (.all x) = .ok (w.current.map fun c => op.apply c x) := rfl
    refine ⟨_, run_combine_of_ok w op hq, Palette.length_combine hq,
      fun i c => Palette.combine_all_getElem? hq, ?_⟩
    exact congrArg w.attempt (Palette.combine_all_eq_each w.current op x).symm
  case each =>
    have hq : w.current.combine op (.each xs) = .ok (w.current.zipWith op.apply xs) :=
      Palette.combine_each_of_length hlen
    refine ⟨_, run_combine_of_ok w op hq, Palette.length_combine hq,
      fun i c x => Palette.combine_each_getElem? hlen hq, fun places => ?_, ?_, fun s hs => ?_⟩
    · exact Palette.commutesWith_of_natural (natural_rotate places) hlen rfl
    · exact Palette.commutesWith_of_natural natural_reverse hlen rfl
    · obtain ⟨selection, hres⟩ := exists_selection hs
      exact ⟨Palette.commutesWith_of_natural (natural_extract s) hlen (extract_of_resolve (hres _)),
        Palette.commutesWith_of_natural (natural_delete s) hlen (delete_of_resolve (hres _))⟩
  case mismatch =>
    exact congrArg w.attempt (Palette.combine_each_of_length_ne hlen)

/-- Black and white are subtracted from red and blue, and read backward; for three operands
they are too few. -/
theorem combine_elementwise_pair :
    Palette.CommutesWith [.ofHex 0x000000, .ofHex 0xFFFFFF] .reversedSub
        [(.ofHex 0xFF0000 : Color .byte .half), .ofHex 0x0000FF]
        (fun l => extract l ⟨none, none, -1⟩) ∧
      (⟨[.ofHex 0x000000, .ofHex 0xFFFFFF], []⟩ : Workspace .byte .half).run
          (.combine .reversedSub (.each [.ofHex 0xFF0000, .ofHex 0x0000FF, .zero])) =
        (.failed (.lengthMismatch 2 3), ⟨[.ofHex 0x000000, .ofHex 0xFFFFFF], []⟩) := by
  obtain ⟨_, heach, hmismatch⟩ := combine_elementwise
    (⟨[.ofHex 0x000000, .ofHex 0xFFFFFF], []⟩ : Workspace .byte .half) .reversedSub
  obtain ⟨_, _, _, _, _, _, hslices⟩ := heach [.ofHex 0xFF0000, .ofHex 0x0000FF] (by simp)
  exact ⟨(hslices ⟨none, none, -1⟩ (by decide)).1, hmismatch _ (by simp)⟩

end Workspace

end ColorAlgebra
