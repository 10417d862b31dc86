import Mathlib.Data.List.Rotate
import ColorAlgebra.Proofs.Editing.Atomicity
import ColorAlgebra.Proofs.Slicing.Words

/-!
# Cyclic rotation

A rotation by `p` takes what is at `i` to the remainder of `i + p` by the length, which is never
negative. So rotations add up: only the sum of the places counts, and of that only its remainder.
The remainder is found in words, by a division that goes toward zero and a correction.
-/

namespace ColorAlgebra

open Word

namespace Sequence

variable {α : Type} {l : List α} {p q r : Int}

/-! ## Adding up -/

/-- Rotating toward the end is rotating toward the front by what is missing to full turns. -/
theorem rotate_eq_of_emod {k : Nat} (hk : (k : Int) % l.length = -p % l.length) :
    rotate l p = l.rotate k := by
  rcases Nat.eq_zero_or_pos l.length with hzero | hpos
  · rw [List.eq_nil_of_length_eq_zero hzero, rotate_nil, List.rotate_nil]
  · have hlt := turn_lt hpos p
    have hturn : ((turn l.length p : Nat) : Int) = p % l.length :=
      Int.toNat_of_nonneg (Int.emod_nonneg p (by omega))
    have hkept : ((l.length - turn l.length p : Nat) : Int) % l.length = -p % l.length := by
      rw [Int.ofNat_sub (Nat.le_of_lt hlt), hturn, Int.sub_emod_emod, Int.sub_emod_left]
    have hmod : (l.length - turn l.length p) % l.length = k % l.length := by
      exact_mod_cast hkept.trans hk.symm
    unfold rotate
    dsimp only
    rw [← List.rotate_eq_drop_append_take (Nat.sub_le _ _), ← List.rotate_mod, hmod,
      List.rotate_mod]

/-- The same for the least number of places toward the front. -/
theorem rotate_eq_rotate (h : 0 < l.length) (p : Int) :
    rotate l p = l.rotate (-p % l.length).toNat := by
  refine rotate_eq_of_emod ?_
  rw [Int.toNat_of_nonneg (Int.emod_nonneg _ (by omega)), Int.emod_emod]

/-- An element goes as many places toward the end, and on from the front. -/
theorem getElem?_rotate {i : Nat} (hi : i < l.length) (p : Int) :
    (rotate l p)[(((i : Int) + p) % l.length).toNat]? = l[i]? := by
  have hpos : 0 < l.length := Nat.zero_lt_of_lt hi
  have hne : (l.length : Int) ≠ 0 := by omega
  have hplace := Int.emod_nonneg ((i : Int) + p) hne
  have hback := Int.emod_nonneg (-p) hne
  have hlt := Int.emod_lt_of_pos ((i : Int) + p) (Int.natCast_pos.mpr hpos)
  have hsum : (((i : Int) + p) % l.length + -p % l.length) % l.length = i := by
    rw [← Int.add_emod, Int.add_neg_cancel_right, Int.emod_eq_of_lt (by omega) (by omega)]
  have hindex : ((((i : Int) + p) % l.length).toNat + (-p % l.length).toNat) % l.length = i := by
    refine Int.ofNat_inj.mp ?_
    rw [Int.natCast_emod, Int.natCast_add, Int.toNat_of_nonneg hplace, Int.toNat_of_nonneg hback,
      hsum]
  rw [rotate_eq_rotate hpos, List.getElem?_rotate (by omega), hindex]

/-- Rotations add up, and full turns do not count. -/
theorem rotate_rotate (h : r % l.length = (p + q) % l.length) :
    rotate (rotate l p) q = rotate l r := by
  rcases Nat.eq_zero_or_pos l.length with hzero | hpos
  · rw [List.eq_nil_of_length_eq_zero hzero, rotate_nil, rotate_nil, rotate_nil]
  · have hne : (l.length : Int) ≠ 0 := by omega
    have hpos' : 0 < (rotate l p).length := by rwa [length_rotate]
    have hp := Int.emod_nonneg (-p) hne
    have hq := Int.emod_nonneg (-q) hne
    rw [rotate_eq_rotate hpos', length_rotate, rotate_eq_rotate hpos, List.rotate_rotate]
    refine (rotate_eq_of_emod ?_).symm
    rw [Int.natCast_add, Int.toNat_of_nonneg hp, Int.toNat_of_nonneg hq, ← Int.add_emod,
      ← Int.neg_add, ← Int.zero_sub (p + q), ← Int.zero_sub r, ← Int.sub_emod_emod, ← h,
      Int.sub_emod_emod]

theorem rotate_zero (l : List α) : rotate l 0 = l :=
  (rotate_eq_of_emod (k := 0) (by simp)).trans (List.rotate_zero l)

theorem rotate_neg (l : List α) (p : Int) : rotate (rotate l p) (-p) = l := by
  rw [rotate_rotate (r := 0) (by rw [Int.add_right_neg]), rotate_zero]

/-! ## Rotating in words -/

/-- `Sequence.turn` in words. The length is taken for a signed word, and a remainder with the sign
of the places is moved up if it is negative. -/
def turnWords? (length : Nat) (places : Int) : Option Nat :=
  (signed? length).bind fun size =>
  (signed? (places.tmod size)).bind fun rest =>
  (if rest < 0 then signed? (rest + size) else some rest).bind unsigned?

/-- `Sequence.rotate` in words. -/
def rotateWords? (l : List α) (places : Int) : Option (List α) :=
  if l.length = 0 then some l
  else (turnWords? l.length places).bind fun k => (Guarded.turnRight l k).toOption

/-- No step leaves the words, whatever the places are. -/
theorem turnWords?_eq {n : Nat} (hpos : 0 < n) (hn : n ≤ maxLength) (p : Int) :
    turnWords? n p = some (turn n p) := by
  have hpos' : (0 : Int) < n := Int.natCast_pos.mpr hpos
  have hlow := Int.lt_tmod_of_pos p hpos'
  have hhigh := Int.tmod_lt_of_pos p hpos'
  have hnonneg := Int.emod_nonneg p (Int.ne_of_gt hpos')
  have hlt := Int.emod_lt_of_pos p hpos'
  have hrest : IsSigned (p.tmod n) := by
    unfold IsSigned
    unfold maxLength at hn ⊢
    omega
  have hmoved : (if p.tmod n < 0 then signed? (p.tmod n + n) else some (p.tmod n)) =
      some (p % n) := by
    rw [← Guarded.tmod_moved_up p hpos']
    split
    · exact signed?_eq_some (isSigned_of_le (by omega) (by omega) hn)
    · rfl
  unfold turnWords?
  rw [signed?_eq_some (isSigned_of_le (by omega) (Int.le_refl _) hn), Option.bind_some,
    signed?_eq_some hrest, Option.bind_some, hmoved, Option.bind_some]
  exact unsigned?_eq_some (isUnsigned_of_le hnonneg (Int.le_of_lt hlt) hn)

theorem rotateWords?_eq (hlen : l.length ≤ maxLength) (p : Int) :
    rotateWords? l p = some (rotate l p) := by
  unfold rotateWords?
  split
  · next hzero => rw [List.eq_nil_of_length_eq_zero hzero, rotate_nil]
  · next hne =>
    have hpos := Nat.pos_of_ne_zero hne
    have hturn : Guarded.turnRight l (turn l.length p) = .ok (rotate l p) :=
      if_pos (Nat.le_of_lt (turn_lt hpos p))
    rw [turnWords?_eq hpos hlen, Option.bind_some, hturn]
    rfl

end Sequence

/-! ## Things that turn -/

/-- What a rotation does with the elements that are seen of a thing. They stay as many, and each
goes on by the places, modulo their number. Two rotations are one by any number of places that
differs from the sum by full turns, and the opposite places take a rotation back. No step of
the computation leaves the words. -/
structure CyclicTurn {α β : Type} (view : β → List α) (turn : β → Int → β) : Prop where
  length : ∀ x p, (view (turn x p)).length = (view x).length
  lands : ∀ x p (i : Nat), i < (view x).length →
    (view (turn x p))[(((i : Int) + p) % (view x).length).toNat]? = (view x)[i]?
  empty : ∀ x p, view x = [] → turn x p = x
  compose : ∀ x (p q r : Int), r % (view x).length = (p + q) % (view x).length →
    turn (turn x p) q = turn x r
  back : ∀ x p, turn (turn x p) (-p) = x
  words : ∀ x p, (view x).length ≤ maxLength →
    Sequence.rotateWords? (view x) p = some (view (turn x p))

/-- Rotating the elements that are seen, and nothing else, is such a turn. -/
theorem CyclicTurn.of_view {α β γ : Type} {view : β → List α} {turn : β → Int → β}
    (rest : β → γ) (hview : ∀ x p, view (turn x p) = Sequence.rotate (view x) p)
    (hrest : ∀ x p, rest (turn x p) = rest x)
    (hext : ∀ x y, view x = view y → rest x = rest y → x = y) : CyclicTurn view turn where
  length x p := by rw [hview, Sequence.length_rotate]
  lands x p i hi := by rw [hview, Sequence.getElem?_rotate hi]
  empty x p hx := hext _ _ (by rw [hview, hx, Sequence.rotate_nil]) (hrest x p)
  compose x p q r h := by
    refine hext _ _ ?_ ?_
    · rw [hview, hview, hview, Sequence.rotate_rotate h]
    · rw [hrest, hrest, hrest]
  back x p := by
    refine hext _ _ ?_ ?_
    · rw [hview, hview, Sequence.rotate_neg]
    · rw [hrest, hrest]
  words x p hlen := by rw [hview, Sequence.rotateWords?_eq hlen]

theorem Triple.toList_injective {α : Type} {s t : Triple α} (h : s.toList = t.toList) : s = t := by
  obtain ⟨a, b, c⟩ := s
  obtain ⟨a', b', c'⟩ := t
  obtain ⟨rfl, rfl, rfl⟩ : a = a' ∧ b = b' ∧ c = c' := by simpa [toList] using h
  rfl

/-- Lists turn, the current palette of a workspace turns, and the channels of a color turn. -/
theorem rotations_cyclic (α : Type) (r : Range) (t : Format) :
    CyclicTurn (fun l : List α => l) Sequence.rotate ∧
    CyclicTurn (fun w : Workspace r t => w.current) (fun w p => (w.run (.rotate p)).2) ∧
    CyclicTurn (fun c : Color r t => c.channels.toList) Color.rotated := by
  refine ⟨?list, ?palette, ?color⟩
  case list => exact .of_view (fun _ => ()) (fun _ _ => rfl) (fun _ _ => rfl) fun _ _ h _ => h
  case palette =>
    refine .of_view Workspace.spare (fun _ _ => rfl) (fun _ _ => rfl) fun x y h hspare => ?_
    obtain ⟨current, spare⟩ := x
    obtain rfl : current = y.current := h
    obtain rfl : spare = y.spare := hspare
    rfl
  case color =>
    refine .of_view (fun _ => ()) (fun c p => c.channels.toList_rotate p) (fun _ _ => rfl) ?_
    intro c d h _
    obtain ⟨channels⟩ := c
    obtain rfl : channels = d.channels := Triple.toList_injective h
    rfl

end ColorAlgebra
