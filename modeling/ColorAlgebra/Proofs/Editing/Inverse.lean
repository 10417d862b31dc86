import Mathlib.Data.List.InsertIdx
import ColorAlgebra.Proofs.Editing.Atomicity
import ColorAlgebra.Proofs.Slicing.Words

/-!
# Taking out and putting back

A key that names no position is rejected when a color is taken out, and moved to the nearest
end when one is put in; at the position that a key was resolved to, the two are inverse. Keys
are words. The sum of a negative key and a length is a word too, so it makes no difference
that inserting stops it at the ends of the words.
-/

namespace ColorAlgebra

/-! ## Keys in words -/

namespace Word

/-- The signed word nearest to a number. -/
def saturated (n : Int) : Int := max (-0x8000000000000000) (min n maxLength)

theorem saturated_eq {n : Int} (h : IsSigned n) : saturated n = n := by
  unfold saturated
  rw [Int.min_eq_left h.2, Int.max_eq_right h.1]

end Word

open Word

namespace Key

/-- `Key.position?` in words. The sum of a key and a length is one step. -/
def positionWords? (key : Key) (size : Nat) : Option (Option Nat) :=
  if size ≤ maxLength then
    (if key < 0 then signed? (key + size) else some key).map fun place : Int =>
      if 0 ≤ place ∧ place < size then some place.toNat else none
  else some none

/-- `Key.clamped` in words. The sum of a key and a length stops at the ends of the words. -/
def clampedWords (key : Key) (size : Nat) : Nat :=
  let bound := min size maxLength
  (max 0 (min (if key < 0 then saturated (key + bound) else key) bound)).toNat

/-- `Key.insertionPoint` in words. -/
def insertionWords? (key : Key) (size : Nat) : Option Nat :=
  (key.positionWords? size).map fun place? => place?.getD (key.clampedWords size)

variable {key : Int} {size : Nat}

/-- A negative key and a length are added without leaving the words. -/
theorem isSigned_add (hkey : IsSigned key) (hneg : key < 0) (hsize : size ≤ maxLength) :
    IsSigned (key + size) :=
  ⟨by have := hkey.1; omega, by omega⟩

theorem positionWords?_eq (hkey : IsSigned key) (size : Nat) :
    positionWords? key size = some (position? key size) := by
  unfold positionWords? position? fromFront
  split
  · next hsize =>
    split
    · next hneg =>
      rw [signed?_eq_some (isSigned_add hkey hneg hsize), Option.map_some]
      simp only [hsize, true_and]
    · rw [Option.map_some]
      simp only [hsize, true_and]
  · next hsize => rw [if_neg fun h => hsize h.1]

theorem clampedWords_eq (hkey : IsSigned key) (size : Nat) :
    clampedWords key size = clamped key size := by
  unfold clampedWords clamped fromFront
  dsimp only
  split
  · next hneg => rw [saturated_eq (isSigned_add hkey hneg (Nat.min_le_right _ _))]
  · rfl

theorem insertionWords?_eq (hkey : IsSigned key) (size : Nat) :
    insertionWords? key size = some (insertionPoint key size) := by
  unfold insertionWords? insertionPoint
  rw [positionWords?_eq hkey, clampedWords_eq hkey, Option.map_some]

theorem fromFront_eq (key : Int) (size : Nat) :
    fromFront key size = if 0 ≤ key then key else key + size := by
  unfold fromFront
  by_cases h : 0 ≤ key
  · rw [if_pos h, if_neg (Int.not_lt.mpr h)]
  · rw [if_neg h, if_pos (Int.not_le.mp h)]

/-- Where an element goes: to the position of the key, moved to the nearest end. -/
theorem cast_insertionPoint (key : Int) (hsize : size ≤ maxLength) :
    (insertionPoint key size : Int) = max 0 (min (fromFront key size) size) := by
  unfold insertionPoint
  cases h : position? key size with
  | none =>
    unfold clamped
    dsimp only
    rw [Nat.min_eq_left hsize, Option.getD_none]
    omega
  | some k =>
    obtain ⟨-, hk, hplace⟩ := position?_eq_some_iff.mp h
    rw [Option.getD_some, ← hplace]
    omega

end Key

/-! ## Lists -/

namespace Sequence

variable {α : Type} {l : List α} {key : Int} {x : α} {k : Nat}

theorem insertIdx_eq (x : α) (hk : k ≤ l.length) :
    l.insertIdx k x = l.take k ++ [x] ++ l.drop k := by
  induction k generalizing l with
  | zero => rfl
  | succ k ih =>
    cases l with
    | nil => cases hk
    | cons y rest =>
      rw [List.insertIdx_succ_cons, ih (Nat.le_of_succ_le_succ hk)]
      rfl

theorem pop?_eq_some_iff {rest : List α} :
    pop? l key = some (x, rest) ↔
      ∃ k, Key.position? key l.length = some k ∧ l[k]? = some x ∧ rest = l.eraseIdx k := by
  unfold pop?
  cases h : Key.position? key l.length with
  | none => simp
  | some k =>
    rw [Option.bind_some, Option.map_eq_some_iff]
    constructor
    · rintro ⟨y, hy, hpair⟩
      obtain ⟨rfl, rfl⟩ := Prod.mk.inj hpair
      exact ⟨k, rfl, hy, rfl⟩
    · rintro ⟨j, hj, hy, rfl⟩
      obtain rfl := Option.some.inj hj
      exact ⟨x, hy, rfl⟩

/-- An element that was taken out goes back to where it was, also at the end. -/
theorem insert_eraseIdx (hlen : l.length ≤ maxLength) (hk : l[k]? = some x) :
    insert (l.eraseIdx k) k x = l := by
  obtain ⟨hlt, hx⟩ := List.getElem?_eq_some_iff.mp hk
  have hsize : (l.eraseIdx k).length = l.length - 1 := List.length_eraseIdx_of_lt hlt
  have hpoint := Key.cast_insertionPoint k (show l.length - 1 ≤ maxLength by omega)
  rw [Key.fromFront_eq, if_pos (Int.natCast_nonneg k)] at hpoint
  have hpoint : Key.insertionPoint k (l.length - 1) = k := by omega
  unfold insert
  rw [hsize, hpoint, ← hx, List.insertIdx_eraseIdx_getElem hlt]

/-- An element that was put in is the one at its position. -/
theorem pop?_insertIdx (hlen : l.length < maxLength) (hk : k ≤ l.length) :
    pop? (l.insertIdx k x) k = some (x, l) := by
  have hsize : (l.insertIdx k x).length = l.length + 1 := List.length_insertIdx_of_le_length hk x
  refine pop?_eq_some_iff.mpr ⟨k, ?_, ?_, (List.eraseIdx_insertIdx_self x).symm⟩
  · rw [hsize]
    exact Key.position?_ofNat (Nat.lt_succ_of_le hk) hlen
  · rw [List.getElem?_insertIdx_self, if_pos hk]

/-- The last element is the one at the key `-1`. -/
theorem popLast?_eq (hlen : l.length ≤ maxLength) : popLast? l = pop? l (-1) := by
  rcases List.eq_nil_or_concat' l with rfl | ⟨front, y, rfl⟩
  · rfl
  · have hsize : (front ++ [y]).length = front.length + 1 := List.length_append
    have hplace : Key.position? (-1) (front ++ [y]).length = some front.length := by
      rw [Key.position?_eq_some_iff, Key.fromFront_eq, if_neg (by decide)]
      exact ⟨hlen, by omega, by omega⟩
    have hlast : popLast? (front ++ [y]) = some (y, front) := by simp [popLast?]
    have herase : (front ++ [y]).eraseIdx front.length = front := by
      rw [List.eraseIdx_append_of_length_le (Nat.le_refl _), Nat.sub_self, List.eraseIdx_cons_zero,
        List.append_nil]
    rw [hlast]
    exact (pop?_eq_some_iff.mpr
      ⟨front.length, hplace, List.getElem?_concat_length, herase.symm⟩).symm

end Sequence

/-! ## Workspaces -/

namespace Workspace

variable {r : Range} {t : Format} {w : Workspace r t}

theorem taken_eq_iff {x : Option (Color r t × Palette r t)} {c : Color r t} {w' : Workspace r t} :
    w.taken x = (.color? (some c), w') ↔
      ∃ rest, x = some (c, rest) ∧ w' = { w with current := rest } := by
  cases x with
  | none => simp [taken, answer]
  | some x => simp [taken, Prod.ext_iff, and_assoc, eq_comm]

/-- What is taken out by a key was at the position of the key, and goes back there. What is put
in by a key is at the nearest position of the key, and can be taken out there again. The last
color is the one at `-1`. Both positions are found in words. -/
theorem pop_insert_inverse (hw : w.Fits) (key : Int) :
    (∀ c w', w.run (.pop key) = (.color? (some c), w') →
      ∃ k : Nat, Key.position? key w.current.length = some k ∧ w.current[k]? = some c ∧
        w'.run (.insert k c) = (.done, w)) ∧
    (∀ c, ∃ k : Nat, Key.insertionPoint key w.current.length = k ∧
      (k : Int) = (if 0 ≤ key then max 0 (min (w.current.length : Int) key)
        else max 0 (key + w.current.length)) ∧
      w.run (.insert key c) =
        (.done, { w with current := w.current.take k ++ [c] ++ w.current.drop k }) ∧
      ((w.run (.insert key c)).2.Fits →
        (w.run (.insert key c)).2.run (.pop k) = (.color? (some c), w))) ∧
    w.run .popLast = w.run (.pop (-1)) ∧
    (IsSigned key →
      Key.positionWords? key w.current.length = some (Key.position? key w.current.length) ∧
      Key.insertionWords? key w.current.length = some (Key.insertionPoint key w.current.length)) := by
  refine ⟨fun c w' hpop => ?_, fun c => ⟨_, rfl, ?_, ?_, fun hfits => ?_⟩, ?_,
    fun hkey => ⟨Key.positionWords?_eq hkey _, Key.insertionWords?_eq hkey _⟩⟩
  · rw [run_pop] at hpop
    obtain ⟨rest, hrest, rfl⟩ := taken_eq_iff.mp hpop
    obtain ⟨k, hplace, hk, rfl⟩ := Sequence.pop?_eq_some_iff.mp hrest
    refine ⟨k, hplace, hk, ?_⟩
    show (Reply.done, { w with current := Sequence.insert (w.current.eraseIdx k) k c }) = _
    rw [Sequence.insert_eraseIdx hw.1 hk]
  · rw [Key.cast_insertionPoint key hw.1, Key.fromFront_eq]
    split <;> omega
  · show (Reply.done, { w with current := Sequence.insert w.current key c }) = _
    rw [Sequence.insert, Sequence.insertIdx_eq c (Key.insertionPoint_le _ _)]
  · have hlen : w.current.length < maxLength := by
      have hsize := Sequence.length_insert w.current key c
      have hle : (Sequence.insert w.current key c).length ≤ maxLength := hfits.1
      omega
    rw [run_pop]
    exact taken_eq_iff.mpr
      ⟨w.current, Sequence.pop?_insertIdx hlen (Key.insertionPoint_le _ _), rfl⟩
  · rw [run_pop, run_popLast, Sequence.popLast?_eq hw.1]

/-- The least key of all puts a color in front. -/
theorem pop_insert_inverse_least :
    let w : Workspace .normal .double := ⟨[.splat .zero, .splat .one], []⟩
    let longer : Workspace .normal .double := ⟨[.splat .nan, .splat .zero, .splat .one], []⟩
    let least : Int := -0x8000000000000000
    w.Fits ∧ IsSigned least ∧ Key.insertionWords? least 2 = some 0 ∧
      w.run (.insert least (.splat .nan)) = (.done, longer) ∧
      longer.run (.pop (0 : Nat)) = (.color? (some (.splat .nan)), w) := by
  intro w longer least
  have hw : w.Fits := ⟨by decide, by decide⟩
  have hleast : IsSigned least := by decide
  obtain ⟨-, hinsert, -, hwords⟩ := pop_insert_inverse hw least
  obtain ⟨k, hpoint, hk, hrun, hpop⟩ := hinsert (.splat .nan)
  obtain rfl : k = 0 := by
    have hzero : Key.insertionPoint least w.current.length = 0 := by decide
    omega
  rw [hrun] at hpop
  refine ⟨hw, hleast, (hwords hleast).2.trans (congrArg some hpoint), hrun, ?_⟩
  exact hpop ⟨by decide, by decide⟩

end Workspace

end ColorAlgebra
