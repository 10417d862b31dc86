import ColorAlgebra.Palette.Basic
import ColorAlgebra.Proofs.Sorting.Order

namespace ColorAlgebra

namespace Palette

variable {r : Range} {t : Format}

/-- No color of `q` is behind one that follows it, and the colors can be told by places
in `p` such that alike colors keep the order of their places. -/
structure StableSort (p q : Palette r t) : Prop where
  perm : q.Perm p
  ordered : q.Pairwise fun a b => ¬ b.Precedes a
  stable : ∃ placed : List (Color r t × Nat), placed.Perm p.zipIdx ∧ placed.map Prod.fst = q ∧
    placed.Pairwise fun x y => x.1.Alike y.1 → x.2 < y.2

/-- The order that palettes are sorted by, as it is computed. -/
def atMost (a b : Color r t) : Bool := (a.sortOrder b).isLE

/-- Colors with places, in the order of the colors, and alike colors by place. -/
def placedAtMost : Color r t × Nat → Color r t × Nat → Bool := List.zipIdxLE atMost

/-! ## Places -/

theorem placedAtMost_iff {x y : Color r t × Nat} :
    placedAtMost x y = true ↔ ¬ y.1.Precedes x.1 ∧ (x.1.Alike y.1 → x.2 ≤ y.2) := by
  unfold placedAtMost List.zipIdxLE atMost
  rw [← Color.sortOrder_isLE_iff, ← Color.sortOrder_eq_eq_iff, Color.sortOrder_swap y.1 x.1]
  cases x.1.sortOrder y.1 <;> simp

theorem placedAtMost_trans (x y z : Color r t × Nat) (hxy : placedAtMost x y = true)
    (hyz : placedAtMost y z = true) : placedAtMost x z = true :=
  List.zipIdxLE_trans (fun a b c (hab : atMost a b = true) (hbc : atMost b c = true) =>
    Color.sortOrder_isLE_trans hab hbc) x y z hxy hyz

theorem placedAtMost_total (x y : Color r t × Nat) :
    (placedAtMost x y || placedAtMost y x) = true :=
  List.zipIdxLE_total Color.sortOrder_isLE_total x y

/-- Every place is taken by one color. -/
theorem places_ne {p : Palette r t} {placed : List (Color r t × Nat)}
    (h : placed.Perm p.zipIdx) : placed.Pairwise fun x y => x.2 ≠ y.2 := by
  have hnodup : (placed.map Prod.snd).Nodup := by
    rw [(h.map Prod.snd).nodup_iff, List.zipIdx_map_snd]
    exact List.nodup_range'
  exact List.pairwise_map.mp hnodup

theorem pairwise_placedAtMost_iff {p : Palette r t} {placed : List (Color r t × Nat)}
    (h : placed.Perm p.zipIdx) :
    (placed.Pairwise fun x y => placedAtMost x y = true) ↔
      ((placed.map Prod.fst).Pairwise fun a b => ¬ b.Precedes a) ∧
        placed.Pairwise fun x y => x.1.Alike y.1 → x.2 < y.2 := by
  rw [List.pairwise_map, ← List.pairwise_and_iff]
  constructor
  · intro hsorted
    refine hsorted.imp₂ (fun x y hle hne => ?_) (places_ne h)
    obtain ⟨horder, hplace⟩ := placedAtMost_iff.mp hle
    exact ⟨horder, fun halike => Nat.lt_of_le_of_ne (hplace halike) hne⟩
  · refine List.Pairwise.imp fun {x y} hxy => placedAtMost_iff.mpr ?_
    exact ⟨hxy.1, fun halike => Nat.le_of_lt (hxy.2 halike)⟩

/-! ## Sorting -/

theorem stableSort_sort (p : Palette r t) : StableSort p p.sort := by
  have hperm : (p.zipIdx.mergeSort placedAtMost).Perm p.zipIdx := List.mergeSort_perm _ _
  have hfst : (p.zipIdx.mergeSort placedAtMost).map Prod.fst = p.sort := List.mergeSort_zipIdx
  have hsorted := List.pairwise_mergeSort placedAtMost_trans placedAtMost_total p.zipIdx
  obtain ⟨hordered, hstable⟩ := (pairwise_placedAtMost_iff hperm).mp hsorted
  exact ⟨p.sort_perm, hfst ▸ hordered, _, hperm, hfst, hstable⟩

/-- Two colors at one place are the same color, so nothing is left to choose. -/
theorem StableSort.unique {p q q' : Palette r t} (h : StableSort p q) (h' : StableSort p q') :
    q = q' := by
  obtain ⟨placed, hperm, rfl, hstable⟩ := h.stable
  obtain ⟨placed', hperm', rfl, hstable'⟩ := h'.stable
  have hsorted := (pairwise_placedAtMost_iff hperm).mpr ⟨h.ordered, hstable⟩
  have hsorted' := (pairwise_placedAtMost_iff hperm').mpr ⟨h'.ordered, hstable'⟩
  refine congrArg _ (List.Perm.eq_of_pairwise ?_ hsorted hsorted' (hperm.trans hperm'.symm))
  intro x y hx hy hxy hyx
  obtain ⟨horder, hplace⟩ := placedAtMost_iff.mp hxy
  obtain ⟨horder', hplace'⟩ := placedAtMost_iff.mp hyx
  have halike := Color.alike_of_not_precedes horder' horder
  have hsame : x.2 = y.2 := Nat.le_antisymm (hplace halike) (hplace' halike.symm)
  have hx := List.mem_zipIdx_iff_getElem?.mp (hperm.mem_iff.mp hx)
  have hy := List.mem_zipIdx_iff_getElem?.mp (hperm'.mem_iff.mp hy)
  rw [hsame, hy] at hx
  exact Prod.ext (Option.some.inj hx).symm hsame

/-- A palette that is in order already stays as it is. -/
theorem sort_of_ordered {p : Palette r t} (h : p.Pairwise fun a b => ¬ b.Precedes a) :
    p.sort = p :=
  List.mergeSort_of_pairwise (h.imp Color.sortOrder_isLE_iff.mpr)

/-- Sorting gives the stable sort of the palette, and nothing else is one. Of neighbours
without a NaN the first compares as at most the second, and so do any two colors of
which one follows the other. Sorting again changes nothing. -/
theorem sort_stable (p : Palette r t) :
    StableSort p p.sort ∧ (∀ q, StableSort p q → q = p.sort) ∧
      ((∀ c ∈ p, c.IsNumeric) → p.sort.Pairwise fun a b => (a.compare b).atMost .zero = true) ∧
      p.sort.sort = p.sort := by
  have hsort := stableSort_sort p
  refine ⟨hsort, fun q hq => hq.unique hsort, fun hnumeric => ?_, sort_of_ordered hsort.ordered⟩
  refine hsort.ordered.imp_of_mem fun {a b} ha hb hab => ?_
  exact Color.compare_atMost_zero (hnumeric a (hsort.perm.mem_iff.mp ha))
    (hnumeric b (hsort.perm.mem_iff.mp hb)) hab

/-- The two zeros are alike and keep their order; one and infinity are behind them. -/
theorem sort_stable_zeros :
    let minusZero : Color .normal .double := .splat (.signedZero true)
    let p : Palette .normal .double := [.splat (.infinity false), minusZero, .splat .one, .zero]
    (∀ c ∈ p, c.IsNumeric) ∧ p.sort = [minusZero, .zero, .splat .one, .splat (.infinity false)] ∧
      (Color.compare minusZero (.splat (.infinity false))).atMost .zero = true := by
  intro minusZero p
  have hnumeric : ∀ c ∈ p, c.IsNumeric := by decide +kernel
  obtain ⟨-, hunique, hcompare, -⟩ := sort_stable p
  have hsort := hunique [minusZero, .zero, .splat .one, .splat (.infinity false)]
    ⟨by decide +kernel, by decide +kernel,
      [(minusZero, 1), (.zero, 3), (.splat .one, 2), (.splat (.infinity false), 0)],
      by decide +kernel, rfl, by decide +kernel⟩
  have hsorted := hcompare hnumeric
  rw [← hsort] at hsorted
  refine ⟨hnumeric, hsort.symm, List.rel_of_pairwise_cons hsorted ?_⟩
  exact List.mem_cons_of_mem _ (List.mem_cons_of_mem _ List.mem_cons_self)

end Palette

end ColorAlgebra
