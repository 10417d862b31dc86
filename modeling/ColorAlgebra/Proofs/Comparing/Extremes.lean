import ColorAlgebra.Palette.Algebra
import ColorAlgebra.Proofs.Binary.Ordered
import ColorAlgebra.Proofs.Combining.Channels

/-!
# The least and the greatest channels

A palette is reduced to the least number of each channel, or to the greatest, by going over its
colors once. The reduction starts with the infinity that gives way to every number, and it
passes NaNs over, so that it finds a number wherever there is one. What it finds is in order with
all the numbers and is one of them, which only leaves open which of the two zeros it is. So the
order of the colors makes no other difference, and parts of a palette can be reduced apart.
-/

namespace ColorAlgebra

namespace Binary

variable {f : Format} {s : Bool} {x y m n : Binary f} {xs ys : List (Binary f)}

/-! ## Choices -/

/-- A NaN is passed over for the other value, and of two others the one that is first in the
direction is chosen. Nothing is said of two equal values. -/
structure Picks (s : Bool) (pick : Binary f → Binary f → Binary f) : Prop where
  skip_left : ∀ x y, x.isNaN = true → pick x y = y
  skip_right : ∀ x y, y.isNaN = true → pick x y = x
  choose : ∀ x y, x.isNaN = false → y.isNaN = false →
    pick x y = x ∧ x.ordered s y = true ∨ pick x y = y ∧ y.ordered s x = true

theorem eq_nan_of_isNaN (h : x.isNaN = true) : x = nan :=
  rank_eq_none_iff.mp (isNaN_eq_true_iff.mp h)

theorem picks_min : Picks false (min : Binary f → Binary f → Binary f) where
  skip_left x y hx := if_pos hx
  skip_right x y hy := by
    unfold min
    rw [if_pos hy, ite_eq_right_iff]
    intro hx
    rw [eq_nan_of_isNaN hx, eq_nan_of_isNaN hy]
  choose x y hx hy := by
    unfold min
    rw [hx, hy, if_neg Bool.false_ne_true, if_neg Bool.false_ne_true]
    split
    · next hless => exact .inr ⟨rfl, ordered_of_less hless⟩
    · next hless => exact .inl ⟨rfl, ordered_of_not_less hy hx (Bool.eq_false_of_not_eq_true hless)⟩

theorem picks_max : Picks true (max : Binary f → Binary f → Binary f) where
  skip_left x y hx := if_pos hx
  skip_right x y hy := by
    unfold max
    rw [if_pos hy, ite_eq_right_iff]
    intro hx
    rw [eq_nan_of_isNaN hx, eq_nan_of_isNaN hy]
  choose x y hx hy := by
    unfold max
    rw [hx, hy, if_neg Bool.false_ne_true, if_neg Bool.false_ne_true]
    split
    · next hless => exact .inr ⟨rfl, ordered_of_less hless⟩
    · next hless => exact .inl ⟨rfl, ordered_of_not_less hx hy (Bool.eq_false_of_not_eq_true hless)⟩

theorem ordered_widen (x y : Binary f) :
    (x.convert .double).ordered s (y.convert .double) = x.ordered s y := by
  rw [Bool.eq_iff_iff, ordered_iff_rank, ordered_iff_rank, rank_widen, rank_widen]

/-- A choice that is made between doubles is one between the values that they were widened from. -/
theorem Picks.narrow {pick : Double → Double → Double} (h : Picks s pick) :
    Picks s fun x y : Binary f => (pick (x.convert .double) (y.convert .double)).convert f where
  skip_left x y hx := by
    rw [h.skip_left _ _ ((isNaN_widen x).trans hx), narrow_widen]
  skip_right x y hy := by
    rw [h.skip_right _ _ ((isNaN_widen y).trans hy), narrow_widen]
  choose x y hx hy := by
    rcases h.choose _ _ ((isNaN_widen x).trans hx) ((isNaN_widen y).trans hy) with
      ⟨hpick, horder⟩ | ⟨hpick, horder⟩
    · exact .inl ⟨by rw [hpick, narrow_widen], by rwa [ordered_widen] at horder⟩
    · exact .inr ⟨by rw [hpick, narrow_widen], by rwa [ordered_widen] at horder⟩

/-! ## Extremes -/

/-- The least of the values if the direction is up, and the greatest if it is down: a number that
is in order with all numbers among them and equals one of them. If there are only NaNs, it is
the infinity that all numbers are in order with. -/
structure IsExtreme (s : Bool) (xs : List (Binary f)) (m : Binary f) : Prop where
  isNaN : m.isNaN = false
  ordered : ∀ x ∈ xs, x.isNaN = false → m.ordered s x = true
  attained : (∃ x ∈ xs, x.isNaN = false) → ∃ x ∈ xs, m.equal x = true
  infinite : (∀ x ∈ xs, x.isNaN = true) → m = infinity s

theorem isNaN_of_not_exists (h : ¬∃ x ∈ xs, x.isNaN = false) : ∀ x ∈ xs, x.isNaN = true :=
  fun x hx => Bool.eq_true_of_not_eq_false fun hfalse => h ⟨x, hx, hfalse⟩

theorem isExtreme_nil : IsExtreme s [] (infinity s : Binary f) :=
  ⟨rfl, by simp, by simp, fun _ => rfl⟩

theorem isExtreme_singleton (hx : x.isNaN = false) : IsExtreme s [x] x where
  isNaN := hx
  ordered y hy _ := by
    rw [List.mem_singleton.mp hy]
    exact ordered_self hx
  attained _ := ⟨x, List.mem_singleton_self x, equal_self hx⟩
  infinite h := by
    rw [h x (List.mem_singleton_self x)] at hx
    cases hx

namespace IsExtreme

/-- Only the values matter, and not their order or number. -/
theorem congr (h : IsExtreme s xs m) (hsame : ∀ x, x ∈ xs ↔ x ∈ ys) : IsExtreme s ys m := by
  obtain ⟨hnan, horder, hattained, hinfinite⟩ := h
  simp only [hsame] at horder hattained hinfinite
  exact ⟨hnan, horder, hattained, hinfinite⟩

/-- No extreme of the same values is before another. -/
theorem ordered_of_isExtreme (hm : IsExtreme s xs m) (hn : IsExtreme s xs n) :
    m.ordered s n = true := by
  by_cases h : ∃ x ∈ xs, x.isNaN = false
  · obtain ⟨x, hx, hequal⟩ := hn.attained h
    have horder := ordered_of_equal (s := s) ((equal_comm n x).symm.trans hequal)
    exact ordered_trans (hm.ordered x hx (isNaN_of_ordered horder).1) horder
  · have hnone := isNaN_of_not_exists h
    rw [hm.infinite hnone, hn.infinite hnone]
    exact ordered_self rfl

/-- The same values have the same extreme. -/
theorem equal (hm : IsExtreme s xs m) (hn : IsExtreme s xs n) : m.equal n = true :=
  equal_of_ordered (hm.ordered_of_isExtreme hn) (hn.ordered_of_isExtreme hm)

/-- The extreme of two lists, if it is that of the first. -/
theorem append_left (hm : IsExtreme s xs m) (hn : IsExtreme s ys n) (h : m.ordered s n = true) :
    IsExtreme s (xs ++ ys) m where
  isNaN := hm.isNaN
  ordered x hx hnumber := by
    rcases List.mem_append.mp hx with hx | hx
    · exact hm.ordered x hx hnumber
    · exact ordered_trans h (hn.ordered x hx hnumber)
  attained hsome := by
    by_cases hfirst : ∃ x ∈ xs, x.isNaN = false
    · obtain ⟨x, hx, hequal⟩ := hm.attained hfirst
      exact ⟨x, List.mem_append_left ys hx, hequal⟩
    · -- with no number in the first list, both extremes are infinite
      have hnone := isNaN_of_not_exists hfirst
      obtain ⟨x, hx, hnumber⟩ := hsome
      have hys : x ∈ ys := by
        refine (List.mem_append.mp hx).resolve_left fun hxs => ?_
        rw [hnone x hxs] at hnumber
        cases hnumber
      obtain ⟨y, hy, hequal⟩ := hn.attained ⟨x, hys, hnumber⟩
      obtain rfl := hm.infinite hnone
      obtain rfl := eq_infinity_of_ordered h
      exact ⟨y, List.mem_append_right xs hy, hequal⟩
  infinite hnone := hm.infinite fun x hx => hnone x (List.mem_append_left ys hx)

/-- The extreme of two lists is chosen from theirs. -/
theorem append {pick : Binary f → Binary f → Binary f} (hpick : Picks s pick)
    (hm : IsExtreme s xs m) (hn : IsExtreme s ys n) : IsExtreme s (xs ++ ys) (pick m n) := by
  rcases hpick.choose m n hm.isNaN hn.isNaN with ⟨heq, horder⟩ | ⟨heq, horder⟩
  · rw [heq]
    exact hm.append_left hn horder
  · rw [heq]
    refine (hn.append_left hm horder).congr fun x => ?_
    rw [List.mem_append, List.mem_append, or_comm]

/-- One more value. -/
theorem concat {pick : Binary f → Binary f → Binary f} (hpick : Picks s pick)
    (hm : IsExtreme s xs m) (y : Binary f) : IsExtreme s (xs ++ [y]) (pick m y) := by
  cases hy : y.isNaN with
  | false => exact hm.append hpick (isExtreme_singleton hy)
  | true =>
    have hnumber : ∀ x, x.isNaN = false → (x ∈ xs ++ [y] ↔ x ∈ xs) := by
      intro x hx
      rw [List.mem_append, List.mem_singleton]
      refine or_iff_left ?_
      rintro rfl
      rw [hx] at hy
      cases hy
    rw [hpick.skip_right m y hy]
    refine ⟨hm.isNaN, fun x hx hnum => hm.ordered x ((hnumber x hnum).mp hx) hnum, ?_, ?_⟩
    · rintro ⟨x, hx, hnum⟩
      obtain ⟨z, hz, hequal⟩ := hm.attained ⟨x, (hnumber x hnum).mp hx, hnum⟩
      exact ⟨z, List.mem_append_left [y] hz, hequal⟩
    · exact fun hnone => hm.infinite fun x hx => hnone x (List.mem_append_left [y] hx)

/-- The opposite value is the extreme in the other direction. -/
theorem neg (h : IsExtreme s xs m) : IsExtreme (!s) (xs.map Binary.neg) m.neg where
  isNaN := (isNaN_neg m).trans h.isNaN
  ordered x hx hnumber := by
    obtain ⟨y, hy, rfl⟩ := List.mem_map.mp hx
    rw [ordered_neg]
    exact h.ordered y hy ((isNaN_neg y).symm.trans hnumber)
  attained := by
    rintro ⟨x, hx, hnumber⟩
    obtain ⟨y, hy, rfl⟩ := List.mem_map.mp hx
    obtain ⟨z, hz, hequal⟩ := h.attained ⟨y, hy, (isNaN_neg y).symm.trans hnumber⟩
    refine ⟨z.neg, List.mem_map_of_mem hz, ?_⟩
    have hback := (equal_comm z m).trans hequal
    exact equal_of_ordered ((ordered_neg m z s).trans (ordered_of_equal hequal))
      ((ordered_neg z m s).trans (ordered_of_equal hback))
  infinite hnone := by
    rw [h.infinite fun x hx => (isNaN_neg x).symm.trans (hnone _ (List.mem_map_of_mem hx))]
    rfl

end IsExtreme

/-- Going over the values, by induction on what is left of them. -/
theorem Picks.isExtreme_foldl_append {pick : Binary f → Binary f → Binary f}
    (hpick : Picks s pick) (ys : List (Binary f)) (hm : IsExtreme s xs m) :
    IsExtreme s (xs ++ ys) (ys.foldl pick m) := by
  induction ys generalizing xs m with
  | nil => rwa [List.append_nil]
  | cons y rest ih =>
    have hnext := ih (hm.concat hpick y)
    rwa [List.append_assoc, List.singleton_append] at hnext

theorem Picks.isExtreme_foldl {pick : Binary f → Binary f → Binary f} (hpick : Picks s pick)
    (xs : List (Binary f)) : IsExtreme s xs (xs.foldl pick (infinity s)) :=
  hpick.isExtreme_foldl_append xs isExtreme_nil

end Binary

/-! ## Palettes -/

namespace Palette

open Binary

variable {r : Range} {t : Format} {s : Bool}

/-- The channels of all colors at an index. -/
def channels (p : Palette r t) (i : Fin 3) : List (Binary t) := p.map fun c => c.channel i

/-- Reducing the colors reduces every channel. -/
theorem channel_foldl (pick : Double → Double → Double) (p : Palette r t) (start : Color r t)
    (i : Fin 3) :
    (p.foldl (fun c x => c.zipDouble pick x) start).channel i =
      (p.channels i).foldl (fun x y => (pick (x.convert .double) (y.convert .double)).convert t)
        (start.channel i) := by
  induction p generalizing start with
  | nil => rfl
  | cons c rest ih =>
    rw [List.foldl_cons, ih, Color.channel_zipDouble]
    rfl

theorem isExtreme_minimum (p : Palette r t) (i : Fin 3) :
    IsExtreme false (p.channels i) (p.minimum.channel i) := by
  unfold minimum
  rw [channel_foldl, Color.channel_splat]
  exact picks_min.narrow.isExtreme_foldl _

theorem isExtreme_maximum (p : Palette r t) (i : Fin 3) :
    IsExtreme true (p.channels i) (p.maximum.channel i) := by
  unfold maximum
  rw [channel_foldl, Color.channel_splat]
  exact picks_max.narrow.isExtreme_foldl _

theorem channels_append (p q : Palette r t) (i : Fin 3) :
    Palette.channels (p ++ q) i = p.channels i ++ q.channels i := List.map_append

theorem channels_neg (p : Palette r t) (i : Fin 3) :
    (p.change .neg).channels i = (p.channels i).map Binary.neg := by
  unfold channels change
  rw [List.map_map, List.map_map]
  exact List.map_congr_left fun c _ => c.channel_neg i

theorem mem_channels_perm {p q : Palette r t} (h : p.Perm q) (i : Fin 3) (x : Binary t) :
    x ∈ p.channels i ↔ x ∈ q.channels i := (h.map _).mem_iff

/-- In every channel, the minimum of a palette is the least number of its colors, and infinity if
there is none; the maximum is the greatest. Up to the sign of a zero, they do not change when
the colors are arranged in another way, those of two palettes together are chosen from theirs,
and the maximum is the opposite of the minimum of the opposite colors. -/
theorem extremes_channelwise (p : Palette r t) :
    (∀ i, IsExtreme false (p.map fun c => c.channel i) (p.minimum.channel i) ∧
      IsExtreme true (p.map fun c => c.channel i) (p.maximum.channel i)) ∧
    (∀ q : Palette r t, q.Perm p →
      q.minimum.equal p.minimum = true ∧ q.maximum.equal p.maximum = true) ∧
    (∀ q : Palette r t,
      (minimum (p ++ q)).equal (p.minimum.limitMax q.minimum) = true ∧
        (maximum (p ++ q)).equal (p.maximum.limitMin q.maximum) = true) ∧
    p.maximum.equal (p.change .neg).minimum.neg = true := by
  refine ⟨fun i => ⟨p.isExtreme_minimum i, p.isExtreme_maximum i⟩, fun q hperm => ?_,
    fun q => ?_, ?_⟩
  · simp only [Color.equal_iff_channel]
    exact ⟨fun i => ((q.isExtreme_minimum i).congr (mem_channels_perm hperm i)).equal
        (p.isExtreme_minimum i),
      fun i => ((q.isExtreme_maximum i).congr (mem_channels_perm hperm i)).equal
        (p.isExtreme_maximum i)⟩
  · unfold Color.limitMax Color.limitMin
    simp only [Color.equal_iff_channel, Color.channel_zipDouble]
    refine ⟨fun i => ?_, fun i => ?_⟩
    · have hboth := isExtreme_minimum (p ++ q) i
      rw [channels_append] at hboth
      exact hboth.equal ((p.isExtreme_minimum i).append picks_min.narrow (q.isExtreme_minimum i))
    · have hboth := isExtreme_maximum (p ++ q) i
      rw [channels_append] at hboth
      exact hboth.equal ((p.isExtreme_maximum i).append picks_max.narrow (q.isExtreme_maximum i))
  · refine Color.equal_iff_channel.mpr fun i => ?_
    have hopposite := ((p.change .neg).isExtreme_minimum i).neg
    have hback : (Binary.neg ∘ Binary.neg : Binary t → Binary t) = id := funext Binary.neg_neg
    rw [channels_neg, List.map_map, hback, List.map_id, ← Color.channel_neg] at hopposite
    exact (p.isExtreme_maximum i).equal hopposite

/-- The greatest of some negative numbers is one of them, wherever a NaN stands among them. -/
theorem extremes_channelwise_negative :
    let missing : Color .normal .single := .splat nan
    let low : Color .normal .single := .splat (ofNat 2).neg
    let high : Color .normal .single := .splat one.neg
    let p : Palette .normal .single := [missing, low, high]
    let q : Palette .normal .single := [high, missing, low]
    q.Perm p ∧ IsExtreme true (p.map fun c => c.channel 1) (p.maximum.channel 1) ∧
      p.maximum.channel 1 = one.neg ∧ q.maximum.equal p.maximum = true := by
  intro missing low high p q
  have hperm : q.Perm p := by decide +kernel
  obtain ⟨hextreme, hperms, -, -⟩ := p.extremes_channelwise
  exact ⟨hperm, (hextreme 1).2, by decide +kernel, (hperms q hperm).2⟩

end Palette

end ColorAlgebra
