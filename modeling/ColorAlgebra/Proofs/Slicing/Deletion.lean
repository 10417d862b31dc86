import ColorAlgebra.Proofs.Slicing.Assignment
import Mathlib.Data.List.Nodup
import Mathlib.Data.List.Perm.Basic

/-!
# Deleting a slice

What a slice selects can be taken out of a list, or copied out of it. The two parts
make up the list: what is left stands at the positions that are not selected, in the
order of the list, and what is copied stands at those that are, in the order of the
walk. A run in steps of one is cut out in one piece, other selections are flagged
position by position; the law is the same.
-/

namespace ColorAlgebra

namespace Sequence

variable {α : Type}

/-! ## Gathering -/

/-- The elements at some positions, in the order of the positions. -/
def gather (l : List α) (positions : List Nat) : List α := positions.filterMap fun p => l[p]?

/-- The positions below `length` that are not listed, in order. -/
def unlisted (length : Nat) (positions : List Nat) : List Nat :=
  (List.range length).filter fun p => p ∉ positions

theorem gather_append (l : List α) (ps qs : List Nat) :
    gather l (ps ++ qs) = gather l ps ++ gather l qs := List.filterMap_append

theorem gather_zero_cons (x : α) (l : List α) (ps : List Nat) :
    gather (x :: l) (0 :: ps) = x :: gather (x :: l) ps := rfl

theorem gather_succ (x : α) (l : List α) (ps : List Nat) :
    gather (x :: l) (ps.map Nat.succ) = gather l ps := by
  unfold gather
  rw [List.filterMap_map]
  rfl

theorem gather_add (l : List α) (n : Nat) (ps : List Nat) :
    gather l (ps.map (n + ·)) = gather (l.drop n) ps := by
  unfold gather
  rw [List.filterMap_map]
  refine List.filterMap_congr fun p _ => ?_
  exact List.getElem?_drop.symm

theorem gather_range (l : List α) : gather l (List.range l.length) = l := by
  induction l with
  | nil => rfl
  | cons x rest ih =>
    rw [List.length_cons, List.range_succ_eq_map, gather_zero_cons, gather_succ, ih]

theorem gather_range_of_le {l : List α} {n : Nat} (h : n ≤ l.length) :
    gather l (List.range n) = l.take n := by
  have htake := gather_range (l.take n)
  rw [List.length_take_of_le h] at htake
  rw [← htake]
  refine List.filterMap_congr fun p hp => ?_
  exact (List.getElem?_take_of_lt (List.mem_range.mp hp)).symm

/-- Every position below the length has its element. -/
theorem map_some_gather {l : List α} {ps : List Nat} (h : ∀ p ∈ ps, p < l.length) :
    (gather l ps).map some = ps.map fun p => l[p]? := by
  induction ps with
  | nil => rfl
  | cons p rest ih =>
    have hlt : p < l.length := h p List.mem_cons_self
    have hp : l[p]? = some l[p] := List.getElem?_eq_getElem hlt
    unfold gather at ih ⊢
    rw [List.filterMap_cons_some hp, List.map_cons, List.map_cons, hp,
      ih fun q hq => h q (List.mem_cons_of_mem p hq)]

theorem lt_of_mem_unlisted {length : Nat} {ps : List Nat} :
    ∀ p ∈ unlisted length ps, p < length :=
  fun _ hp => List.mem_range.mp (List.mem_of_mem_filter hp)

/-- The listed and the unlisted positions together are all positions. -/
theorem unlisted_append_perm {length : Nat} {ps : List Nat} (hnodup : ps.Nodup)
    (hlt : ∀ p ∈ ps, p < length) : (unlisted length ps ++ ps).Perm (List.range length) := by
  have hlisted : ((List.range length).filter fun p => p ∈ ps).Perm ps := by
    rw [List.perm_ext_iff_of_nodup (List.nodup_range.filter _) hnodup]
    intro p
    rw [List.mem_filter, List.mem_range, decide_eq_true_eq]
    exact ⟨fun h => h.2, fun h => ⟨hlt p h, h⟩⟩
  refine (List.Perm.append_left _ hlisted.symm).trans ?_
  refine List.perm_append_comm.trans ?_
  have hsplit := List.filter_append_perm (fun p => decide (p ∈ ps)) (List.range length)
  simpa only [unlisted, ← decide_not] using hsplit

/-- What stands at the listed positions and what stands at the others make up the list. -/
theorem gather_append_perm {l : List α} {ps : List Nat} (hnodup : ps.Nodup)
    (hlt : ∀ p ∈ ps, p < l.length) :
    (gather l (unlisted l.length ps) ++ gather l ps).Perm l := by
  rw [← gather_append]
  have hperm := (unlisted_append_perm hnodup hlt).filterMap fun p => l[p]?
  exact hperm.trans (List.Perm.of_eq (gather_range l))

/-! ## Flags -/

theorem flag_iff {raised : List Bool} {positions : List Nat} {p : Nat} :
    (positions.foldl (fun raised q => raised.set q true) raised)[p]? = some true ↔
      raised[p]? = some true ∨ p ∈ positions ∧ p < raised.length := by
  induction positions generalizing raised with
  | nil => simp
  | cons q rest ih =>
    rw [List.foldl_cons, ih, List.length_set, List.getElem?_set, List.mem_cons]
    by_cases hq : q = p
    · subst hq
      by_cases hlt : q < raised.length
      · simp [hlt]
      · simp [hlt]
    · have hne : p ≠ q := fun h => hq h.symm
      simp [hq, hne]

theorem flags_iff {length : Nat} {positions : List Nat} {p : Nat} :
    (flags length positions)[p]? = some true ↔ p ∈ positions ∧ p < length := by
  unfold flags
  rw [flag_iff, List.length_replicate, List.getElem?_replicate]
  simp

/-- The flags are read one after the other, whatever the flag to begin with. -/
theorem retain_eq_gather (raised : List Bool) (pos : Nat) (l : List α) :
    retain raised pos l =
      gather l ((List.range l.length).filter fun p => raised[pos + p]? ≠ some true) := by
  induction l generalizing pos with
  | nil => rfl
  | cons x rest ih =>
    have hshift : ((List.range rest.length).map Nat.succ).filter
          (fun p => decide (raised[pos + p]? ≠ some true)) =
        ((List.range rest.length).filter
          fun p => decide (raised[pos + 1 + p]? ≠ some true)).map Nat.succ := by
      rw [List.filter_map]
      refine congrArg _ (List.filter_congr fun p _ => ?_)
      rw [Function.comp_apply, Nat.add_assoc, Nat.add_comm 1 p]
    unfold retain
    rw [List.length_cons, List.range_succ_eq_map]
    by_cases hflag : raised[pos]? = some true
    · rw [if_pos hflag, List.filter_cons_of_neg (by simpa using hflag), hshift, gather_succ, ih]
    · rw [if_neg hflag, List.filter_cons_of_pos (by simpa using hflag), gather_zero_cons,
        hshift, gather_succ, ih]

/-- Dropping the flagged elements leaves those at the positions that are not listed. -/
theorem without_eq_gather (l : List α) (positions : List Nat) :
    without l positions = gather l (unlisted l.length positions) := by
  unfold without unlisted
  rw [retain_eq_gather]
  refine congrArg _ (List.filter_congr fun p hp => ?_)
  rw [Nat.zero_add, decide_eq_decide, not_iff_not, flags_iff]
  exact and_iff_left (List.mem_range.mp hp)

/-! ## Runs in steps of one -/

theorem unlisted_run {a count rest : Nat} :
    unlisted (a + (count + rest)) ((List.range count).map (a + ·)) =
      List.range a ++ (List.range rest).map (a + count + ·) := by
  have hlow : (List.range a).filter (fun p => p ∉ (List.range count).map (a + ·)) =
      List.range a := by
    refine List.filter_eq_self.mpr fun p hp => ?_
    have := List.mem_range.mp hp
    rw [decide_eq_true_eq, List.mem_map]
    rintro ⟨q, -, rfl⟩
    omega
  have hrun : ((List.range count).map (a + ·)).filter
      (fun p => p ∉ (List.range count).map (a + ·)) = [] :=
    List.filter_eq_nil_iff.mpr fun p hp => by simpa using hp
  have hhigh : ((List.range rest).map (a + count + ·)).filter
      (fun p => p ∉ (List.range count).map (a + ·)) = (List.range rest).map (a + count + ·) := by
    refine List.filter_eq_self.mpr fun p hp => ?_
    obtain ⟨q, -, rfl⟩ := List.mem_map.mp hp
    rw [decide_eq_true_eq, List.mem_map]
    rintro ⟨q', hq', heq⟩
    have := List.mem_range.mp hq'
    omega
  unfold unlisted
  rw [List.range_add, List.range_add, List.map_append, List.map_map, List.filter_append,
    List.filter_append, hlow, hrun, List.nil_append]
  refine congrArg _ (Eq.trans ?_ hhigh)
  refine congrArg _ (List.map_congr_left fun p _ => ?_)
  exact (Nat.add_assoc a count p).symm

/-- Cutting out a run leaves what is not in it. -/
theorem cut_eq_gather {l : List α} {a count : Nat} (h : a + count ≤ l.length) :
    l.take a ++ l.drop (a + count) =
      gather l (unlisted l.length ((List.range count).map (a + ·))) := by
  have hlen : l.length = a + (count + (l.length - (a + count))) := by omega
  have hdrop := gather_range (l.drop (a + count))
  rw [List.length_drop] at hdrop
  rw [hlen, unlisted_run, gather_append, gather_range_of_le (by omega), gather_add, hdrop]

/-! ## Deleting -/

/-- Deleting leaves what is not selected, whether it is cut out in one piece or
flagged. -/
theorem delete_of_resolve {l : List α} {s : Slice} {sel : Selection}
    (h : s.resolve l.length = .ok sel) :
    delete l s = .ok (gather l (unlisted l.length sel.positions)) := by
  unfold delete
  rw [select_eq_ok_iff.mpr h]
  refine congrArg Except.ok ?_
  dsimp only
  cases hspan : sel.span? with
  | some ab =>
    obtain ⟨a, b⟩ := ab
    have hbound := (Slice.span?_bounds h hspan).2
    obtain ⟨rfl, hpositions⟩ := positions_of_span h hspan
    rw [hpositions]
    exact cut_eq_gather hbound
  | none => exact without_eq_gather l sel.positions

end Sequence

namespace Workspace

variable {r : Range} {t : Format}

/-- Deleting and extracting a slice whose step is not zero. The positions of its walk
are the same for both. Deleting leaves the colors at the other positions, in their
order; extracting gives the colors at these positions, in the order of the walk, and
it makes no difference what the spare palette held before. Together they are the colors
of the palette, each as often as it was there. -/
theorem delete_extract_partition (w : Workspace r t) {s : Slice} (hs : s.step ≠ 0) :
    let l := w.current
    ∃ (sel : Selection) (ps : List Nat) (rest out : Palette r t),
      s.resolve l.length = .ok sel ∧ sel.Walk ps ∧
      w.run (.delete s) = (.done, { w with current := rest }) ∧
      rest.map some = ((List.range l.length).filter fun p => p ∉ ps).map (fun p => l[p]?) ∧
      w.run (.extract s) = (.palette out, w) ∧
      out.map some = ps.map (fun p => l[p]?) ∧
      (∀ old : Palette r t,
        Workspace.run ⟨l, old⟩ (.extractToSpare s) = (.done, ⟨l, out⟩)) ∧
      rest.length + out.length = l.length ∧ (rest ++ out).Perm l := by
  intro l
  have hres := Slice.resolve_of_step_ne_zero hs l.length
  generalize (⟨s.origin (min l.length maxLength), s.step, s.count (min l.length maxLength)⟩ :
    Selection) = sel at hres
  have hlt : ∀ p ∈ sel.positions, p < l.length := fun p hp => Slice.positions_lt hres hp
  have hperm := Sequence.gather_append_perm (Slice.nodup_positions hres hs) hlt
  have hextract : Sequence.extract l s = .ok (Sequence.gather l sel.positions) :=
    Sequence.extract_of_resolve hres
  refine ⟨sel, sel.positions, Sequence.gather l (Sequence.unlisted l.length sel.positions),
    Sequence.gather l sel.positions, hres, sel.walk_positions, ?_, ?_, run_extract hextract, ?_,
    ?_, ?_, hperm⟩
  · exact congrArg w.attempt (Sequence.delete_of_resolve hres)
  · exact Sequence.map_some_gather Sequence.lt_of_mem_unlisted
  · exact Sequence.map_some_gather hlt
  · intro old
    simp only [run, hextract]
  · have hlength := hperm.length_eq
    rwa [List.length_append] at hlength

/-- Every other color of five, from the last but one to the front. -/
theorem delete_extract_partition_strided :
    let w : Workspace .normal .double :=
      ⟨[.splat .zero, .splat .one, .splat .nan, .splat (.infinity true), .splat .one], []⟩
    let s : Slice := ⟨some (-2), none, -2⟩
    s.step ≠ 0 ∧
      w.run (.delete s) =
        (.done, { w with current := [.splat .zero, .splat .nan, .splat .one] }) ∧
      w.run (.extract s) = (.palette [.splat (.infinity true), .splat .one], w) := by
  intro w s
  have hs : s.step ≠ 0 := by decide
  obtain ⟨sel, ps, rest, out, hres, hwalk, hdelete, hrest, hextract, hout, -⟩ :=
    delete_extract_partition w hs
  have hval : s.resolve 5 = .ok ⟨3, -2, 2⟩ := by decide
  obtain rfl : ⟨3, -2, 2⟩ = sel := Except.ok.inj (hval.symm.trans hres)
  obtain rfl : ps = [3, 1] := Selection.walk_iff.mp hwalk
  have hsome : ∀ l m : Palette .normal .double, l.map some = m.map some → l = m :=
    fun _ _ h => (List.map_inj_right fun _ _ => Option.some.inj).mp h
  obtain rfl : rest = [.splat .zero, .splat .nan, .splat .one] := hsome _ _ hrest
  obtain rfl : out = [.splat (.infinity true), .splat .one] := hsome _ _ hout
  exact ⟨hs, hdelete, hextract⟩

end Workspace

end ColorAlgebra
