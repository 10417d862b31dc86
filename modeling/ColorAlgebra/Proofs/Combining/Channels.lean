import ColorAlgebra.Color.Algebra
import ColorAlgebra.Proofs.Sorting.Order

namespace ColorAlgebra

/-- Changing the sign of a value in a wider format and in its own is the same. -/
theorem Binary.narrow_neg {f : Format} (x : Binary f) :
    (x.convert .double).neg.convert f = x.neg := by
  cases x with
  | nan => rfl
  | infinity => rfl
  | finite s n h => rw [convert_finite h.widen, neg, convert_finite h, neg]

namespace Color

variable {r : Range} {t : Format}

/-- The channel at an index. -/
def channel (c : Color r t) (i : Fin 3) : Binary t := c.channels.toList.get i

theorem forall_index {p : Fin 3 → Prop} : (∀ i, p i) ↔ p 0 ∧ p 1 ∧ p 2 := by
  rw [Fin.forall_fin_succ, Fin.forall_fin_two]
  rfl

theorem channel_zipDouble (f : Double → Double → Double) (a b : Color r t) (i : Fin 3) :
    (a.zipDouble f b).channel i =
      (f ((a.channel i).convert .double) ((b.channel i).convert .double)).convert t := by
  revert i
  exact forall_index.mpr ⟨rfl, rfl, rfl⟩

theorem channel_mapDouble (f : Double → Double) (c : Color r t) (i : Fin 3) :
    (c.mapDouble f).channel i = (f ((c.channel i).convert .double)).convert t := by
  revert i
  exact forall_index.mpr ⟨rfl, rfl, rfl⟩

theorem channel_splat (x : Binary t) (i : Fin 3) : (splat x : Color r t).channel i = x := by
  revert i
  exact forall_index.mpr ⟨rfl, rfl, rfl⟩

/-- An operation on doubles that is one of the channel format once its result is narrowed. -/
theorem channel_zipDouble_of_narrow {op : Double → Double → Double}
    {own : Binary t → Binary t → Binary t}
    (h : ∀ x y : Binary t, (op (x.convert .double) (y.convert .double)).convert t = own x y)
    (a b : Color r t) (i : Fin 3) :
    (a.zipDouble op b).channel i = own (a.channel i) (b.channel i) :=
  (channel_zipDouble op a b i).trans (h _ _)

/-- A rule for doubles that is one of the channel format once its result is narrowed. -/
theorem channel_mapDouble_of_narrow {op : Double → Double} {own : Binary t → Binary t}
    (h : ∀ x : Binary t, (op (x.convert .double)).convert t = own x) (c : Color r t) (i : Fin 3) :
    (c.mapDouble op).channel i = own (c.channel i) :=
  (channel_mapDouble op c i).trans (h _)

theorem channel_neg (c : Color r t) (i : Fin 3) : c.neg.channel i = (c.channel i).neg :=
  channel_mapDouble_of_narrow Binary.narrow_neg c i

/-- Colors with the same channels are the same. -/
theorem eq_of_channel {a b : Color r t} (h : ∀ i, a.channel i = b.channel i) : a = b := by
  obtain ⟨⟨x, y, z⟩⟩ := a
  obtain ⟨⟨x', y', z'⟩⟩ := b
  obtain rfl : x = x' := h 0
  obtain rfl : y = y' := h 1
  obtain rfl : z = z' := h 2
  rfl

theorem equal_iff_channel {a b : Color r t} :
    a.equal b = true ↔ ∀ i, (a.channel i).equal (b.channel i) = true := by
  unfold equal
  rw [Triple.all_eq_true_iff, Triple.forall_mem_zip, forall_index]
  rfl

theorem isNumeric_iff_channel {c : Color r t} : c.IsNumeric ↔ ∀ i, (c.channel i).isNaN = false := by
  unfold IsNumeric
  rw [Triple.forall_mem_toList, forall_index]
  rfl

end Color

end ColorAlgebra
