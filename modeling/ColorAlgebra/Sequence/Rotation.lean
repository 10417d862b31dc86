namespace ColorAlgebra.Sequence

variable {α β : Type}

/-- The places to move, less the full turns: from zero up to the length. -/
def turn (length : Nat) (places : Int) : Nat := (places % length).toNat

/-- Moves each element `places` toward the end. -/
def rotate (items : List α) (places : Int) : List α :=
  let kept := items.length - turn items.length places
  items.drop kept ++ items.take kept

/-! ## Lemmas -/

theorem turn_lt {length : Nat} (h : 0 < length) (places : Int) : turn length places < length := by
  unfold turn
  have := Int.emod_lt_of_pos places (show (0 : Int) < length by omega)
  omega

theorem rotate_nil (places : Int) : rotate ([] : List α) places = [] := by
  simp [rotate]

theorem length_rotate (items : List α) (places : Int) :
    (rotate items places).length = items.length := by
  simp only [rotate, List.length_append, List.length_drop, List.length_take]
  omega

theorem rotate_perm (items : List α) (places : Int) : (rotate items places).Perm items := by
  unfold rotate
  refine List.perm_append_comm.trans ?_
  rw [List.take_append_drop]

theorem rotate_map (f : α → β) (items : List α) (places : Int) :
    rotate (items.map f) places = (rotate items places).map f := by
  simp [rotate, List.map_drop, List.map_take]

example : rotate [1, 2, 3, 4] 1 = [4, 1, 2, 3] := by decide
example : rotate [1, 2, 3, 4] (-5) = [2, 3, 4, 1] := by decide

end ColorAlgebra.Sequence
