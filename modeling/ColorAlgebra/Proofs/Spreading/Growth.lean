import ColorAlgebra.Palette.Basic
import ColorAlgebra.Proofs.Combining.Channels
import ColorAlgebra.Proofs.Scalar.Lerp

namespace ColorAlgebra

variable {r : Range} {t : Format}

namespace Palette

/-! ## Points -/

theorem channel_between (start stop : Color r t) (q : Double) (i : Fin 3) :
    (between start stop q).channel i =
      (Scalar.lerp ((start.channel i).convert .double) ((stop.channel i).convert .double) q).convert
        t :=
  Color.channel_zipDouble ..

theorem between_one (start stop : Color r t) : between start stop .one = stop := by
  refine Color.eq_of_channel fun i => ?_
  rw [channel_between, Scalar.lerp_one, Binary.narrow_widen]

/-- The colors at the fractions of `count`, on the way between two colors. -/
def points (start stop : Color r t) (count : Nat) : Palette r t :=
  (List.range count).map fun k => between start stop (Spread.fraction count (k + 1))

theorem length_points (start stop : Color r t) (count : Nat) :
    (points start stop count).length = count := by
  simp [points]

theorem mem_points {start stop c : Color r t} {count : Nat} :
    c ∈ points start stop count ↔
      ∃ k < count, between start stop (Spread.fraction count (k + 1)) = c := by
  simp [points]

theorem getElem?_points (start stop : Color r t) {count k : Nat} (hk : k < count) :
    (points start stop count)[k]? = some (between start stop (Spread.fraction count (k + 1))) := by
  simp [points, hk]

/-! ## Growth -/

/-- The palette with the points behind it, to as many colors as `size` says. -/
def grown (p : Palette r t) (size : Nat) (stop : Color r t) : Palette r t :=
  p ++ points (p.getLast?.getD stop) stop (size - p.length)

section
variable (p : Palette r t) (stop : Color r t) {size : Nat}

theorem spread_of_le (h : size ≤ p.length) : p.spread size stop = .ok p := if_pos h

/-- A spread appends the points, if the words count them. -/
theorem spread_eq (h : size - p.length + 1 < Spread.wordSize) :
    p.spread size stop = .ok (p.grown size stop) := by
  unfold spread grown
  split
  · next hle =>
    rw [Nat.sub_eq_zero_of_le hle, points, List.range_zero, List.map_nil, List.append_nil]
  · rw [Spread.fractions_of_lt h, Spread.fractionsTo, points]
    show Except.ok (p ++ (List.map _ _).map _) = _
    rw [List.map_map]
    rfl

/-- The fault of a count that no word follows is that of the spread. -/
theorem spread_of_last (h : size - p.length + 1 = Spread.wordSize) :
    p.spread size stop = .error .overflow := by
  have hmore : ¬size ≤ p.length := by
    intro hle
    rw [Nat.sub_eq_zero_of_le hle] at h
    exact absurd h (by decide)
  rw [spread, if_neg hmore, Spread.fractions_of_last h]
  rfl

theorem take_grown (size : Nat) : (p.grown size stop).take p.length = p := List.take_left

theorem length_grown (size : Nat) : (p.grown size stop).length = max p.length size := by
  rw [grown, List.length_append, length_points]
  omega

/-- The `k`-th of the appended points. -/
theorem getElem?_grown {n k : Nat} (hn : size = p.length + n) (h0 : 0 < k) (hk : k ≤ n) :
    (p.grown size stop)[p.length + k - 1]? =
      some (between (p.getLast?.getD stop) stop (Spread.fraction n k)) := by
  have hpoint := getElem?_points (p.getLast?.getD stop) stop (Nat.sub_one_lt_of_le h0 hk)
  rw [Nat.sub_add_cancel h0] at hpoint
  rw [grown, hn, Nat.add_sub_cancel_left, Nat.add_sub_assoc h0,
    List.getElem?_append_right (Nat.le_add_right _ _), Nat.add_sub_cancel_left, hpoint]

/-- The last appended point is the end itself. -/
theorem getElem?_grown_last (h : p.length < size) : (p.grown size stop)[size - 1]? = some stop := by
  obtain ⟨n, rfl⟩ := Nat.exists_eq_add_of_lt h
  have hlast := getElem?_grown p stop (n := n + 1) rfl (Nat.succ_pos n) le_rfl
  rw [Spread.fraction, if_pos rfl, between_one] at hlast
  exact hlast

/-- A palette that is large enough does not grow, whatever it is spread to. -/
theorem spread_grown {size' : Nat} (hle : size' ≤ size) (stop' : Color r t) :
    (p.grown size stop).spread size' stop' = .ok (p.grown size stop) := by
  refine spread_of_le _ stop' ?_
  rw [length_grown]
  exact Nat.le_trans hle (Nat.le_max_right _ _)

end

/-- A spread keeps the colors of the palette and grows it to the size, if it is not larger. The
`k`-th of `n` new colors is the point at the fraction `k / n`, computed in doubles channel by
channel and narrowed once, and where the fraction is rounded to one it is the end. The last one
is the end in any case. After that no spread to this size or a smaller one changes the palette. -/
theorem spread_grows (p : Palette r t) {size : Nat} (stop : Color r t) (hsize : size < 2 ^ 63) :
    ∃ q, p.spread size stop = .ok q ∧
      q.take p.length = p ∧
      q.length = max p.length size ∧
      (∀ n k, size = p.length + n → 0 < k → k < n →
        ∃ c, q[p.length + k - 1]? = some c ∧ ∀ i,
          let a := ((p.getLast?.getD stop).channel i).convert .double
          let b := (stop.channel i).convert .double
          let u : Double := (Binary.ofNat k).div (Binary.ofNat n)
          c.channel i = (if u.equal .one then b else a.add ((b.sub a).mul u)).convert t) ∧
      (p.length < size → q[size - 1]? = some stop) ∧
      ∀ size' ≤ size, ∀ stop', q.spread size' stop' = .ok q := by
  have hcount : size - p.length + 1 < Spread.wordSize := by
    unfold Spread.wordSize
    omega
  refine ⟨p.grown size stop, spread_eq p stop hcount, take_grown p stop size,
    length_grown p stop size, fun n k hn h0 hk => ?_, getElem?_grown_last p stop,
    fun size' hle stop' => spread_grown p stop hle stop'⟩
  refine ⟨_, getElem?_grown p stop hn h0 (Nat.le_of_lt hk), fun i => ?_⟩
  rw [channel_between]
  unfold Spread.fraction
  rw [if_neg (Nat.ne_of_lt hk)]
  rfl

/-- A spread from black to white over two colors puts gray between them. -/
theorem spread_grows_gray :
    let p : Palette .normal .half := [.zero]
    let white : Color .normal .half := .splat .one
    let gray : Color .normal .half := .splat (Binary.one.div (Binary.ofNat 2))
    3 < 2 ^ 63 ∧ ∃ q, p.spread 3 white = .ok q ∧ q = [.zero, gray, white] ∧ q.take 1 = p ∧
      q.length = 3 ∧
      (∃ c, q[1]? = some c ∧ ∀ i, c.channel i = gray.channel i) ∧
      q[2]? = some white ∧ q.spread 3 gray = .ok q := by
  intro p white gray
  obtain ⟨q, hq, hkept, hlength, hpoint, hlast, hagain⟩ := @spread_grows _ _ p 3 white (by decide)
  obtain ⟨c, hc, hchannels⟩ := hpoint 2 1 rfl Nat.one_pos (by decide)
  have hvalue : p.spread 3 white = .ok [.zero, gray, white] := by decide +kernel
  refine ⟨by decide, q, hq, Except.ok.inj (hq.symm.trans hvalue), hkept, hlength,
    ⟨c, hc, fun i => ?_⟩, hlast (by decide), hagain 3 le_rfl gray⟩
  rw [hchannels i]
  revert i
  decide +kernel

end Palette

end ColorAlgebra
