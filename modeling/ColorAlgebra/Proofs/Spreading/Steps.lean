import ColorAlgebra.Proofs.Spreading.Fractions

namespace ColorAlgebra.Spread

open Binary

variable {count k : Nat}

/-! ## One by one -/

theorem getElem?_fractionsTo (h0 : 0 < k) (hk : k ≤ count) :
    (fractionsTo count count)[k - 1]? = some (fraction count k) := by
  have hbefore : k - 1 < count := Nat.lt_of_lt_of_le (Nat.sub_one_lt_of_lt h0) hk
  rw [fractionsTo, List.getElem?_map, List.getElem?_range hbefore, Option.map_some,
    Nat.sub_add_cancel h0]

/-- The last fraction is one. -/
theorem getLast?_fractionsTo (h0 : 0 < count) :
    (fractionsTo count count).getLast? = some one := by
  rw [List.getLast?_eq_getElem?, length_fractionsTo, getElem?_fractionsTo h0 le_rfl]
  exact congrArg some (if_pos rfl)

theorem take_fractionsTo (count n : Nat) :
    (fractionsTo count count).take n = fractionsTo count (min n count) := by
  rw [fractionsTo, ← List.map_take, List.take_range]
  rfl

/-! ## Their order -/

section
variable (hcount : count < wordSize)
include hcount

/-- A fraction is above zero and at most one. -/
theorem fraction_between (h0 : 0 < k) (hk : k ≤ count) :
    Binary.less .zero (fraction count k) = true ∧ (fraction count k).atMost one = true := by
  obtain ⟨hfinite, -, hupper⟩ := fraction_mem (Nat.lt_of_lt_of_le h0 hk) hcount hk
  rw [less_iff_value rfl hfinite, atMost_iff_value hfinite isFinite_one, value_zero, value_one]
  exact ⟨fraction_pos h0 hk hcount, hupper⟩

/-- No fraction is behind another. -/
theorem pairwise_fractionsTo :
    (fractionsTo count count).Pairwise fun q u => q.atMost u = true := by
  rw [fractionsTo, List.pairwise_map]
  refine List.pairwise_lt_range.imp_of_mem ?_
  intro i j _ hj hij
  have hlast : j + 1 ≤ count := List.mem_range.mp hj
  have hnext : i + 1 ≤ j + 1 := Nat.succ_le_succ (Nat.le_of_lt hij)
  have h0 : 0 < count := Nat.zero_lt_of_lt hlast
  rw [atMost_iff_value (fraction_mem h0 hcount (Nat.le_trans hnext hlast)).1
    (fraction_mem h0 hcount hlast).1]
  exact fraction_mono h0 hcount hnext hlast

end

/-! ## Spreads of any count -/

/-- The fractions of a spread of any number of points that a word can count. If the number is the
largest word, asking for them is a fault, and so is asking how many there are. For any other number
there are as many fractions as points. The `k`-th is one if it is the last, and else the quotient of
`k` and the number of points, both as doubles. All are above zero and at most one, none is behind
another, and the last one is one. -/
theorem fractions_of_count (hcount : count < wordSize) :
    (count + 1 = wordSize →
      size count = .error .overflow ∧ fractions count = .error .overflow ∧
        ∀ n, first count n = .error .overflow) ∧
    (count + 1 ≠ wordSize →
      ∃ qs, fractions count = .ok qs ∧ size count = .ok count ∧ qs.length = count ∧
        (∀ n, first count n = .ok (qs.take n)) ∧
        (∀ k, 0 < k → k ≤ count →
          ∃ q, qs[k - 1]? = some q ∧
            q = (if k = count then one else (ofNat k).div (ofNat count)) ∧
            Binary.less .zero q = true ∧ q.atMost one = true) ∧
        qs.Pairwise (fun q u => q.atMost u = true) ∧
        (qs ≠ [] → qs.getLast? = some one)) := by
  refine ⟨fun hlast => ⟨size_of_last hlast, fractions_of_last hlast, first_of_last hlast⟩,
    fun hne => ?_⟩
  have hnext : count + 1 < wordSize := Nat.lt_of_le_of_ne hcount hne
  refine ⟨_, fractions_of_lt hnext, size_of_lt hnext, length_fractionsTo count count, fun n => ?_,
    fun k h0 hk => ?_, pairwise_fractionsTo hcount, fun hnonempty => ?_⟩
  · rw [first_of_lt hnext, take_fractionsTo]
  · exact ⟨fraction count k, getElem?_fractionsTo h0 hk, rfl, fraction_between hcount h0 hk⟩
  · refine getLast?_fractionsTo ?_
    rw [← length_fractionsTo count count]
    exact List.length_pos_of_ne_nil hnonempty

/-- A spread of as many points as the largest word says has no fractions and no number of them: both
are a fault, while the first fraction would be the quotient by that number. One point less, and all
fractions are there. -/
theorem not_fractions_of_largest :
    let largest : Nat := 0xffffffffffffffff
    largest < wordSize ∧
      size largest = .error .overflow ∧ size largest ≠ .ok largest ∧
      first largest 1 = .error .overflow ∧
      first largest 1 ≠ .ok [(ofNat 1).div (ofNat largest)] ∧
      size (largest - 1) = .ok (largest - 1) ∧
      ∃ qs, fractions (largest - 1) = .ok qs ∧ qs.length = largest - 1 := by
  intro largest
  have hlargest : largest < wordSize := by decide
  have hbefore : largest - 1 < wordSize := by decide
  obtain ⟨hfault, -⟩ := fractions_of_count hlargest
  obtain ⟨hsize, -, hfirst⟩ := hfault (by decide)
  obtain ⟨-, hall⟩ := fractions_of_count hbefore
  obtain ⟨qs, hqs, hsize', hlength, -⟩ := hall (by decide)
  refine ⟨hlargest, hsize, ?_, hfirst 1, ?_, hsize', qs, hqs, hlength⟩
  · rw [hsize]
    simp
  · rw [hfirst 1]
    simp

end ColorAlgebra.Spread
