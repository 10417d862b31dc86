import ColorAlgebra.Proofs.Spelling.Readback

namespace ColorAlgebra.Spelling

variable {f t : Format}

/-! ## Numbers -/

theorem toBinary_digitsOf {units : Nat} (h : f.Representable units) (negative : Bool) :
    (digitsOf f units).toBinary f negative = .finite negative units h := by
  rw [Decimal.toBinary_eq_round]
  exact Binary.round_of_nearest h (nearest_digitsOf h)

/-- A double is read back as itself if it is finite, and not at all if it is not. -/
theorem reread?_double (x : Double) : reread? x = if x.isFinite then some x else none := by
  cases x with
  | nan => rfl
  | infinity => rfl
  | finite negative units h =>
    dsimp only [reread?]
    rw [toBinary_digitsOf h]

/-! ## Names -/

theorem write_of_name {n : Triple (Binary t)} {name : String}
    (h : Names.of? (n.map (Binary.convert .double)) = some name) : write n = name := by
  unfold write
  rw [h]

theorem write_of_no_name {n : Triple (Binary t)}
    (h : Names.of? (n.map (Binary.convert .double)) = none) :
    write n = String.ofList ('(' :: (inside (n.map (Binary.convert (printed t))) ++ [')'])) := by
  unfold write
  rw [h]
  rfl

theorem exists_entry_of_of? {n : Triple Double} {name : String} (h : Names.of? n = some name) :
    ∃ entry ∈ Names.table, entry.1 = name ∧ entry.2 = Hex.encode n ∧
      Triple.all Names.near n (Hex.decode entry.2) = true := by
  unfold Names.of? at h
  dsimp only at h
  split at h
  · next hnear =>
    unfold Names.ofHex? at h
    obtain ⟨entry, hfind, hname⟩ := Option.map_eq_some_iff.mp h
    have hword : entry.2 = Hex.encode n := by
      have := List.find?_some hfind
      rwa [decide_eq_true_eq] at this
    exact ⟨entry, List.mem_of_find?_eq_some hfind, hname, hword, hword ▸ hnear⟩
  · cases h

/-- A triple is written as a name exactly if it has one. -/
theorem write_mem_all_iff (n : Triple (Binary t)) :
    write n ∈ Names.all ↔ ∃ name, Names.of? (n.map (Binary.convert .double)) = some name := by
  constructor
  · intro h
    cases hname : Names.of? (n.map (Binary.convert .double)) with
    | some name => exact ⟨name, rfl⟩
    | none =>
      -- what is written instead starts with a parenthesis, as no name does
      have hfirst : ∀ name ∈ Names.all, name.toList.head? ≠ some '(' := by decide
      refine absurd ?_ (hfirst _ h)
      rw [write_of_no_name hname, String.toList_ofList]
      rfl
  · rintro ⟨name, hname⟩
    obtain ⟨entry, hentry, heq, -, -⟩ := exists_entry_of_of? hname
    rw [write_of_name hname, ← heq]
    exact List.mem_map_of_mem hentry

theorem of?_eq_none_of_write {n : Triple (Binary t)} (h : write n ∉ Names.all) :
    Names.of? (n.map (Binary.convert .double)) = none := by
  rw [write_mem_all_iff] at h
  cases hname : Names.of? (n.map (Binary.convert .double)) with
  | none => rfl
  | some name => exact absurd ⟨name, hname⟩ h

/-- Every name is that of the color it stands for. -/
theorem of?_decode : ∀ entry ∈ Names.table, Names.of? (Hex.decode entry.2) = some entry.1 := by
  decide +kernel

theorem read?_entry {entry : String × UInt32} (h : entry ∈ Names.table) :
    read? entry.1 = some (Hex.decode entry.2) := by
  have hsimple : ∀ entry ∈ Names.table, simplify entry.1.toList = entry.1.toList := by decide
  have hhex : ∀ entry ∈ Names.table, Names.hexOf? entry.1.toList = some entry.2 := by decide
  unfold read? readSimplified?
  rw [hsimple entry h, hhex entry h]

/-- A name is read as a color that has the name and is near every triple that has it. -/
theorem read?_name {n : Triple Double} {name : String} (h : Names.of? n = some name) :
    ∃ m, read? name = some m ∧ Triple.all Names.near n m = true ∧ Names.of? m = some name := by
  obtain ⟨entry, hentry, rfl, -, hnear⟩ := exists_entry_of_of? h
  exact ⟨Hex.decode entry.2, read?_entry hentry, hnear, of?_decode entry hentry⟩

/-! ## Triples of doubles -/

theorem map_convert_double (n : Triple Double) : n.map (Binary.convert .double) = n := by
  unfold Triple.map
  rw [Binary.convert_self, Binary.convert_self, Binary.convert_self]

theorem write_double_of_no_name {n : Triple Double} (h : Names.of? n = none) :
    write n = String.ofList ('(' :: (inside n ++ [')'])) := by
  have hname : Names.of? (n.map (Binary.convert .double)) = none := by rwa [map_convert_double]
  have hself : n.map (Binary.convert (printed .double)) = n := map_convert_double n
  exact (write_of_no_name hname).trans
    (congrArg (fun m : Triple Double => String.ofList ('(' :: (inside m ++ [')']))) hself)

theorem read?_write_of_no_name {n : Triple Double} (h : Names.of? n = none) :
    read? (write n) = if n.toList.all Binary.isFinite then some n else none := by
  rw [write_double_of_no_name h, read?_parenthesized, reread?_double, reread?_double,
    reread?_double]
  obtain ⟨x, y, z⟩ := n
  dsimp only [Triple.toList, List.all_cons, List.all_nil]
  by_cases hx : x.isFinite = true <;> by_cases hy : y.isFinite = true <;>
    by_cases hz : z.isFinite = true <;> simp [hx, hy, hz]

/-- A triple that is written as a name is read as a color of that name with every channel
within the tolerance; any other triple is read back as it is, signs of zeros included, if
all of its channels are finite, and not at all if one is not. -/
theorem read?_write (c : Triple Double) :
    (write c ∈ Names.all → ∃ n, read? (write c) = some n ∧
      (∀ pair ∈ c.toList.zip n.toList, (pair.1.sub pair.2).abs.atMost Names.tolerance = true) ∧
      write n = write c) ∧
    (write c ∉ Names.all → (∀ x ∈ c.toList, x.isFinite = true) → read? (write c) = some c) ∧
    (write c ∉ Names.all → (∃ x ∈ c.toList, x.isFinite = false) → read? (write c) = none) := by
  have hnone : write c ∉ Names.all → Names.of? c = none := by
    intro h
    have hname := of?_eq_none_of_write h
    rwa [map_convert_double] at hname
  refine ⟨?_, ?_, ?_⟩
  · intro h
    obtain ⟨name, hname⟩ := (write_mem_all_iff c).mp h
    rw [write_of_name hname]
    rw [map_convert_double] at hname
    obtain ⟨n, hread, hnear, hn⟩ := read?_name hname
    refine ⟨n, hread, ?_, write_of_name (by rwa [map_convert_double])⟩
    intro pair hpair
    exact Triple.all_eq_true_iff.mp hnear pair hpair
  · intro h hfinite
    rw [read?_write_of_no_name (hnone h), if_pos (List.all_eq_true.mpr hfinite)]
  · rintro h ⟨x, hx, hfinite⟩
    rw [read?_write_of_no_name (hnone h), if_neg]
    intro hall
    rw [List.all_eq_true.mp hall x hx] at hfinite
    cases hfinite

/-- A negative zero, the least positive double and three. -/
def extremes : Triple Double :=
  ⟨.signedZero true, (Decimal.mk 5 (-324)).toBinary .double false, .ofNat 3⟩

theorem read?_write_extremes :
    write extremes ∉ Names.all ∧ (∀ x ∈ extremes.toList, x.isFinite = true) ∧
      read? (write extremes) = some extremes := by
  have hname : write extremes ∉ Names.all := by decide +kernel
  have hfinite : ∀ x ∈ extremes.toList, x.isFinite = true := by decide +kernel
  exact ⟨hname, hfinite, (read?_write extremes).2.1 hname hfinite⟩

end ColorAlgebra.Spelling
