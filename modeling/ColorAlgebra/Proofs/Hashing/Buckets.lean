import ColorAlgebra.Color.Hash
import ColorAlgebra.Proofs.Binary.Bits
import ColorAlgebra.Proofs.Binary.Ordered
import ColorAlgebra.Proofs.Binary.Whole
import ColorAlgebra.Proofs.Combining.Channels
import ColorAlgebra.Proofs.Hashing.Encoding

/-!
# Buckets

The bucket of a color is found with doubles: the top bits of the hash become a fraction below one,
and this is spread over the buckets. The bits fit a significand and all else is a power of two, so
that every step is exact and the bucket is the top byte of the hash. What is hashed are the bit
patterns of the normalized triple, after its zeros became one. So equal colors have one bucket,
and so have colors of unlike ranges or formats whose normalized triples are equal.
-/

namespace ColorAlgebra

/-! ## Exact steps -/

namespace Binary

variable {f : Format}

/-- The value is finite and this number. -/
structure IsNumber (x : Binary f) (q : ℚ) : Prop where
  finite : x.isFinite = true
  value : x.value = q

theorem isNumber_ofNat {n : Nat} (hn : n ≤ 2 ^ f.precision) : (ofNat n : Binary f).IsNumber n :=
  ⟨isFinite_ofNat hn, value_ofNat hn⟩

/-- A significand over a power of two is a double. -/
theorem exists_isNumber {m k : Nat} (hm : m ≤ 2 ^ 53) (hk : k ≤ unitExponent) :
    ∃ z : Double, z.IsNumber (m / 2 ^ k) := by
  have htop : m * 2 ^ (unitExponent - k) < 2 ^ Format.double.top :=
    calc m * 2 ^ (unitExponent - k) ≤ 2 ^ 53 * 2 ^ (unitExponent - k) := Nat.mul_le_mul_right _ hm
      _ = 2 ^ (53 + (unitExponent - k)) := (Nat.pow_add ..).symm
      _ ≤ 2 ^ (53 + unitExponent) := Nat.pow_le_pow_right (by decide) (by omega)
      _ < 2 ^ Format.double.top := Nat.pow_lt_pow_right (by decide) (by decide)
  have hunits : Format.double.Representable (m * 2 ^ (unitExponent - k)) :=
    Format.representable_mul_two_pow hm (Nat.zero_le _) htop
  refine ⟨finite false _ hunits, rfl, ?_⟩
  have hU : (unitsPerOne : ℚ) = 2 ^ k * 2 ^ (unitExponent - k) := by
    rw [unitsPerOne_eq, Nat.cast_pow, Nat.cast_two, ← pow_add, Nat.add_sub_cancel' hk]
  show (1 : ℚ) * ((m * 2 ^ (unitExponent - k) : Nat) / unitsPerOne) = _
  rw [one_mul, hU, Nat.cast_mul, Nat.cast_pow, Nat.cast_two, mul_div_mul_right _ _ (by positivity)]

theorem IsRounding.isNumber {x : Double} {m k : Nat} (h : x.IsRounding (m / 2 ^ k))
    (hm : m ≤ 2 ^ 53) (hk : k ≤ unitExponent) : x.IsNumber (m / 2 ^ k) := by
  obtain ⟨z, hz⟩ := exists_isNumber hm hk
  obtain ⟨hfinite, hvalue⟩ := h.exact hz.finite hz.value
  exact ⟨hfinite, hvalue⟩

/-! ## Adding zero -/

section
variable {x y : Double}

theorem add_zero_signedZero (s : Bool) : (signedZero s : Double).add zero = zero := by
  cases s <;> rfl

/-- Adding zero changes the negative zero and nothing else. -/
theorem add_zero_eq (x : Double) : x.add zero = if x.isZero then zero else x := by
  cases x with
  | nan => rfl
  | infinity s => rfl
  | finite s n hn =>
    cases n with
    | zero => exact add_zero_signedZero s
    | succ n =>
      have hsum : signed s (n + 1) + signed false 0 = signed s (n + 1) := Int.add_zero _
      have hne : signed s (n + 1) ≠ 0 := by
        rw [← Int.natAbs_ne_zero, natAbs_signed]
        exact Nat.succ_ne_zero n
      have hsign : decide (signed s (n + 1) < 0) = s := by
        rw [Bool.decide_congr (signed_lt_zero_iff (Nat.succ_pos n)), Bool.decide_eq_true]
      show (if signed s (n + 1) + signed false 0 = 0 then signedZero (s && false) else
        ofUnits (decide (signed s (n + 1) + signed false 0 < 0))
          (signed s (n + 1) + signed false 0).natAbs : Double) = finite s (n + 1) hn
      rw [hsum, if_neg hne, hsign, natAbs_signed]
      exact ofUnits_of_representable s hn

/-- Equal values are the same, or zeros. -/
theorem eq_or_isZero (h : x.equal y = true) : x = y ∨ x.isZero = true ∧ y.isZero = true := by
  rcases equal_cases h with ⟨s, hx, hy⟩ | ⟨hx, hy, -⟩
  · exact .inl (hx.trans hy.symm)
  · obtain ⟨s, a, ha, rfl⟩ := exists_finite hx
    obtain ⟨t, b, hb, rfl⟩ := exists_finite hy
    have hrank : signed s a = signed t b := of_decide_eq_true h
    obtain rfl : a = b := by rw [← natAbs_signed s a, hrank, natAbs_signed]
    rcases Nat.eq_zero_or_pos a with rfl | hpos
    · exact .inr ⟨rfl, rfl⟩
    · obtain rfl : s = t := by
        rw [Bool.eq_iff_iff, ← signed_lt_zero_iff hpos, hrank, signed_lt_zero_iff hpos]
      exact .inl rfl

theorem add_zero_congr (h : x.equal y = true) : x.add zero = y.add zero := by
  rcases eq_or_isZero h with rfl | ⟨hx, hy⟩
  · rfl
  · rw [add_zero_eq, add_zero_eq, if_pos hx, if_pos hy]

/-- A zero is divided like the other zero. -/
theorem signedZero_div_add_zero (s t : Bool) (z : Double) :
    ((signedZero s).div z).add zero = ((signedZero t).div z).add zero := by
  cases z with
  | nan => rfl
  | infinity u => exact (add_zero_signedZero _).trans (add_zero_signedZero _).symm
  | finite u b hb =>
    by_cases h0 : b = 0
    · have hnan : ∀ v, (signedZero v).div (finite u b hb) = nan := fun v => by
        show (if b = 0 then (if 0 = 0 then nan else infinity (v ^^ u)) else _) = _
        rw [if_pos h0, if_pos rfl]
      rw [hnan, hnan]
    · have hzero : ∀ v, (signedZero v).div (finite u b hb) = signedZero (v ^^ u) := fun v => by
        show (if b = 0 then _ else round (v ^^ u) (0 * unitsPerOne) b) = _
        rw [if_neg h0, Nat.zero_mul]
        exact round_of_nearest _ (Format.nearest_eq_zero (Nat.pos_of_ne_zero h0))
      rw [hzero, hzero, add_zero_signedZero, add_zero_signedZero]

theorem div_add_zero_congr (h : x.equal y = true) (z : Double) :
    (x.div z).add zero = (y.div z).add zero := by
  rcases eq_or_isZero h with rfl | ⟨hx, hy⟩
  · rfl
  · rw [eq_signedZero hx, eq_signedZero hy]
    exact signedZero_div_add_zero _ _ z

end

end Binary

namespace Color

variable {r s : Range} {t u : Format}

/-! ## Buckets -/

section
variable (n : Triple Double)

theorem isNumber_unitHash : (unitHash n).IsNumber ((wordHash n >>> 11).toNat / 2 ^ 53) := by
  have hlt : (wordHash n >>> 11).toNat < 2 ^ 53 := Sip.toNat_shiftRight_lt _ (by decide)
  have hden : (0x20000000000000 : Nat) ≤ 2 ^ Format.double.precision := Nat.le_refl _
  have htop := Binary.isNumber_ofNat (f := .double) (Nat.le_of_lt hlt)
  have hone := Binary.isNumber_ofNat hden
  have hround := Binary.isRounding_div htop.finite hone.finite (by rw [hone.value]; norm_num)
  rw [htop.value, hone.value] at hround
  refine Binary.IsRounding.isNumber ?_ (Nat.le_of_lt hlt) (by decide)
  exact_mod_cast hround

theorem isNumber_unitHash_mul :
    ((unitHash n).mul hashBuckets).IsNumber ((wordHash n >>> 11).toNat / 2 ^ 45) := by
  have hfits : 256 ≤ 2 ^ Format.double.precision := by decide
  have hunit := isNumber_unitHash n
  have hbuckets := Binary.isNumber_ofNat hfits
  have hround := Binary.isRounding_mul hunit.finite hbuckets.finite
  have hproduct : ((wordHash n >>> 11).toNat / 2 ^ 53 : ℚ) * (256 : Nat) =
      (wordHash n >>> 11).toNat / 2 ^ 45 := by
    push_cast
    ring
  rw [hunit.value, hbuckets.value, hproduct] at hround
  exact hround.isNumber (Nat.le_of_lt (Sip.toNat_shiftRight_lt _ (by decide))) (by decide)

/-- The whole part of what is spread over the buckets is the top byte of the hash. -/
theorem towardZero_unitHash_mul :
    towardZero ((unitHash n).mul hashBuckets).value = ((wordHash n >>> 56).toNat : Int) := by
  have hnonneg : (0 : ℚ) ≤ (wordHash n >>> 11).toNat / 2 ^ 45 := by positivity
  have hpow : (2 : ℚ) ^ 45 = ((2 ^ 45 : Nat) : ℚ) := by norm_num
  have hbyte : (wordHash n >>> 11).toNat / 2 ^ 45 = (wordHash n >>> 56).toNat := by
    rw [Sip.toNat_shiftRight _ (by decide), Sip.toNat_shiftRight _ (by decide),
      Nat.div_div_eq_div_mul]
    rfl
  rw [(isNumber_unitHash_mul n).value, towardZero, if_pos hnonneg, hpow,
    Rat.floor_natCast_div_natCast, ← Int.natCast_ediv, hbyte]

end

theorem hash_eq (c : Color r t) : c.hash = ((wordHash c.toNormalized >>> 56).toNat : Int) := by
  have hlt : (wordHash c.toNormalized >>> 56).toNat < 2 ^ 8 :=
    Sip.toNat_shiftRight_lt _ (by decide)
  unfold hash hashWith
  rw [Binary.toIntWithin_of_isFinite (isNumber_unitHash_mul _).finite, towardZero_unitHash_mul]
  omega

/-! ## Colors that hash alike -/

/-- The hash looks at a normalized triple only after zero was added to it. -/
theorem hash_congr {a : Color r t} {b : Color s u}
    (h : ∀ pair ∈ a.toNormalized.toList.zip b.toNormalized.toList,
      pair.1.add .zero = pair.2.add .zero) : a.hash = b.hash := by
  obtain ⟨hfirst, hsecond, hthird⟩ := Triple.forall_mem_zip.mp h
  have hbytes : hashBytes a.toNormalized = hashBytes b.toNormalized := by
    unfold hashBytes Triple.toList
    simp only [List.flatMap_cons, hfirst, hsecond, hthird]
  rw [hash_eq, hash_eq, wordHash, wordHash, hbytes]

theorem hash_eq_of_normalized {a : Color r t} {b : Color s u}
    (h : Triple.all Binary.equal a.toNormalized b.toNormalized = true) : a.hash = b.hash :=
  hash_congr fun pair hpair => Binary.add_zero_congr (Triple.all_eq_true_iff.mp h pair hpair)

theorem hash_eq_of_equal {a b : Color r t} (h : a.equal b = true) : a.hash = b.hash := by
  obtain ⟨hfirst, hsecond, hthird⟩ := Triple.forall_mem_zip.mp (Triple.all_eq_true_iff.mp h)
  have hdivide : ∀ {x y : Binary t}, x.equal y = true →
      (r.unscale (x.convert .double)).add .zero = (r.unscale (y.convert .double)).add .zero :=
    fun {x y} hxy => Binary.div_add_zero_congr ((Binary.equal_widen x y).trans hxy) r.full
  exact hash_congr (Triple.forall_mem_zip.mpr ⟨hdivide hfirst, hdivide hsecond, hdivide hthird⟩)

/-! ## The encoding -/

/-- The bit patterns that are hashed. -/
def hashWords (n : Triple Double) : List UInt64 := n.toList.map fun v => (v.add .zero).toBits

theorem hashBytes_eq (n : Triple Double) : hashBytes n = (hashWords n).flatMap Sip.bytesOfWord := by
  unfold hashBytes hashWords
  rw [List.flatMap_map]

/-- The patterns are read back as the triple, with its zeros made one. -/
theorem map_ofBits_hashWords {n : Triple Double} (h : ∀ v ∈ n.toList, v.isNaN = false) :
    (hashWords n).map Binary.ofBits = n.toList.map fun v => v.add .zero := by
  unfold hashWords
  rw [List.map_map]
  refine List.map_congr_left fun v hv => Binary.ofBits_toBits ?_
  rw [Binary.add_zero_eq]
  split
  · rfl
  · exact h v hv

/-- The hash of a color is the top byte of the hash of 24 bytes: these are the patterns of its
normalized triple, the lowest byte first, and can be read back up to the sign of a zero. The hash
mixes the patterns in one by one and the length last. It is a number from 0 to 255, because all
steps with doubles are exact. Equal colors hash alike, and so do colors of any ranges and formats
with equal normalized triples. -/
theorem hash_exact (c : Color r t) :
    let n := c.toNormalized
    let word := Sip.hash 1 3 0 0 (hashBytes n)
    (c.hash = ((word >>> 56).toNat : Int) ∧ 0 ≤ c.hash ∧ c.hash ≤ 255) ∧
    ((hashBytes n).length = 24 ∧
      hashBytes n = (hashWords n).flatMap (fun w => Sip.littleEndian 8 w.toNat) ∧
      ((∀ v ∈ n.toList, v.isNaN = false) →
        (hashWords n).map Binary.ofBits = n.toList.map fun v => v.add .zero) ∧
      word = Sip.finish 3 (Sip.absorb 1 ((hashWords n).foldl (Sip.absorb 1) (Sip.start 0 0))
        ((24 : UInt64) <<< 56))) ∧
    ((Binary.ofNat (word >>> 11).toNat : Double).IsNumber (word >>> 11).toNat ∧
      (unitHash n).IsNumber ((word >>> 11).toNat / 2 ^ 53) ∧
      ((unitHash n).mul hashBuckets).IsNumber ((word >>> 11).toNat / 2 ^ 45)) ∧
    (∀ b : Color r t, c.equal b = true → c.hash = b.hash) ∧
    ∀ (s : Range) (u : Format) (b : Color s u),
      Triple.all Binary.equal n b.toNormalized = true → c.hash = b.hash := by
  intro n word
  have hword : word = wordHash n := rfl
  clear_value word
  subst hword
  have hbucket : c.hash = ((wordHash n >>> 56).toNat : Int) := hash_eq c
  have hlt : (wordHash n >>> 56).toNat < 2 ^ 8 := Sip.toNat_shiftRight_lt _ (by decide)
  have htop : (wordHash n >>> 11).toNat < 2 ^ 53 := Sip.toNat_shiftRight_lt _ (by decide)
  have hbytes := hashBytes_eq n
  have hlength : (hashWords n).length = 3 := List.length_map _
  refine ⟨⟨hbucket, by omega, by omega⟩, ⟨?_, ?_, map_ofBits_hashWords, ?_⟩,
    ⟨Binary.isNumber_ofNat (Nat.le_of_lt htop), isNumber_unitHash n, isNumber_unitHash_mul n⟩,
    fun b hb => hash_eq_of_equal hb, fun s u b hb => hash_eq_of_normalized hb⟩
  · rw [hbytes, Sip.length_flatMap_bytesOfWord, hlength]
  · rw [hbytes]
    simp only [← Sip.bytesOfWord_eq]
  · have hbits : UInt64.ofNat (8 * 3) = 24 := rfl
    rw [wordHash, hbytes, Sip.hash_flatMap_bytesOfWord, hlength, hbits]

/-- A half color of the byte range and a double one of the normal range, with zeros of unlike
signs: both have the normalized triple of zero, zero and one. -/
theorem hash_exact_zeros :
    let a : Color .normal .double := ⟨.zero, .signedZero true, .one⟩
    let b : Color .normal .double := ⟨.signedZero true, .zero, .one⟩
    let c : Color .byte .half := ⟨.signedZero true, .signedZero true, .ofNat 255⟩
    (a.equal b = true ∧ Triple.all Binary.equal a.toNormalized c.toNormalized = true) ∧
      (0 ≤ a.hash ∧ a.hash ≤ 255) ∧ a.hash = b.hash ∧ a.hash = c.hash := by
  intro a b c
  have hequal : a.equal b = true := by decide +kernel
  have hnormal : Triple.all Binary.equal a.toNormalized c.toNormalized = true := by
    decide +kernel
  obtain ⟨⟨-, hbounds⟩, -, -, hsame, hacross⟩ := hash_exact a
  exact ⟨⟨hequal, hnormal⟩, hbounds, hsame b hequal, hacross .byte .half c hnormal⟩

end Color

end ColorAlgebra
