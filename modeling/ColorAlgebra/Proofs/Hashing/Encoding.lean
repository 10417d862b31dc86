import Mathlib.Tactic.Ring
import ColorAlgebra.Binary.Format
import ColorAlgebra.Hash.Sip

namespace ColorAlgebra.Sip

/-- The `count` lowest bytes of a number, the lowest first. -/
def littleEndian : Nat → Nat → List UInt8
  | 0, _ => []
  | count + 1, n => UInt8.ofNat n :: littleEndian count (n / 256)

theorem toNat_shiftRight (w : UInt64) {k : UInt64} (hk : k < 64) :
    (w >>> k).toNat = w.toNat / 2 ^ k.toNat := by
  have hbits : k.toNat % 64 = k.toNat := Nat.mod_eq_of_lt (UInt64.lt_iff_toNat_lt.mp hk)
  rw [UInt64.toNat_shiftRight, hbits, Nat.shiftRight_eq_div_pow]

theorem toNat_shiftRight_lt (w : UInt64) {k : UInt64} (hk : k < 64) :
    (w >>> k).toNat < 2 ^ (64 - k.toNat) := by
  have hlt : k.toNat < 64 := UInt64.lt_iff_toNat_lt.mp hk
  rw [toNat_shiftRight w hk]
  refine Nat.div_lt_of_lt_mul ?_
  rw [← Nat.pow_add, Nat.add_sub_cancel' (Nat.le_of_lt hlt)]
  exact w.toNat_lt

theorem toUInt8_shiftRight (w : UInt64) {k : UInt64} (hk : k < 64) :
    (w >>> k).toUInt8 = UInt8.ofNat (w.toNat / 2 ^ k.toNat) := by
  refine UInt8.toNat.inj ?_
  rw [UInt64.toNat_toUInt8, toNat_shiftRight w hk, UInt8.toNat_ofNat']

theorem bytesOfWord_eq (w : UInt64) : bytesOfWord w = littleEndian 8 w.toNat := by
  have hlowest : w.toUInt8 = UInt8.ofNat w.toNat := UInt8.toNat.inj (by simp)
  simp only [bytesOfWord, List.map_cons, List.map_nil, littleEndian, Nat.div_div_eq_div_mul]
  simp (disch := decide) only [toUInt8_shiftRight, hlowest]
  rfl

/-! ## Reading bytes -/

/-- One more byte goes below the others, as long as these leave room for it. -/
theorem toNat_wordOfBytes_cons (b : UInt8) {bytes : List UInt8}
    (h : (wordOfBytes bytes).toNat < 2 ^ 56) :
    (wordOfBytes (b :: bytes)).toNat = b.toNat + 256 * (wordOfBytes bytes).toNat := by
  have hword : wordOfBytes (b :: bytes) = (wordOfBytes bytes <<< 8) ||| b.toUInt64 := rfl
  have hroom : (wordOfBytes bytes).toNat <<< 8 < 2 ^ 64 := by
    rw [Nat.shiftLeft_eq]
    omega
  rw [hword, UInt64.toNat_or, UInt64.toNat_shiftLeft, UInt8.toNat_toUInt64,
    show UInt64.toNat 8 % 64 = 8 from rfl, Nat.mod_eq_of_lt hroom,
    ← Nat.shiftLeft_add_eq_or_of_lt b.toNat_lt, Nat.shiftLeft_eq]
  ring

theorem toNat_wordOfBytes_littleEndian {count : Nat} (hcount : count ≤ 8) (n : Nat) :
    (wordOfBytes (littleEndian count n)).toNat = n % 256 ^ count := by
  induction count generalizing n with
  | zero =>
    rw [Nat.pow_zero, Nat.mod_one]
    rfl
  | succ count ih =>
    have hrest := ih (by omega) (n / 256)
    have hlt : n / 256 % 256 ^ count < 2 ^ 56 :=
      calc n / 256 % 256 ^ count < 256 ^ count := Nat.mod_lt _ (Nat.pow_pos (by decide))
        _ ≤ 256 ^ 7 := Nat.pow_le_pow_right (by decide) (by omega)
        _ = 2 ^ 56 := by decide
    have hbyte : (UInt8.ofNat n).toNat = n % 256 := UInt8.toNat_ofNat'
    rw [littleEndian, toNat_wordOfBytes_cons _ (hrest ▸ hlt), hrest, hbyte, Nat.pow_succ',
      Nat.mod_mul]

theorem wordOfBytes_bytesOfWord (w : UInt64) : wordOfBytes (bytesOfWord w) = w := by
  refine UInt64.toNat.inj ?_
  rw [bytesOfWord_eq, toNat_wordOfBytes_littleEndian (Nat.le_refl 8)]
  exact Nat.mod_eq_of_lt w.toNat_lt

/-! ## Strings of words -/

theorem words_bytesOfWord_append (w : UInt64) (rest : List UInt8) :
    words (bytesOfWord w ++ rest) = (w :: (words rest).1, (words rest).2) := by
  have hfirst : words (bytesOfWord w ++ rest) =
      (wordOfBytes (bytesOfWord w) :: (words rest).1, (words rest).2) := rfl
  rw [hfirst, wordOfBytes_bytesOfWord]

theorem words_flatMap_bytesOfWord (ws : List UInt64) :
    words (ws.flatMap bytesOfWord) = (ws, []) := by
  induction ws with
  | nil => rfl
  | cons w ws ih => rw [List.flatMap_cons, words_bytesOfWord_append, ih]

theorem length_flatMap_bytesOfWord (ws : List UInt64) :
    (ws.flatMap bytesOfWord).length = 8 * ws.length := by
  induction ws with
  | nil => rfl
  | cons w ws ih =>
    have hlength : (bytesOfWord w).length = 8 := rfl
    rw [List.flatMap_cons, List.length_append, hlength, ih, List.length_cons, Nat.mul_succ,
      Nat.add_comm]

/-- Words that are hashed as bytes are mixed in one by one, and nothing is left for the last word
but the length. -/
theorem hash_flatMap_bytesOfWord (c d : Nat) (k0 k1 : UInt64) (ws : List UInt64) :
    hash c d k0 k1 (ws.flatMap bytesOfWord) =
      finish d (absorb c (ws.foldl (absorb c) (start k0 k1))
        (UInt64.ofNat (8 * ws.length) <<< 56)) := by
  unfold hash lastWord
  rw [words_flatMap_bytesOfWord, length_flatMap_bytesOfWord]
  show finish d (absorb c _ (_ ||| 0)) = _
  rw [UInt64.or_zero]

-- Two of the published samples of SipHash-1-3, under the key of the bytes 0 to 15: the empty
-- string, and the bytes of the key itself.
example : hash 1 3 0x0706050403020100 0x0f0e0d0c0b0a0908 [] = 0xabac0158050fc4dc := by
  decide +kernel
example : hash 1 3 0x0706050403020100 0x0f0e0d0c0b0a0908
    ([0x0706050403020100, 0x0f0e0d0c0b0a0908].flatMap bytesOfWord) = 0xcc4fdd1a7d908b66 := by
  decide +kernel

end ColorAlgebra.Sip
