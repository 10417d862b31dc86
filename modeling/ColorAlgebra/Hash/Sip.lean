/-!
# SipHash

SipHash is a keyed hash of byte strings. Its state is four words. Each word of
eight bytes is mixed in between rounds; the last word holds the bytes that are
left and, in its top byte, the length of the whole string. The number of rounds
per word and at the end are parameters: SipHash-1-3 has one and three.
-/

namespace ColorAlgebra.Sip

structure State where
  v0 : UInt64
  v1 : UInt64
  v2 : UInt64
  v3 : UInt64
  deriving DecidableEq, Repr

def rotateLeft (w : UInt64) (n : UInt64) : UInt64 := (w <<< n) ||| (w >>> (64 - n))

/-- The starting state of a key. -/
def start (k0 k1 : UInt64) : State where
  v0 := k0 ^^^ 0x736f6d6570736575
  v1 := k1 ^^^ 0x646f72616e646f6d
  v2 := k0 ^^^ 0x6c7967656e657261
  v3 := k1 ^^^ 0x7465646279746573

def round (s : State) : State :=
  let v0 := s.v0 + s.v1
  let v1 := rotateLeft s.v1 13 ^^^ v0
  let v0 := rotateLeft v0 32
  let v2 := s.v2 + s.v3
  let v3 := rotateLeft s.v3 16 ^^^ v2
  let v0 := v0 + v3
  let v3 := rotateLeft v3 21 ^^^ v0
  let v2 := v2 + v1
  let v1 := rotateLeft v1 17 ^^^ v2
  let v2 := rotateLeft v2 32
  ⟨v0, v1, v2, v3⟩

def rounds (n : Nat) (s : State) : State := n.repeat round s

/-- Mixes one word in, with `c` rounds. -/
def absorb (c : Nat) (s : State) (word : UInt64) : State :=
  let s := rounds c { s with v3 := s.v3 ^^^ word }
  { s with v0 := s.v0 ^^^ word }

/-- The hash of a state, after `d` closing rounds. -/
def finish (d : Nat) (s : State) : UInt64 :=
  let s := rounds d { s with v2 := s.v2 ^^^ 0xff }
  s.v0 ^^^ s.v1 ^^^ s.v2 ^^^ s.v3

/-! ## Words and bytes -/

/-- The word of up to eight bytes, the first of them lowest. -/
def wordOfBytes (bytes : List UInt8) : UInt64 :=
  bytes.foldr (fun b w => (w <<< 8) ||| b.toUInt64) 0

/-- The eight bytes of a word, the lowest first. -/
def bytesOfWord (w : UInt64) : List UInt8 :=
  [w, w >>> 8, w >>> 16, w >>> 24, w >>> 32, w >>> 40, w >>> 48, w >>> 56].map UInt64.toUInt8

/-- The full words of a byte string, and the bytes that are left. -/
def words : List UInt8 → List UInt64 × List UInt8
  | a :: b :: c :: d :: e :: f :: g :: h :: rest =>
    (wordOfBytes [a, b, c, d, e, f, g, h] :: (words rest).1, (words rest).2)
  | rest => ([], rest)

/-- The last word: the bytes that are left below the length of the string. -/
def lastWord (length : Nat) (rest : List UInt8) : UInt64 :=
  (UInt64.ofNat length <<< 56) ||| wordOfBytes rest

/-- SipHash-c-d of a byte string under a key. -/
def hash (c d : Nat) (k0 k1 : UInt64) (bytes : List UInt8) : UInt64 :=
  let (full, rest) := words bytes
  let s := full.foldl (absorb c) (start k0 k1)
  finish d (absorb c s (lastWord bytes.length rest))

end ColorAlgebra.Sip
