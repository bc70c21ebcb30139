/-!
# Vectors of machine words

Rotations of 32-bit words, and the mixing of sixteen words by additions, rotations and exclusive
ors.  The sixteen words are thought of as a square of four rows; a round mixes its columns and then
its diagonals.
-/

namespace LiftedPomdp

/-- The sixteen words that a mixing function works on. -/
abbrev Words16 := Vector UInt32 16

namespace Words

/-- Rotates a word to the right by fewer than 32 bits. -/
def rotateRight (w : UInt32) (bits : UInt32) : UInt32 :=
  (w >>> bits) ||| (w <<< (32 - bits))

/-- The four rotations of a mixing step, as numbers of bits to the right. -/
structure Rotations where
  first : UInt32
  second : UInt32
  third : UInt32
  fourth : UInt32
  deriving DecidableEq, Repr

/-- Mixes four of the words and two words of a message. -/
def mix (r : Rotations) (s : Words16) (a b c d : Fin 16) (x y : UInt32) : Words16 :=
  let s := s.set a (s[a] + s[b] + x)
  let s := s.set d (rotateRight (s[d] ^^^ s[a]) r.first)
  let s := s.set c (s[c] + s[d])
  let s := s.set b (rotateRight (s[b] ^^^ s[c]) r.second)
  let s := s.set a (s[a] + s[b] + y)
  let s := s.set d (rotateRight (s[d] ^^^ s[a]) r.third)
  let s := s.set c (s[c] + s[d])
  s.set b (rotateRight (s[b] ^^^ s[c]) r.fourth)

/-- Mixes a message into the columns and then the diagonals. -/
def round (r : Rotations) (s m : Words16) : Words16 :=
  let s := mix r s 0 4 8 12 m[0] m[1]
  let s := mix r s 1 5 9 13 m[2] m[3]
  let s := mix r s 2 6 10 14 m[4] m[5]
  let s := mix r s 3 7 11 15 m[6] m[7]
  let s := mix r s 0 5 10 15 m[8] m[9]
  let s := mix r s 1 6 11 12 m[10] m[11]
  let s := mix r s 2 7 8 13 m[12] m[13]
  mix r s 3 4 9 14 m[14] m[15]

/-- The lower half of a 64-bit word. -/
def low (n : UInt64) : UInt32 :=
  n.toUInt32

/-- The upper half of a 64-bit word. -/
def high (n : UInt64) : UInt32 :=
  (n >>> 32).toUInt32

/-- The 64-bit word with the given halves. -/
def join (low high : UInt32) : UInt64 :=
  low.toUInt64 ||| (high.toUInt64 <<< 32)

/-- The word that four bytes spell in little-endian order; missing bytes count as zero. -/
def ofBytes : List UInt8 → UInt32
  | [] => 0
  | b :: bs => b.toUInt32 ||| (ofBytes bs <<< 8)

/-- The word at the front of a byte string. -/
def first (bs : List UInt8) : UInt32 :=
  ofBytes (bs.take 4)

/-- The first `n` words of a byte string, padded with zeros. -/
def ofByteString : Nat → List UInt8 → List UInt32
  | 0, _ => []
  | n + 1, bs => first bs :: ofByteString n (bs.drop 4)

/-- The four bytes of a word in little-endian order. -/
def toBytes (w : UInt32) : List UInt8 :=
  [w.toUInt8, (w >>> 8).toUInt8, (w >>> 16).toUInt8, (w >>> 24).toUInt8]

end Words
end LiftedPomdp
