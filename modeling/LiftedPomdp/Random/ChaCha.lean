import LiftedPomdp.Words

/-!
# The ChaCha key stream with eight rounds

A key of eight words and a stream number determine an endless sequence of 64-bit words.  Blocks
of sixteen 32-bit words are computed from the key, the block number and the stream number, and two
consecutive words make one word of the sequence, the lower half first.
-/

namespace LiftedPomdp

/-- A place in the sequence of 64-bit words of a key and a stream number. -/
structure RandomStream where
  key : Vector UInt32 8
  /-- The number of the stream. -/
  stream : UInt64
  /-- How many words have been taken. -/
  position : Nat
  deriving DecidableEq, Repr

namespace RandomStream

/-- The rotations of a mixing step, which are by 16, 12, 8 and 7 bits to the left. -/
def rotations : Words.Rotations :=
  { first := 16, second := 20, third := 24, fourth := 25 }

/-- Some double rounds; there is no message to mix in. -/
def rounds : Nat → Words16 → Words16
  | 0, s => s
  | n + 1, s => rounds n (Words.round rotations s (Vector.replicate 16 0))

/-- The words that every block starts from. -/
def constants : Vector UInt32 4 :=
  #v[0x61707865, 0x3320646E, 0x79622D32, 0x6B206574]

/-- The words that a block is computed from: the constants, the key, the number of the block and
the number of the stream. -/
def layout (key : Vector UInt32 8) (stream number : UInt64) : Words16 :=
  constants ++ key ++
    #v[Words.low number, Words.high number, Words.low stream, Words.high stream]

/-- The block with the given number, after eight rounds. -/
def block (key : Vector UInt32 8) (stream number : UInt64) : Words16 :=
  let s := layout key stream number
  Vector.zipWith (· + ·) (rounds 4 s) s

/-- The 64-bit word at a place of the sequence. -/
def word (key : Vector UInt32 8) (stream : UInt64) (n : Nat) : UInt64 :=
  let b := block key stream (UInt64.ofNat (n / 8))
  let i := 2 * (n % 8)
  have : i + 1 < 16 := by omega
  Words.join b[i] b[i + 1]

/-- After how many words the sequence starts again: the number of a block has 64 bits, and a block
makes eight words. -/
def period : Nat :=
  147573952589676412928

/-- The next word, and the place after it. -/
def next (r : RandomStream) : UInt64 × RandomStream :=
  (word r.key r.stream r.position, { r with position := r.position + 1 })

/-- One step of the generator that spreads a seed over a key. -/
def spread (s : UInt64) : UInt64 :=
  s * 6364136223846793005 + 11634580027462260723

/-- The word of the key that a state of that generator yields. -/
def keyWord (s : UInt64) : UInt32 :=
  Words.rotateRight (((s >>> 18) ^^^ s) >>> 27).toUInt32 (s >>> 59).toUInt32

/-- The state of the generator after some steps. -/
def spreadTimes (s : UInt64) : Nat → UInt64
  | 0 => s
  | n + 1 => spreadTimes (spread s) n

/-- The start of the sequence of a seed. -/
def ofSeed (seed : UInt64) : RandomStream where
  key := Vector.ofFn fun i : Fin 8 => keyWord (spreadTimes seed (i.val + 1))
  stream := 0
  position := 0

/-- The start of the numbered stream of a seed. -/
def ofSeedStream (seed stream : UInt64) : RandomStream :=
  { ofSeed seed with stream := stream }

end RandomStream
end LiftedPomdp
