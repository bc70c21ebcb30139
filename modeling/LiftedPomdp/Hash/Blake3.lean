import LiftedPomdp.Words

/-!
# The BLAKE3 hash function

A byte string is cut into chunks of 1024 bytes, and a chunk into blocks of 64 bytes.  Each chunk
is compressed block by block to a chaining value of eight words.  Chaining values are joined in
pairs, layer by layer, an odd one at the end going up unchanged.  The last compression carries the
root flag and yields the 32 bytes of the hash.
-/

namespace LiftedPomdp
namespace Blake3

/-- Eight words that stand for a part of the input. -/
abbrev ChainingValue := Vector UInt32 8

/-- The chaining value that every chunk and every pair starts from. -/
def initial : ChainingValue :=
  #v[0x6A09E667, 0xBB67AE85, 0x3C6EF372, 0xA54FF53A, 0x510E527F, 0x9B05688C, 0x1F83D9AB,
    0x5BE0CD19]

/-- Marks the first block of a chunk. -/
def chunkStart : UInt32 := 1

/-- Marks the last block of a chunk. -/
def chunkEnd : UInt32 := 2

/-- Marks the compression of two chaining values. -/
def parent : UInt32 := 4

/-- Marks the last compression. -/
def root : UInt32 := 8

/-- The rotations of a mixing step. -/
def rotations : Words.Rotations :=
  { first := 16, second := 12, third := 8, fourth := 7 }

/-- The order in which the next round takes the words of a block. -/
def order : Array Nat :=
  #[2, 6, 3, 10, 7, 0, 4, 13, 1, 11, 12, 5, 9, 14, 15, 8]

/-- The words of a block in the order of the next round. -/
def permute (m : Words16) : Words16 :=
  let words := m.toArray
  Vector.ofFn fun i : Fin 16 => words.getD (order.getD i.val 0) 0

/-- Some rounds, with the words of the block reordered after each. -/
def rounds : Nat → Words16 → Words16 → Words16
  | 0, s, _ => s
  | n + 1, s, m => rounds n (Words.round rotations s m) (permute m)

/-- The chaining value after a block. -/
def compress (cv : ChainingValue) (m : Words16) (counter : UInt64) (length flags : UInt32) :
    ChainingValue :=
  let s : Words16 :=
    #v[cv[0], cv[1], cv[2], cv[3], cv[4], cv[5], cv[6], cv[7], initial[0], initial[1],
      initial[2], initial[3], Words.low counter, Words.high counter, length, flags]
  let s := rounds 7 s m
  Vector.ofFn fun i : Fin 8 => s[i.val] ^^^ s[i.val + 8]

/-- The words of a block of at most 64 bytes. -/
def blockWords (bs : List UInt8) : Words16 :=
  let ws := (Words.ofByteString 16 bs).toArray
  Vector.ofFn fun i : Fin 16 => ws[i.val]?.getD 0

/-- The chaining value of the remaining blocks of a chunk. -/
def blocks (counter : UInt64) (flags : UInt32) (cv : ChainingValue) (first : UInt32)
    (bs : List UInt8) : ChainingValue :=
  if 64 < bs.length then
    let cv := compress cv (blockWords (bs.take 64)) counter 64 first
    blocks counter flags cv 0 (bs.drop 64)
  else
    compress cv (blockWords bs) counter (UInt32.ofNat bs.length) (first ||| chunkEnd ||| flags)
termination_by bs.length
decreasing_by simp only [List.length_drop]; omega

/-- The chaining value of a chunk; `flags` is set in its last block. -/
def chunk (counter : UInt64) (flags : UInt32) (bs : List UInt8) : ChainingValue :=
  blocks counter flags initial chunkStart bs

/-- The chaining value of two neighbouring parts of the input. -/
def join (flags : UInt32) (l r : ChainingValue) : ChainingValue :=
  let m : Words16 :=
    #v[l[0], l[1], l[2], l[3], l[4], l[5], l[6], l[7], r[0], r[1], r[2], r[3], r[4], r[5], r[6],
      r[7]]
  compress initial m 0 64 (parent ||| flags)

/-- Joins neighbours in pairs. -/
def layer : List ChainingValue → List ChainingValue
  | l :: r :: rest => join 0 l r :: layer rest
  | cvs => cvs

/-- A layer has no more parts than the one below it. -/
theorem length_layer_le (cvs : List ChainingValue) : (layer cvs).length ≤ cvs.length := by
  fun_induction layer cvs with
  | case1 l r rest ih => simp; omega
  | case2 cvs h => simp

/-- Two or more parts become fewer. -/
theorem length_layer_lt {l r : ChainingValue} {rest : List ChainingValue} :
    (layer (l :: r :: rest)).length < (l :: r :: rest).length := by
  have h := length_layer_le rest
  simp only [layer, List.length_cons]
  omega

/-- Joins the chaining values of all chunks, the last two of them with the root flag. -/
def top : List ChainingValue → ChainingValue
  | [] => initial
  | [cv] => cv
  | [l, r] => join root l r
  | l :: r :: s :: rest => top (layer (l :: r :: s :: rest))
termination_by cvs => cvs.length
decreasing_by exact length_layer_lt

/-- The chaining values of the chunks of an input that has more than one. -/
def chunks (counter : Nat) (bs : List UInt8) : List ChainingValue :=
  if 1024 < bs.length then
    chunk (UInt64.ofNat counter) 0 (bs.take 1024) :: chunks (counter + 1) (bs.drop 1024)
  else
    [chunk (UInt64.ofNat counter) 0 bs]
termination_by bs.length
decreasing_by simp only [List.length_drop]; omega

/-- The 32 bytes of the hash of a byte string. -/
def hash (bs : List UInt8) : List UInt8 :=
  let cv := if bs.length ≤ 1024 then chunk 0 root bs else top (chunks 0 bs)
  cv.toList.flatMap Words.toBytes

end Blake3
end LiftedPomdp
