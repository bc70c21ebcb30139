import LiftedPomdp.Error

/-!
# Memory

Places in memory are counted in 64 bits, and a piece of memory has fewer than `2 ^ 63` bytes.  A
computation that counts further or asks for a longer piece ends without an answer.
-/

namespace LiftedPomdp
namespace Memory

/-- How many numbers have 64 bits, `2 ^ 64`. -/
def wordCount : Nat :=
  18446744073709551616

/-- Checks that a count has 64 bits. -/
def checkCount (n : Nat) : Except Abort Unit :=
  if n < wordCount then .ok () else .error (.overflow n)

/-- The greatest number of bytes of a piece of memory, `2 ^ 63 - 1`. -/
def maxBytes : Nat :=
  9223372036854775807

/-- Asks for a piece of memory for some items, each of so many bytes. -/
def reserve (items bytes : Nat) : Except Abort Unit :=
  if items * bytes ≤ maxBytes then .ok () else .error (.outOfMemory items)

end Memory
end LiftedPomdp
