/-!
# Byte strings

Fixed-width little-endian encodings of numbers and the hexadecimal text of byte strings.
-/

namespace LiftedPomdp
namespace Bytes

/-- The lowest `width` bytes of `n`, least significant first. -/
def littleEndian : Nat → Nat → List UInt8
  | 0, _ => []
  | width + 1, n => UInt8.ofNat (n % 256) :: littleEndian width (n / 256)

/-- The lower-case hexadecimal digit of a number below sixteen. -/
def hexDigit (d : Nat) : Char :=
  if d < 10 then Char.ofNat (48 + d) else Char.ofNat (87 + d)

/-- The two hexadecimal digits of each byte, in order. -/
def hexChars (bs : List UInt8) : List Char :=
  bs.flatMap fun b => [hexDigit (b.toNat / 16), hexDigit (b.toNat % 16)]

/-- The hexadecimal text of a byte string. -/
def hex (bs : List UInt8) : String :=
  String.ofList (hexChars bs)

end Bytes
end LiftedPomdp
