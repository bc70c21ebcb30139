import LiftedPomdp.Decimal.Digits

/-!
# Reading real numbers

A decimal literal has digits before the point, digits after it and a power of ten.  A reader tells
the double that it denotes; a literal beyond the largest double denotes none.

The double nearest to a literal comes from rounding once.  Scaling is quicker and less exact: the
digits that fit in a word are multiplied or divided by powers of ten, each of which is rounded.
-/

namespace LiftedPomdp
namespace Decimal

/-- A way to read literals without a sign. -/
structure Reader where
  /-- The double that a literal denotes, given the digits before the point, those after it and the
  power of ten. -/
  read? : List Char → List Char → Int → Option Float

/-- The double nearest to `m * 10 ^ e`, ties going to the even significand.  All numbers from
`10 ^ 310` on are beyond the doubles, and all below `10 ^ (-330)` are nearest to zero. -/
def nearest (m : Nat) (e : Int) : Float :=
  let magnitude := length m + e
  if m = 0 ∨ magnitude < -330 then 0.0
  else if 310 < magnitude then 1.0 / 0.0
  else Float.ofScientific m (decide (e < 0)) e.natAbs

/-- Appends digits to a number as long as it has 64 bits, and counts those that are left. -/
def appendDigits (n : Nat) : List Char → Nat × Nat
  | [] => (n, 0)
  | c :: cs =>
    let n' := 10 * n + digitValue c
    if n' < 18446744073709551616 then appendDigits n' cs else (n, cs.length + 1)

/-- The double nearest to `10 ^ k`. -/
def tenPower (k : Nat) : Float :=
  Float.ofScientific 1 false k

/-- Divides by `10 ^ 308` some times, unless nothing is left before, and then by a last power of
ten. -/
def divide (x : Float) : Nat → Nat → Float
  | 0, last => x / tenPower last
  | n + 1, last => if x == 0.0 then x else divide (x / tenPower 308) n last

/-- Multiplies by `10 ^ e`, or divides by `10 ^ (-e)` with no power beyond `10 ^ 308`; `none` where
the result is beyond the doubles. -/
def scale (x : Float) (e : Int) : Option Float :=
  if e < 0 then
    let k := e.natAbs
    let times := (k - 1) / 308
    some (divide x times (k - 308 * times))
  else if e ≤ 308 then
    let y := x * tenPower e.natAbs
    if y.isInf then none else some y
  else if x == 0.0 then some x else none

namespace Reader

/-- Rounds once. -/
def nearest : Reader where
  read? whole fraction power :=
    let x := Decimal.nearest (ofDigits (whole ++ fraction)) (power - fraction.length)
    if x.isInf then none else some x

/-- Scales the digits that fit in a word.  Those before the point that do not fit only count for
the power of ten. -/
def scaling : Reader where
  read? whole fraction power :=
    let (n, dropped) := appendDigits 0 whole
    let (n, left) := appendDigits n fraction
    scale (UInt64.ofNat n).toFloat (power + dropped - (fraction.length - left))

end Reader
end Decimal
end LiftedPomdp
