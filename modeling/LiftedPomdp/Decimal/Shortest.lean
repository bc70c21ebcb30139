import LiftedPomdp.Decimal.Digits

/-!
# The shortest decimal that reads back

A positive finite double is `m * 2 ^ q` for a significand `m` below `2 ^ 53`.  The reals that
round to it form an interval around it, whose ends belong to it exactly when `m` is even.
`Decimal.shortest` finds the decimal with the fewest digits in that interval, the one nearest to
the double where two have equally few; a `Tie` decides between two that are equally near.

All comparisons are exact.  With `unit q = 2 ^ q` for `q ≥ 0` and `5 ^ (-q)` otherwise, the double
is `m * unit q` steps of `10 ^ min q 0`, so its whole neighbourhood is measured in natural numbers.
-/

namespace LiftedPomdp

/-- The decimal number `significand * 10 ^ exponent`. -/
structure Decimal where
  /-- The digits, read as one natural number. -/
  significand : Nat
  /-- The power of ten that the last digit stands at. -/
  exponent : Int
  deriving DecidableEq, Repr

namespace Decimal

/-- What decides between two decimals with equally few digits and equally near to a double. -/
inductive Tie where
  /-- The one whose last digit is even. -/
  | even
  /-- The larger one. -/
  | up
  deriving DecidableEq, Repr

/-- Whether the smaller of two equally near decimals, with this significand, is taken. -/
def Tie.takesLower : Tie → Nat → Bool
  | .even, lower => decide (lower % 2 = 0)
  | .up, _ => false

/-- The distance between neighbouring doubles `m * 2 ^ q` and `(m + 1) * 2 ^ q`, in steps of
`10 ^ min q 0`. -/
def unit (q : Int) : Nat :=
  if 0 ≤ q then Nat.pow 2 q.toNat else Nat.pow 5 (-q).toNat

/-- The least exponent of a double, that of the subnormal numbers. -/
def leastExponent : Int :=
  -1074

/-- The significand from which the numbers of one binary order of magnitude start, `2 ^ 52`. -/
def leadingSignificand : Nat :=
  4503599627370496

/-- The reals that round to a double, in quarters of its unit. -/
structure Neighbourhood where
  /-- The significand of the double. -/
  centre : Nat
  /-- The unit of the double. -/
  unit : Nat
  /-- The lower end is this many quarter units below the double. -/
  below : Nat

namespace Neighbourhood

/-- The interval of `m * 2 ^ q`: half a unit to both sides, a quarter below where the next smaller
double is only half a unit away. -/
def of (m : Nat) (q : Int) : Neighbourhood where
  centre := m
  unit := Decimal.unit q
  below := if m = leadingSignificand ∧ leastExponent < q then 1 else 2

/-- The double itself, in steps. -/
def steps (b : Neighbourhood) : Nat :=
  b.centre * b.unit

/-- A number of steps rounds to the double; the ends count when the significand is even. -/
def contains (b : Neighbourhood) (c : Nat) : Bool :=
  let low := (4 * b.centre - b.below) * b.unit
  let high := (4 * b.centre + 2) * b.unit
  if b.centre % 2 = 0 then
    decide (low ≤ 4 * c) && decide (4 * c ≤ high)
  else
    decide (low < 4 * c) && decide (4 * c < high)

/-- The multiple of `10 ^ r` nearest to the double among the two around it that round to it. -/
def onGrid? (b : Neighbourhood) (tie : Tie) (r : Nat) : Option Nat :=
  let grid := Nat.pow 10 r
  let lower := b.steps / grid
  let upper := lower + 1
  match b.contains (lower * grid), b.contains (upper * grid) with
  | true, true =>
    let twice := 2 * (b.steps - lower * grid)
    if twice < grid || (twice == grid && tie.takesLower lower) then some lower else some upper
  | true, false => some lower
  | false, true => some upper
  | false, false => none

/-- The coarsest grid `10 ^ r`, counted down from the given one, that has a multiple rounding to
the double, with that multiple; on the finest grid the double itself is taken. -/
def coarsest (b : Neighbourhood) (tie : Tie) : Nat → Nat × Nat
  | 0 => ((b.onGrid? tie 0).getD b.steps, 0)
  | r + 1 =>
    match b.onGrid? tie (r + 1) with
    | some c => (c, r + 1)
    | none => b.coarsest tie r

end Neighbourhood

/-- The shortest decimal that rounds to the positive double `m * 2 ^ q`. -/
def shortest (tie : Tie) (m : Nat) (q : Int) : Decimal :=
  let b := Neighbourhood.of m q
  let (c, r) := b.coarsest tie (length b.steps)
  { significand := c, exponent := r + min q 0 }

end Decimal
end LiftedPomdp
