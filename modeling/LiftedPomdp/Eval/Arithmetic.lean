import LiftedPomdp.Definition.Expr

/-!
# Arithmetic and comparison of values

Booleans and integers are compared and combined as integers, and as reals once a real takes part.
An integer result that does not fit in 64 bits is computed with reals instead.  Division is always
of reals, and only by a number other than zero.
-/

namespace LiftedPomdp

namespace CompareOp

/-- A comparison of integers. -/
def onInts : CompareOp → Int64 → Int64 → Bool
  | .eq, a, b => a == b
  | .neq, a, b => a != b
  | .lt, a, b => decide (a < b)
  | .le, a, b => decide (a ≤ b)
  | .gt, a, b => decide (b < a)
  | .ge, a, b => decide (b ≤ a)

/-- A comparison of reals. -/
def onReals : CompareOp → Float → Float → Bool
  | .eq, x, y => x == y
  | .neq, x, y => x != y
  | .lt, x, y => decide (x < y)
  | .le, x, y => decide (x ≤ y)
  | .gt, x, y => decide (y < x)
  | .ge, x, y => decide (y ≤ x)

end CompareOp

namespace ArithOp

/-- The exact result on integers, which division does not have. -/
def onInts? : ArithOp → Int → Int → Option Int
  | .add, a, b => some (a + b)
  | .sub, a, b => some (a - b)
  | .mul, a, b => some (a * b)
  | .div, _, _ => none

/-- The result on reals, which division by zero does not have. -/
def onReals? : ArithOp → Float → Float → Option Float
  | .add, x, y => some (x + y)
  | .sub, x, y => some (x - y)
  | .mul, x, y => some (x * y)
  | .div, x, y => if y == 0.0 then none else some (x / y)

end ArithOp

namespace Value

/-- Compares two values. -/
def compare (op : CompareOp) (v w : Value) : Bool :=
  match v.int?, w.int? with
  | some a, some b => op.onInts a b
  | _, _ => op.onReals v.toReal w.toReal

/-- The exact integer result of an operation, where it is one of 64 bits. -/
def integerResult? (op : ArithOp) (v w : Value) : Option Int64 :=
  match v.int?, w.int? with
  | some a, some b => (op.onInts? a.toInt b.toInt).bind int64?
  | _, _ => none

/-- The result of an operation, which division by zero does not have. -/
def arith? (op : ArithOp) (v w : Value) : Option Value :=
  match integerResult? op v w with
  | some n => some (.int n)
  | none => (op.onReals? v.toReal w.toReal).map .real

/-- The opposite of a value. -/
def opposite (v : Value) : Value :=
  match v.int? with
  | none => .real (-v.toReal)
  | some n =>
    match int64? (-n.toInt) with
    | some n => .int n
    | none => .real (-v.toReal)

end Value
end LiftedPomdp
