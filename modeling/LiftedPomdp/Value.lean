import LiftedPomdp.Bytes
import LiftedPomdp.Decimal.Layout

/-!
# Values of fluents

A fluent holds a boolean, a 64-bit integer or a double.  Booleans count as the numbers zero and
one, and integers as reals, but numbers are not truth values.

Two values are compared by `Value.same`, which follows the order of the reals: zero equals
negative zero, and a NaN equals nothing.  Propositional equality is finer and tells the bits apart.
-/

namespace LiftedPomdp

/-- The range of values that a fluent is declared with. -/
inductive Range where
  | bool
  /-- The 64-bit signed integers. -/
  | int
  | real
  deriving DecidableEq, Repr

/-- A value that a fluent can hold. -/
inductive Value where
  | bool (b : Bool)
  /-- A 64-bit signed integer. -/
  | int (n : Int64)
  | real (x : Float)
  deriving DecidableEq, Repr

namespace Range

/-- The word for a range. -/
def text : Range → String
  | .bool => "bool"
  | .int => "int"
  | .real => "real"

/-- The value that a fluent of this range holds when no default is declared. -/
def zero : Range → Value
  | .bool => .bool false
  | .int => .int 0
  | .real => .real 0.0

end Range

/-- The 64-bit integer equal to `n`, where there is one. -/
def int64? (n : Int) : Option Int64 :=
  if Int64.minValue.toInt ≤ n ∧ n ≤ Int64.maxValue.toInt then some (Int64.ofInt n) else none

/-- Whether a double is a whole number. -/
def isWhole (x : Float) : Bool :=
  match x.toModel.unpack with
  | .zero _ => true
  | .finite _ m q _ => decide (0 ≤ q) || decide (m % Nat.pow 2 (-q).toNat = 0)
  | _ => false

namespace Value

/-- The range that a value belongs to. -/
def range : Value → Range
  | .bool _ => .bool
  | .int _ => .int
  | .real _ => .real

/-- The truth value, of booleans only. -/
def truth? : Value → Option Bool
  | .bool b => some b
  | _ => none

/-- The integer of a boolean or an integer; a double never counts as one. -/
def int? : Value → Option Int64
  | .bool b => some (if b then 1 else 0)
  | .int n => some n
  | .real _ => none

/-- The double of a value, the nearest one to an integer. -/
def toReal : Value → Float
  | .bool b => if b then 1.0 else 0.0
  | .int n => Float.ofInt n.toInt
  | .real x => x

/-- Brings a value into a range.  Widening always succeeds; a whole double becomes an integer,
clamped to 64 bits; nothing else becomes an integer or a boolean. -/
def coerce : Value → Range → Option Value
  | .bool b, .bool => some (.bool b)
  | .bool b, .int => some (.int (if b then 1 else 0))
  | .int n, .int => some (.int n)
  | .real x, .int => if isWhole x then some (.int x.toModel.toInt64) else none
  | v, .real => some (.real v.toReal)
  | _, .bool => none

/-- Equality of values of the same range, by the order of the reals on doubles. -/
def same : Value → Value → Bool
  | .bool a, .bool b => a == b
  | .int a, .int b => a == b
  | .real x, .real y => x == y
  | _, _ => false

/-- The eight bytes that stand for the content of a value. -/
def payload : Value → List UInt8
  | .bool b => Bytes.littleEndian 8 (if b then 1 else 0)
  | .int n => Bytes.littleEndian 8 n.toUInt64.toNat
  | .real x => Bytes.littleEndian 8 x.toBits.toNat

/-- The byte that stands for the range of a value. -/
def tag : Value → UInt8
  | .bool _ => 0
  | .int _ => 1
  | .real _ => 2

/-- The nine bytes of a value: its range, then its content in little-endian order. -/
def bytes (v : Value) : List UInt8 :=
  v.tag :: v.payload

/-- The word for a truth value. -/
def boolText : Bool → String
  | true => "true"
  | false => "false"

/-- The text of a value in messages. -/
def text : Value → String
  | .bool b => boolText b
  | .int n => Decimal.intText n.toInt
  | .real x => Decimal.realText x

end Value
end LiftedPomdp
