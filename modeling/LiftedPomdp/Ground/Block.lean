import LiftedPomdp.Definition.Domain

/-!
# Blocks of ground fluents

The values of all ground fluents of one kind form one table.  A fluent owns a block of consecutive
places of the table of its kind, one place for each tuple of objects, in row-major order: the last
argument runs fastest.
-/

namespace LiftedPomdp

/-- A table of the values of all ground fluents of one kind. -/
abbrev Table := Array Value

/-- A type with its objects in the order of declaration. -/
structure ObjectType where
  name : String
  objects : List String
  deriving DecidableEq, Repr

namespace ObjectType

/-- The number of objects. -/
def size (t : ObjectType) : Nat :=
  t.objects.length

/-- The place of an object in the order of declaration. -/
def ordinal? (t : ObjectType) (object : String) : Option Nat :=
  t.objects.idxOf? object

end ObjectType

/-- The sum of some counts. -/
def total (ns : List Nat) : Nat :=
  ns.foldr (· + ·) 0

/-- The number of tuples with so many values at each place. -/
def tupleCount (ns : List Nat) : Nat :=
  ns.foldr (· * ·) 1

/-- The distances between neighbouring values of each argument, given how many values each has. -/
def rowStrides : List Nat → List Nat
  | [] => []
  | _ :: ns => tupleCount ns :: rowStrides ns

/-- A number times the first of some numbers, times the first two, and so on. -/
def runningProducts (p : Nat) : List Nat → List Nat
  | [] => []
  | n :: ns => p * n :: runningProducts (p * n) ns

/-- The counts that come up when a block is laid out: the strides, which are found from the last
argument on, and the numbers of tuples of the first arguments.  Where an argument has no value,
they may be greater than the size of the block. -/
def layoutCounts (ns : List Nat) : List Nat :=
  rowStrides ns ++ runningProducts 1 ns

/-- A fluent with the block of its ground fluents. -/
structure FluentBlock where
  /-- The name of the fluent. -/
  name : String
  /-- What the fluent is for, which also tells the table. -/
  kind : FluentKind
  /-- The values that the fluent holds. -/
  range : Range
  /-- The types of the parameters, by number. -/
  params : List Nat
  /-- The value where nothing else is said. -/
  default : Value
  /-- The first place of the block. -/
  offset : Nat
  /-- The distance between neighbouring values of each argument. -/
  strides : List Nat
  /-- The number of places. -/
  size : Nat
  deriving DecidableEq, Repr

namespace FluentBlock

/-- The place of the ground fluent whose arguments have the given ordinals. -/
def index (b : FluentBlock) (ordinals : List Nat) : Nat :=
  b.offset + total (List.zipWith (· * ·) ordinals b.strides)

/-- The ordinals of the arguments at a distance from the start of a block with the given
strides. -/
def ordinalsAt : List Nat → Nat → List Nat
  | [], _ => []
  | s :: ss, n => n / s :: ordinalsAt ss (n % s)

/-- The ordinals of the arguments of the ground fluent at a place of the block, counted from its
start. -/
def ordinals (b : FluentBlock) (place : Nat) : List Nat :=
  ordinalsAt b.strides place

end FluentBlock
end LiftedPomdp
