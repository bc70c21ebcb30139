import LiftedPomdp.Definition.Domain

/-!
# Compiled expressions

A compiled expression refers to fluents, types and objects by number and to variables by slot.
Slots hold the ordinals of the objects that variables stand for: the parameters of a conditional
probability function come first, and each aggregate takes the slots after those of its
surroundings.
-/

namespace LiftedPomdp

/-- The side of a transition on which a fluent is read. -/
inductive Layer where
  | current
  | next
  deriving DecidableEq, Repr

/-- An argument of a compiled fluent. -/
inductive Arg where
  /-- The object whose ordinal a slot holds. -/
  | slot (slot : Nat)
  /-- The object with a fixed ordinal. -/
  | object (ordinal : Nat)
  deriving DecidableEq, Repr

/-- A side of a comparison of objects. -/
structure ObjectRef where
  /-- The ordinal of the object. -/
  arg : Arg
  /-- The type of the object. -/
  type : Nat
  deriving DecidableEq, Repr

/-- A variable of a compiled aggregate. -/
structure Binder where
  /-- The slot of the variable. -/
  slot : Nat
  /-- The type that it ranges over. -/
  type : Nat
  deriving DecidableEq, Repr

/-- A compiled expression. -/
inductive Node where
  | const (value : Value)
  /-- The value of a fluent. -/
  | read (fluent : Nat) (kind : FluentKind) (layer : Layer) (args : List Arg)
  /-- Whether two objects are the same, or differ where `negate` holds. -/
  | sameObject (lhs rhs : ObjectRef) (negate : Bool)
  | not (arg : Node)
  | and (args : List Node)
  | or (args : List Node)
  | implies (lhs rhs : Node)
  | equiv (lhs rhs : Node)
  | compare (op : CompareOp) (lhs rhs : Node)
  | arith (op : ArithOp) (lhs rhs : Node)
  | neg (arg : Node)
  | ite (cond thenBranch elseBranch : Node)
  | aggregate (op : AggregateOp) (vars : List Binder) (body : Node)
  /-- The point mass on a value. -/
  | kronDelta (arg : Node)
  /-- The point mass on a real. -/
  | diracDelta (arg : Node)
  | bernoulli (p : Node)
  | uniform (low high : Node)

/-- A compiled expression with what its evaluation needs. -/
structure Compiled where
  /-- The expression. -/
  node : Node
  /-- How many slots it uses, those of the parameters included. -/
  slots : Nat
  /-- What errors call it. -/
  label : String

end LiftedPomdp
