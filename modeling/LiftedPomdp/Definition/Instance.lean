import LiftedPomdp.Value

/-!
# Instances

An instance of a domain lists the objects of each type, the values of non-fluents, the initial
state, and the parameters of an episode.
-/

namespace LiftedPomdp

/-- Some objects of one type, in order. -/
structure ObjectsDecl where
  typeName : String
  objects : List String
  deriving DecidableEq, Repr

/-- A value for a fluent applied to objects. -/
structure Assignment where
  /-- The name of the fluent. -/
  fluent : String
  /-- The objects that it is applied to. -/
  args : List String
  value : Value
  deriving DecidableEq, Repr

namespace Assignment

/-- Makes a boolean fluent true. -/
def holds (fluent : String) (args : List String) : Assignment :=
  { fluent, args, value := .bool true }

/-- Gives a real fluent its value. -/
def measures (fluent : String) (args : List String) (x : Float) : Assignment :=
  { fluent, args, value := .real x }

end Assignment

/-- An instance of a domain. -/
structure Instance where
  name : String
  /-- The name of the domain. -/
  domain : String
  objects : List ObjectsDecl
  /-- The non-fluents that differ from their defaults. -/
  nonFluents : List Assignment
  /-- The state fluents that start with another value than their defaults. -/
  initState : List Assignment
  /-- How many action fluents may differ from their defaults in one step, where that is limited. -/
  maxNonDefaultActions : Option UInt64
  /-- The number of steps of an episode. -/
  horizon : UInt32
  /-- The factor by which a later reward counts less. -/
  discount : Float
  deriving DecidableEq, Repr

end LiftedPomdp
