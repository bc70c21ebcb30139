import LiftedPomdp.Error
import LiftedPomdp.Json.Record
import LiftedPomdp.Value

/-!
# Ground fluents and valuations

A ground fluent is a fluent applied to objects.  A valuation lists the values of ground fluents of
one kind in the canonical order: by the name of the fluent, then by the arguments in the order in
which the objects of each type are declared.
-/

namespace LiftedPomdp

/-- A fluent applied to objects. -/
structure GroundFluent where
  /-- The name of the fluent. -/
  name : String
  /-- The objects, in the order of the parameters. -/
  args : List String
  deriving DecidableEq, Repr

namespace GroundFluent

/-- The text of a ground fluent, for instance `at(a, b)`. -/
def text (g : GroundFluent) : String :=
  match g.args with
  | [] => g.name
  | args => g.name ++ "(" ++ joinTexts ", " args ++ ")"

end GroundFluent

/-- Values of ground fluents, in order. -/
structure Valuation where
  entries : List (GroundFluent × Value)
  deriving DecidableEq, Repr

namespace Valuation

/-- The value of a ground fluent, the first one if it is listed twice. -/
def get? (v : Valuation) (name : String) (args : List String) : Option Value :=
  v.entries.lookup { name, args }

/-- The truth value of a ground fluent that holds one. -/
def isTrue? (v : Valuation) (name : String) (args : List String) : Option Bool :=
  (v.get? name args).bind Value.truth?

/-- The ground fluents that are true. -/
def trueFluents (v : Valuation) : List GroundFluent :=
  (v.entries.filter fun e => e.2.same (.bool true)).map (·.1)

/-- The number of entries. -/
def size (v : Valuation) : Nat :=
  v.entries.length

/-- The text of a valuation. -/
def text (v : Valuation) : String :=
  "\x7b" ++ joinTexts ", " (v.entries.map fun e => e.1.text ++ " = " ++ e.2.text) ++ "\x7d"

end Valuation
end LiftedPomdp
