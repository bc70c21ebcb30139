import LiftedPomdp.Document.Value
import LiftedPomdp.Random.Distribution

/-!
# Distributions in documents

A distribution is written as an object that starts with its kind and goes on with its parameters,
for instance `{"kind": "bernoulli", "p": 0.5}`.  It is also read from an array of the kind and the
parameters in order.  Parameters are not checked.
-/

namespace LiftedPomdp
namespace Distribution

/-- The name of the kind of a distribution. -/
def kindName : Distribution → String
  | .kronDelta _ => "kron_delta"
  | .diracDelta _ => "dirac_delta"
  | .bernoulli _ => "bernoulli"
  | .uniform _ _ => "uniform"

/-- The names of the parameters of each kind, in order. -/
def parameters : List (String × List String) :=
  [("kron_delta", ["value"]), ("dirac_delta", ["value"]), ("bernoulli", ["p"]),
    ("uniform", ["low", "high"])]

/-- The parameters of a distribution with their names. -/
def contentJson : Distribution → List (String × Json)
  | .kronDelta v => [("value", v.toJson)]
  | .diracDelta x => [("value", .real x)]
  | .bernoulli p => [("p", .real p)]
  | .uniform low high => [("low", .real low), ("high", .real high)]

/-- A distribution is written with its kind before its parameters. -/
def toJson (d : Distribution) : Json :=
  .obj (("kind", .str d.kindName) :: d.contentJson)

/-- Puts a distribution of a kind together from its parameters. -/
def assemble (kind : String) (fields : List (String × Json)) : Option Distribution :=
  match kind with
  | "kron_delta" => do return .kronDelta (← Json.field fields "value" (Value.ofJson? true))
  | "dirac_delta" => do return .diracDelta (← Json.field fields "value" Json.real?)
  | "bernoulli" => do return .bernoulli (← Json.field fields "p" Json.real?)
  | "uniform" => do
    let low ← Json.field fields "low" Json.real?
    let high ← Json.field fields "high" Json.real?
    return .uniform low high
  | _ => none

/-- Reads the kind and the parameters of a distribution. -/
def ofPart? : Json → Option Distribution
  | .obj members => do
    let kind ← (members.lookup "kind").bind Json.str?
    let names ← parameters.lookup kind
    let fields ← Json.record ("kind" :: names) 0 (.obj members)
    assemble kind fields
  | .arr (.str kind :: items) => do
    let names ← parameters.lookup kind
    let fields ← Json.record names names.length (.arr items)
    assemble kind fields
  | _ => none

/-- Reads a distribution.  All parts of its document must have a value, those that the distribution
makes no use of included. -/
def ofJson? (j : Json) : Option Distribution :=
  if j.isSound then ofPart? j else none

end Distribution
end LiftedPomdp
