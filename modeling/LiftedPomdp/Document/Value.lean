import LiftedPomdp.Json.Record
import LiftedPomdp.Value

/-!
# Values in documents

A value is written as a record of its range and its content, for instance
`{"type": "int", "value": 3}`.  It is also read from an array of the two, `["int", 3]`; there the
range is a tag, which an expression may give by its number.
-/

namespace LiftedPomdp

namespace Range

/-- The ranges, in the order in which they are declared. -/
def all : List Range :=
  [.bool, .int, .real]

/-- A range is written as its word. -/
def toJson (r : Range) : Json :=
  .str r.text

/-- Reads a range. -/
def ofJson? (j : Json) : Option Range :=
  Json.named? text all false j

end Range

namespace Value

/-- The content of a value without its range. -/
def contentJson : Value → Json
  | .bool b => .bool b
  | .int n => .int n.toInt
  | .real x => .real x

/-- A value is written with its range before its content. -/
def toJson (v : Value) : Json :=
  .obj [("type", .str v.range.text), ("value", v.contentJson)]

/-- Reads the content of a value of a known range. -/
def ofContent? (j : Json) : Range → Option Value
  | .bool => j.bool?.map .bool
  | .int => j.int64?.map .int
  | .real => j.real?.map .real

/-- Reads a value, in an expression or elsewhere. -/
def ofJson? (inExpression : Bool) : Json → Option Value
  | .obj members => do
    let fields ← Json.record ["type", "value"] 2 (.obj members)
    let range ← Json.field fields "type" (Json.named? Range.text Range.all inExpression)
    Json.field fields "value" fun content => ofContent? content range
  | .arr [tag, content] => do
    let range ← Json.tagged? Range.text Range.all inExpression tag
    ofContent? content range
  | _ => none

end Value
end LiftedPomdp
