import LiftedPomdp.Document.Value
import LiftedPomdp.Run.Batch

/-!
# Actions, valuations and returns in documents

What goes into a run and what comes out of it is written as records.  An entry of a valuation is
an array of the ground fluent and its value.
-/

namespace LiftedPomdp

namespace GroundFluent

/-- A ground fluent is written as a record. -/
def toJson (g : GroundFluent) : Json :=
  .obj [("name", .str g.name), ("args", Json.strings g.args)]

/-- Reads a ground fluent. -/
def ofJson? (j : Json) : Option GroundFluent := do
  let fields ← j.record ["name", "args"] 1
  let name ← Json.field fields "name" Json.str?
  let args ← Json.fieldOr fields "args" [] (Json.list? Json.str?)
  return { name, args }

end GroundFluent

namespace Valuation

/-- An entry is written as an array of two. -/
def entryJson (e : GroundFluent × Value) : Json :=
  .arr [e.1.toJson, e.2.toJson]

/-- Reads an entry. -/
def entryOfJson? : Json → Option (GroundFluent × Value)
  | .arr [g, v] => do
    let g ← GroundFluent.ofJson? g
    let v ← Value.ofJson? false v
    return (g, v)
  | _ => none

/-- A valuation is written as a record. -/
def toJson (v : Valuation) : Json :=
  .obj [("entries", .arr (v.entries.map entryJson))]

/-- Reads a valuation. -/
def ofJson? (j : Json) : Option Valuation := do
  let fields ← j.record ["entries"] 1
  let entries ← Json.field fields "entries" (Json.list? entryOfJson?)
  return { entries }

end Valuation

namespace ActionAssignment

/-- An assignment of an action is written as a record. -/
def toJson (a : ActionAssignment) : Json :=
  .obj [("fluent", a.fluent.toJson), ("value", a.value.toJson)]

/-- Reads an assignment of an action. -/
def ofJson? (j : Json) : Option ActionAssignment := do
  let fields ← j.record ["fluent", "value"] 2
  let fluent ← Json.field fields "fluent" GroundFluent.ofJson?
  let value ← Json.field fields "value" (Value.ofJson? false)
  return { fluent, value }

end ActionAssignment

namespace Action

/-- An action is written as a record. -/
def toJson (a : Action) : Json :=
  .obj [("assignments", .arr (a.assignments.map ActionAssignment.toJson))]

/-- Reads an action. -/
def ofJson? (j : Json) : Option Action := do
  let fields ← j.record ["assignments"] 1
  let assignments ← Json.field fields "assignments" (Json.list? ActionAssignment.ofJson?)
  return { assignments }

end Action

namespace BatchSummary

/-- The returns of a batch are written as a record. -/
def toJson (s : BatchSummary) : Json :=
  .obj [("returns", .arr (s.returns.map .real)), ("mean", .real s.mean)]

/-- Reads the returns of a batch. -/
def ofJson? (j : Json) : Option BatchSummary := do
  let fields ← j.record ["returns", "mean"] 2
  let returns ← Json.field fields "returns" (Json.list? Json.real?)
  let mean ← Json.field fields "mean" Json.real?
  return { returns, mean }

end BatchSummary
end LiftedPomdp
