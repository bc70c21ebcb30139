import LiftedPomdp.Definition.Instance
import LiftedPomdp.Document.Value

/-!
# Instances in documents

An instance and its declarations are written as records.  Lists may be left out where they are
empty, and the bound on actions where there is none.
-/

namespace LiftedPomdp

namespace ObjectsDecl

/-- A list of objects is written as a record. -/
def toJson (o : ObjectsDecl) : Json :=
  .obj [("type_name", .str o.typeName), ("objects", Json.strings o.objects)]

/-- Reads a list of objects. -/
def ofJson? (j : Json) : Option ObjectsDecl := do
  let fields ← j.record ["type_name", "objects"] 2
  let typeName ← Json.field fields "type_name" Json.str?
  let objects ← Json.field fields "objects" (Json.list? Json.str?)
  return { typeName, objects }

end ObjectsDecl

namespace Assignment

/-- An assignment is written as a record. -/
def toJson (a : Assignment) : Json :=
  .obj [("fluent", .str a.fluent), ("args", Json.strings a.args), ("value", a.value.toJson)]

/-- Reads an assignment. -/
def ofJson? (j : Json) : Option Assignment := do
  let fields ← j.record ["fluent", "args", "value"] 3
  let fluent ← Json.field fields "fluent" Json.str?
  let args ← Json.fieldOr fields "args" [] (Json.list? Json.str?)
  let value ← Json.field fields "value" (Value.ofJson? false)
  return { fluent, args, value }

end Assignment

namespace Instance

/-- An instance is written as a record. -/
def toJson (i : Instance) : Json :=
  .obj [("name", .str i.name), ("domain", .str i.domain),
    ("objects", .arr (i.objects.map ObjectsDecl.toJson)),
    ("non_fluents", .arr (i.nonFluents.map Assignment.toJson)),
    ("init_state", .arr (i.initState.map Assignment.toJson)),
    ("max_nondef_actions", Json.ofOption (fun n => .int n.toNat) i.maxNonDefaultActions),
    ("horizon", .int i.horizon.toNat), ("discount", .real i.discount)]

/-- Reads an instance. -/
def ofJson? (j : Json) : Option Instance := do
  let fields ← j.record
    ["name", "domain", "objects", "non_fluents", "init_state", "max_nondef_actions", "horizon",
      "discount"] 8
  let name ← Json.field fields "name" Json.str?
  let domain ← Json.field fields "domain" Json.str?
  let objects ← Json.fieldOr fields "objects" [] (Json.list? ObjectsDecl.ofJson?)
  let nonFluents ← Json.fieldOr fields "non_fluents" [] (Json.list? Assignment.ofJson?)
  let initState ← Json.fieldOr fields "init_state" [] (Json.list? Assignment.ofJson?)
  let maxNonDefaultActions ←
    Json.fieldOr fields "max_nondef_actions" none (Json.nullable Json.uint64?)
  let horizon ← Json.field fields "horizon" Json.uint32?
  let discount ← Json.field fields "discount" Json.real?
  return { name, domain, objects, nonFluents, initState, maxNonDefaultActions, horizon, discount }

end Instance
end LiftedPomdp
