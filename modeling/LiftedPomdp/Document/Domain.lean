import LiftedPomdp.Definition.Domain
import LiftedPomdp.Document.Expr

/-!
# Domains in documents

A domain and its declarations are written as records.  Lists may be left out where they are
empty; a default and constraints are written only where there are any.
-/

namespace LiftedPomdp

namespace FluentKind

/-- A kind of fluents is written as its word. -/
def toJson (k : FluentKind) : Json :=
  .str k.text

/-- Reads a kind of fluents. -/
def ofJson? (j : Json) : Option FluentKind :=
  Json.named? text all false j

end FluentKind

namespace FluentDecl

/-- A declaration of a fluent is written as a record. -/
def toJson (f : FluentDecl) : Json :=
  .obj ([("name", .str f.name), ("kind", f.kind.toJson), ("range", f.range.toJson),
      ("params", Json.strings f.params)] ++
    match f.default with
    | none => []
    | some v => [("default", v.toJson)])

/-- Reads a declaration of a fluent. -/
def ofJson? (j : Json) : Option FluentDecl := do
  let fields ← j.record ["name", "kind", "range", "params", "default"] 3
  let name ← Json.field fields "name" Json.str?
  let kind ← Json.field fields "kind" FluentKind.ofJson?
  let range ← Json.field fields "range" Range.ofJson?
  let params ← Json.fieldOr fields "params" [] (Json.list? Json.str?)
  let default ← Json.fieldOr fields "default" none (Json.nullable (Value.ofJson? false))
  return { name, kind, range, params, default }

end FluentDecl

namespace CpfDecl

/-- A conditional probability function is written as a record. -/
def toJson (c : CpfDecl) : Json :=
  .obj [("fluent", .str c.fluent), ("params", Json.strings c.params), ("expr", c.expr.toJson)]

/-- Reads a conditional probability function. -/
def ofJson? (j : Json) : Option CpfDecl := do
  let fields ← j.record ["fluent", "params", "expr"] 3
  let fluent ← Json.field fields "fluent" Json.str?
  let params ← Json.fieldOr fields "params" [] (Json.list? Json.str?)
  let expr ← Json.field fields "expr" Expr.ofJson?
  return { fluent, params, expr }

end CpfDecl

namespace Domain

/-- A domain is written as a record. -/
def toJson (d : Domain) : Json :=
  .obj ([("name", .str d.name), ("types", Json.strings d.types),
      ("pvariables", .arr (d.fluents.map FluentDecl.toJson)),
      ("cpfs", .arr (d.cpfs.map CpfDecl.toJson)), ("reward", d.reward.toJson)] ++
    match d.constraints with
    | [] => []
    | cs => [("state_action_constraints", .arr (Expr.toJsonAll cs))])

/-- Reads a domain. -/
def ofJson? (j : Json) : Option Domain := do
  let fields ← j.record
    ["name", "types", "pvariables", "cpfs", "reward", "state_action_constraints"] 5
  let name ← Json.field fields "name" Json.str?
  let types ← Json.fieldOr fields "types" [] (Json.list? Json.str?)
  let fluents ← Json.fieldOr fields "pvariables" [] (Json.list? FluentDecl.ofJson?)
  let cpfs ← Json.fieldOr fields "cpfs" [] (Json.list? CpfDecl.ofJson?)
  let reward ← Json.field fields "reward" Expr.ofJson?
  let constraints ←
    Json.fieldOr fields "state_action_constraints" [] (Json.list? Expr.ofJson?)
  return { name, types, fluents, cpfs, reward, constraints }

end Domain
end LiftedPomdp
