import LiftedPomdp.Definition.Expr
import LiftedPomdp.Document.Value

/-!
# Expressions in documents

An expression is written as an object that starts with its kind and goes on with its fields, for
instance `{"kind": "not", "arg": …}`.  It is also read from an array of the kind and the fields in
order.  Below the root the kind may be given by its number.
-/

namespace LiftedPomdp

namespace Term

/-- A term is written as its text. -/
def toJson (t : Term) : Json :=
  .str t.text

/-- Reads a term. -/
def ofJson? (j : Json) : Option Term :=
  j.str?.map ofText

end Term

namespace TypedVar

/-- A typed variable is written as a record. -/
def toJson (v : TypedVar) : Json :=
  .obj [("var", .str v.var), ("type_name", .str v.typeName)]

/-- Reads a typed variable. -/
def ofJson? (j : Json) : Option TypedVar := do
  let fields ← j.record ["var", "type_name"] 2
  let var ← Json.field fields "var" Json.str?
  let typeName ← Json.field fields "type_name" Json.str?
  return { var, typeName }

end TypedVar

namespace ExprKind

/-- The names of the fields of an expression, in order. -/
def fields : ExprKind → List String
  | .const => ["value"]
  | .fluent => ["name", "args", "next"]
  | .term => ["term"]
  | .not => ["arg"]
  | .and => ["args"]
  | .or => ["args"]
  | .implies => ["lhs", "rhs"]
  | .equiv => ["lhs", "rhs"]
  | .compare => ["op", "lhs", "rhs"]
  | .arith => ["op", "lhs", "rhs"]
  | .neg => ["arg"]
  | .ite => ["cond", "then", "otherwise"]
  | .aggregate => ["op", "vars", "body"]
  | .kronDelta => ["arg"]
  | .diracDelta => ["arg"]
  | .bernoulli => ["p"]
  | .uniform => ["low", "high"]

/-- How many of the fields an array must give; the others have defaults. -/
def needed : ExprKind → Nat
  | .fluent => 1
  | k => k.fields.length

/-- Reads a kind; its number is understood below the root only. -/
def ofJson? (root : Bool) (j : Json) : Option ExprKind :=
  Json.tagged? name all (!root) j

end ExprKind

namespace Expr

mutual

/-- An expression is written with its kind before its fields. -/
def toJson : Expr → Json
  | .const v => .obj [("kind", .str "const"), ("value", v.toJson)]
  | .fluent f args next =>
    .obj [("kind", .str "fluent"), ("name", .str f), ("args", .arr (args.map Term.toJson)),
      ("next", .bool next)]
  | .term t => .obj [("kind", .str "term"), ("term", t.toJson)]
  | .not a => .obj [("kind", .str "not"), ("arg", toJson a)]
  | .and as => .obj [("kind", .str "and"), ("args", .arr (toJsonAll as))]
  | .or as => .obj [("kind", .str "or"), ("args", .arr (toJsonAll as))]
  | .implies l r => .obj [("kind", .str "implies"), ("lhs", toJson l), ("rhs", toJson r)]
  | .equiv l r => .obj [("kind", .str "equiv"), ("lhs", toJson l), ("rhs", toJson r)]
  | .compare op l r =>
    .obj [("kind", .str "compare"), ("op", .str op.name), ("lhs", toJson l), ("rhs", toJson r)]
  | .arith op l r =>
    .obj [("kind", .str "arith"), ("op", .str op.name), ("lhs", toJson l), ("rhs", toJson r)]
  | .neg a => .obj [("kind", .str "neg"), ("arg", toJson a)]
  | .ite c t e =>
    .obj [("kind", .str "if"), ("cond", toJson c), ("then", toJson t), ("otherwise", toJson e)]
  | .aggregate op vars body =>
    .obj [("kind", .str "aggregate"), ("op", .str op.name),
      ("vars", .arr (vars.map TypedVar.toJson)), ("body", toJson body)]
  | .kronDelta a => .obj [("kind", .str "kron_delta"), ("arg", toJson a)]
  | .diracDelta a => .obj [("kind", .str "dirac_delta"), ("arg", toJson a)]
  | .bernoulli p => .obj [("kind", .str "bernoulli"), ("p", toJson p)]
  | .uniform l h => .obj [("kind", .str "uniform"), ("low", toJson l), ("high", toJson h)]

/-- Several expressions. -/
def toJsonAll : List Expr → List Json
  | [] => []
  | e :: es => toJson e :: toJsonAll es

end

/-- What a reader of an expression finds under the name of a field. -/
structure Found where
  /-- The document. -/
  raw : String → Option Json
  /-- The expression that the document spells. -/
  expr : String → Option Expr
  /-- The expressions that the items of the document spell. -/
  exprs : String → Option (List Expr)

/-- Puts an expression of a kind together from its fields. -/
def assemble (found : Found) : ExprKind → Option Expr
  | .const => do return .const (← (found.raw "value").bind (Value.ofJson? true))
  | .fluent => do
    let name ← (found.raw "name").bind Json.str?
    let args ← match found.raw "args" with
      | none => some []
      | some j => Json.list? Term.ofJson? j
    let next ← match found.raw "next" with
      | none => some false
      | some j => j.bool?
    return .fluent name args next
  | .term => do return .term (← (found.raw "term").bind Term.ofJson?)
  | .not => do return .not (← found.expr "arg")
  | .and => do return .and (← found.exprs "args")
  | .or => do return .or (← found.exprs "args")
  | .implies => do return .implies (← found.expr "lhs") (← found.expr "rhs")
  | .equiv => do return .equiv (← found.expr "lhs") (← found.expr "rhs")
  | .compare => do
    let op ← (found.raw "op").bind (Json.named? CompareOp.name CompareOp.all true)
    return .compare op (← found.expr "lhs") (← found.expr "rhs")
  | .arith => do
    let op ← (found.raw "op").bind (Json.named? ArithOp.name ArithOp.all true)
    return .arith op (← found.expr "lhs") (← found.expr "rhs")
  | .neg => do return .neg (← found.expr "arg")
  | .ite => do return .ite (← found.expr "cond") (← found.expr "then") (← found.expr "otherwise")
  | .aggregate => do
    let op ← (found.raw "op").bind (Json.named? AggregateOp.name AggregateOp.all true)
    let vars ← (found.raw "vars").bind (Json.list? TypedVar.ofJson?)
    return .aggregate op vars (← found.expr "body")
  | .kronDelta => do return .kronDelta (← found.expr "arg")
  | .diracDelta => do return .diracDelta (← found.expr "arg")
  | .bernoulli => do return .bernoulli (← found.expr "p")
  | .uniform => do return .uniform (← found.expr "low") (← found.expr "high")

/-- The kind that the members of an object give, provided that neither it nor a field of that kind
is given twice. -/
def kindOfMembers? (root : Bool) (members : List (String × Json)) : Option ExprKind :=
  match members.lookup "kind" with
  | none => none
  | some j =>
    match ExprKind.ofJson? root j with
    | none => none
    | some k =>
      if Json.distinctKeys (Json.knownMembers ("kind" :: k.fields) members) then some k else none

/-- The kind that an array starts with, provided that the number of fields after it is right. -/
def kindOfItems? (root : Bool) : List Json → Option ExprKind
  | [] => none
  | j :: rest =>
    match ExprKind.ofJson? root j with
    | none => none
    | some k =>
      if k.needed ≤ rest.length ∧ rest.length ≤ k.fields.length then some k else none

mutual

/-- Puts an expression together, at the root or below it. -/
def ofPart? (root : Bool) : Json → Option Expr
  | .obj members =>
    match kindOfMembers? root members with
    | none => none
    | some k =>
      assemble
        { raw := fun name => members.lookup name
          expr := fun name => ofMember? name members
          exprs := fun name => ofMemberItems? name members } k
  | .arr items =>
    match kindOfItems? root items with
    | none => none
    | some k =>
      let place := fun name => k.fields.idxOf name + 1
      assemble
        { raw := fun name => items[place name]?
          expr := fun name => ofItem? (place name) items
          exprs := fun name => ofItemItems? (place name) items } k
  | _ => none

/-- Reads the expression under a key. -/
def ofMember? (name : String) : List (String × Json) → Option Expr
  | [] => none
  | (k, j) :: ms => if name == k then ofPart? false j else ofMember? name ms

/-- Reads the expressions in the array under a key. -/
def ofMemberItems? (name : String) : List (String × Json) → Option (List Expr)
  | [] => none
  | (k, j) :: ms => if name == k then listOfJson? j else ofMemberItems? name ms

/-- Reads the expression at a place of an array. -/
def ofItem? (place : Nat) : List Json → Option Expr
  | [] => none
  | j :: js =>
    match place with
    | 0 => ofPart? false j
    | n + 1 => ofItem? n js

/-- Reads the expressions in the array at a place of an array. -/
def ofItemItems? (place : Nat) : List Json → Option (List Expr)
  | [] => none
  | j :: js =>
    match place with
    | 0 => listOfJson? j
    | n + 1 => ofItemItems? n js

/-- Reads the expressions in an array. -/
def listOfJson? : Json → Option (List Expr)
  | .arr items => allOfJson? items
  | _ => none

/-- Reads an expression from each document. -/
def allOfJson? : List Json → Option (List Expr)
  | [] => some []
  | j :: js =>
    match ofPart? false j, allOfJson? js with
    | some e, some es => some (e :: es)
    | _, _ => none

end

/-- Reads an expression.  All parts of its document must have a value, those that the expression
makes no use of included. -/
def ofJson? (j : Json) : Option Expr :=
  if j.isSound then ofPart? true j else none

end Expr
end LiftedPomdp
