import LiftedPomdp.Definition.Instance
import LiftedPomdp.Error

/-!
# Well-formed definitions

What can be checked of a definition without its counterpart: that names are identifiers, that
nothing is declared twice, and that the parameters of an episode make sense.  The first violation
in the order of the declarations is reported.
-/

namespace LiftedPomdp

/-- The letters that an identifier starts with. -/
def isNameStart (c : Char) : Bool :=
  ('a' ≤ c && c ≤ 'z') || ('A' ≤ c && c ≤ 'Z')

/-- The characters that an identifier goes on with. -/
def isNamePart (c : Char) : Bool :=
  isNameStart c || ('0' ≤ c && c ≤ '9') || c == '_' || c == '-'

/-- An identifier is a letter followed by letters, digits, underscores and hyphens, all of them
ASCII. -/
def isIdentifier (s : String) : Bool :=
  match s.toList with
  | [] => false
  | c :: cs => isNameStart c && cs.all isNamePart

/-- The first element that occurred before. -/
def firstRepeated? (seen : List String) : List String → Option String
  | [] => none
  | s :: ss => if seen.contains s then some s else firstRepeated? (s :: seen) ss

/-- Whether a double lies in the closed unit interval. -/
def inUnitInterval (x : Float) : Bool :=
  decide (0.0 ≤ x) && decide (x ≤ 1.0)

namespace Domain

/-- A name must be an identifier. -/
def checkIdentifier (name : String) : Except ModelError Unit :=
  if isIdentifier name then .ok () else .error (.invalidIdentifier name)

/-- The names of one kind of declaration must differ. -/
def checkDistinct (kind : String) (names : List String) : Except ModelError Unit :=
  match firstRepeated? [] names with
  | none => .ok ()
  | some name => .error (.duplicate kind name)

/-- The names that an expression uses at its root. -/
def rootNames : Expr → List String
  | .fluent f args _ => f :: args.map Term.name
  | .term t => [t.name]
  | .aggregate _ vars _ => vars.flatMap fun v => [v.var, v.typeName]
  | _ => []

/-- All names in an expression must be identifiers. -/
def checkExpr (e : Expr) : Except ModelError Unit :=
  e.parts.forM fun p => (rootNames p).forM checkIdentifier

/-- The names in a declaration of a fluent must be identifiers. -/
def checkFluent (f : FluentDecl) : Except ModelError Unit := do
  checkIdentifier f.name
  f.params.forM checkIdentifier

/-- The names in a conditional probability function must be identifiers, and its parameters must
differ. -/
def checkCpf (c : CpfDecl) : Except ModelError Unit := do
  checkIdentifier c.fluent
  c.params.forM checkIdentifier
  checkDistinct "CPF parameter" c.params
  checkExpr c.expr

/-- All names of a domain must be identifiers, and nothing may be declared twice. -/
def validate (d : Domain) : Except ModelError Unit := do
  checkIdentifier d.name
  d.types.forM checkIdentifier
  checkDistinct "type" d.types
  d.fluents.forM checkFluent
  checkDistinct "pvariable" (d.fluents.map (·.name))
  d.cpfs.forM checkCpf
  checkDistinct "CPF" (d.cpfs.map (·.fluent))
  checkExpr d.reward
  d.constraints.forM checkExpr

end Domain

namespace Instance

/-- Objects must be identifiers and differ, whatever their types. -/
def checkObjects (seen : List String) : List String → Except InstantiationError Unit
  | [] => .ok ()
  | o :: os =>
    if !isIdentifier o then .error (.invalidObjectName o)
    else if seen.contains o then .error (.duplicateObject o)
    else checkObjects (o :: seen) os

/-- An episode has at least one step, the discount lies in the unit interval, and objects are
named apart. -/
def validate (i : Instance) : Except InstantiationError Unit := do
  if i.horizon = 0 then throw .invalidHorizon
  if !inUnitInterval i.discount then throw (.invalidDiscount i.discount)
  checkObjects [] (i.objects.flatMap (·.objects))

end Instance
end LiftedPomdp
