import LiftedPomdp.Definition.Expr

/-!
# Domains

A domain declares types, fluents over them, one conditional probability function for every state
and observation fluent, a reward, and constraints on the actions that a state admits.
-/

namespace LiftedPomdp

/-- What a fluent is for. -/
inductive FluentKind where
  /-- A constant of an instance. -/
  | nonFluent
  /-- A part of the hidden state. -/
  | state
  /-- A part of what the agent sees. -/
  | observation
  /-- A part of what the agent does. -/
  | action
  deriving DecidableEq, Repr

namespace FluentKind

/-- All kinds of fluents. -/
def all : List FluentKind :=
  [.nonFluent, .state, .observation, .action]

/-- The word for a kind of fluent, which is also its name in documents. -/
def text : FluentKind → String
  | .nonFluent => "non-fluent"
  | .state => "state-fluent"
  | .observation => "observ-fluent"
  | .action => "action-fluent"

/-- Whether fluents of this kind are computed by a conditional probability function. -/
def isComputed : FluentKind → Bool
  | .state | .observation => true
  | .nonFluent | .action => false

end FluentKind

/-- The declaration of a fluent. -/
structure FluentDecl where
  name : String
  /-- What the fluent is for. -/
  kind : FluentKind
  /-- The values that it holds. -/
  range : Range
  /-- The types of its parameters. -/
  params : List String
  /-- The value that it holds where nothing else is said. -/
  default : Option Value
  deriving DecidableEq, Repr

/-- The conditional probability function of a fluent. -/
structure CpfDecl where
  /-- The name of the fluent. -/
  fluent : String
  /-- The variables that stand for its arguments. -/
  params : List String
  /-- The distribution of its next value. -/
  expr : Expr

/-- A domain. -/
structure Domain where
  name : String
  /-- The types of objects. -/
  types : List String
  fluents : List FluentDecl
  /-- The conditional probability functions. -/
  cpfs : List CpfDecl
  /-- The reward of a step. -/
  reward : Expr
  /-- The conditions under which an action is admitted. -/
  constraints : List Expr

namespace FluentDecl

/-- A non-fluent with a default. -/
def nonFluent (name : String) (range : Range) (params : List String) (default : Value) :
    FluentDecl :=
  { name, kind := .nonFluent, range, params, default := some default }

/-- A state fluent with its initial value. -/
def state (name : String) (range : Range) (params : List String) (default : Value) : FluentDecl :=
  { name, kind := .state, range, params, default := some default }

/-- An observation fluent. -/
def observation (name : String) (range : Range) (params : List String) : FluentDecl :=
  { name, kind := .observation, range, params, default := none }

/-- An action fluent with the value that means doing nothing. -/
def action (name : String) (range : Range) (params : List String) (default : Value) :
    FluentDecl :=
  { name, kind := .action, range, params, default := some default }

end FluentDecl

namespace CpfDecl

/-- A conditional probability function whose parameters may be given with question marks. -/
def ofTexts (fluent : String) (params : List String) (expr : Expr) : CpfDecl :=
  { fluent, params := params.map withoutMark, expr }

end CpfDecl

namespace Domain

/-- The declaration of the fluent with the given name. -/
def fluent? (d : Domain) (name : String) : Option FluentDecl :=
  d.fluents.find? fun f => f.name == name

/-- All expressions of a domain: those of the conditional probability functions, the reward, and
the constraints. -/
def exprs (d : Domain) : List Expr :=
  d.cpfs.map (·.expr) ++ d.reward :: d.constraints

end Domain
end LiftedPomdp
