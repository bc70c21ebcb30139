import LiftedPomdp.Ground.Compile
import LiftedPomdp.Ground.Fluent

/-!
# Ground models

A ground model is a domain expanded over the objects of an instance: the block of every fluent, the
tables of values that do not change, and all expressions compiled.  It does not change while
episodes run.
-/

namespace LiftedPomdp

/-- A compiled conditional probability function. -/
structure Cpf where
  /-- The number of the fluent. -/
  target : Nat
  /-- The expression. -/
  body : Compiled

/-- A ground model. -/
structure Model where
  domainName : String
  instanceName : String
  /-- The types, in the order of declaration. -/
  types : Array ObjectType
  /-- The fluents, sorted by name. -/
  blocks : Array FluentBlock
  /-- The values of the non-fluents. -/
  nonFluents : Table
  /-- The state that an episode starts in. -/
  initialState : Table
  /-- The action that does nothing. -/
  defaultAction : Table
  /-- The observation before the first step. -/
  defaultObservation : Table
  /-- The functions of the state fluents, sorted by name. -/
  stateCpfs : List Cpf
  /-- The functions of the observation fluents, each after those that it reads. -/
  observationCpfs : List Cpf
  /-- The reward of a step. -/
  reward : Compiled
  /-- The constraints on actions. -/
  constraints : List Compiled
  /-- The number of steps of an episode. -/
  horizon : UInt32
  /-- The factor by which a later reward counts less. -/
  discount : Float
  /-- How many action fluents may differ from their defaults in one step. -/
  maxNonDefaultActions : Option UInt64
  /-- The hash of the definitions. -/
  fingerprint : List UInt8

namespace Model

/-- The fluent of a name. -/
def block? (m : Model) (name : String) : Option FluentBlock :=
  m.blocks.find? fun b => b.name == name

/-- The type of a name. -/
def type? (m : Model) (name : String) : Option ObjectType :=
  m.types.find? fun t => t.name == name

/-- The name of the fluent with a number. -/
def fluentName (m : Model) (fluent : Nat) : String :=
  match m.blocks[fluent]? with
  | some b => b.name
  | none => ""

/-- The fluents of one kind, in the order of their blocks. -/
def blocksOf (m : Model) (kind : FluentKind) : List FluentBlock :=
  m.blocks.toList.filter fun b => b.kind == kind

/-- The number of ground fluents of one kind. -/
def groundCount (m : Model) (kind : FluentKind) : Nat :=
  total ((m.blocksOf kind).map (·.size))

/-- The objects with the given ordinals in the given types. -/
def objectNames (m : Model) : List Nat → List Nat → List String
  | type :: types, o :: os =>
    let name := (m.types[type]?).bind fun t => t.objects[o]?
    name.getD "" :: m.objectNames types os
  | _, _ => []

/-- The ground fluent at a place of a block, counted from its start. -/
def groundFluent (m : Model) (b : FluentBlock) (place : Nat) : GroundFluent :=
  { name := b.name, args := m.objectNames b.params (b.ordinals place) }

/-- The ground fluents of a block, in order. -/
def groundFluentsOf (m : Model) (b : FluentBlock) : List GroundFluent :=
  (List.range b.size).map (m.groundFluent b)

/-- The ground fluents of one kind, in the order of their table. -/
def groundFluents (m : Model) (kind : FluentKind) : List GroundFluent :=
  (m.blocksOf kind).flatMap m.groundFluentsOf

/-- The values of a table with their ground fluents. -/
def describe (m : Model) (kind : FluentKind) (table : Table) : Valuation :=
  { entries := (m.groundFluents kind).zip table.toList }

/-- The ordinals of some objects in the given types. -/
def ordinals? (m : Model) : List Nat → List String → Option (List Nat)
  | [], [] => some []
  | type :: types, o :: os => do
    let t ← m.types[type]?
    let n ← t.ordinal? o
    let ns ← m.ordinals? types os
    return n :: ns
  | _, _ => none

/-- The table and the place in it of a ground fluent. -/
def locate? (m : Model) (name : String) (args : List String) : Option (FluentKind × Nat) := do
  let b ← m.block? name
  let ordinals ← m.ordinals? b.params args
  return (b.kind, b.index ordinals)

/-- The value of a ground fluent in a table of one kind. -/
def lookup? (m : Model) (kind : FluentKind) (table : Table) (name : String)
    (args : List String) : Option Value :=
  match m.locate? name args with
  | some (k, i) => if k = kind then table[i]? else none
  | none => none

/-- The value of a ground non-fluent. -/
def nonFluent? (m : Model) (name : String) (args : List String) : Option Value :=
  m.lookup? .nonFluent m.nonFluents name args

/-- The values of all ground non-fluents. -/
def nonFluentValues (m : Model) : Valuation :=
  m.describe .nonFluent m.nonFluents

/-- The values of all ground state fluents at the start of an episode. -/
def initialValues (m : Model) : Valuation :=
  m.describe .state m.initialState

/-- All compiled expressions. -/
def expressions (m : Model) : List Compiled :=
  m.stateCpfs.map (·.body) ++ m.observationCpfs.map (·.body) ++ m.reward :: m.constraints

/-- The greatest number of slots that an expression uses. -/
def maxSlots (m : Model) : Nat :=
  (m.expressions.map (·.slots)).foldr max 0

end Model
end LiftedPomdp
