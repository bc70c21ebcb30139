import LiftedPomdp.Ground.Model

/-!
# Actions

An action assigns values to some ground action fluents; all others keep their defaults.  Resolving
an action checks it against a model and yields the table of all action fluents.
-/

namespace LiftedPomdp

/-- A ground action fluent with its value. -/
structure ActionAssignment where
  fluent : GroundFluent
  value : Value
  deriving DecidableEq, Repr

/-- An action. -/
structure Action where
  /-- The assignments, in the order in which they were made. -/
  assignments : List ActionAssignment
  deriving DecidableEq, Repr

namespace Action

/-- The action that does nothing. -/
def noop : Action :=
  { assignments := [] }

/-- Adds an assignment. -/
def set (a : Action) (name : String) (args : List String) (value : Value) : Action :=
  { assignments := a.assignments ++ [{ fluent := { name, args }, value }] }

/-- The number of assignments. -/
def size (a : Action) : Nat :=
  a.assignments.length

/-- The text of an action. -/
def text (a : Action) : String :=
  match a.assignments with
  | [] => "noop"
  | as => joinTexts ", " (as.map fun x => x.fluent.text ++ " = " ++ x.value.text)

/-- The ordinals of the objects that an action fluent is applied to. -/
def ordinals (types : Array ObjectType) (fluent : String) :
    List Nat → List String → Except ActionError (List Nat)
  | type :: ts, o :: os =>
    match types[type]? with
    | none => .error (.unknownObject fluent o "")
    | some t =>
      match t.ordinal? o with
      | none => .error (.unknownObject fluent o t.name)
      | some n => do
        let ns ← ordinals types fluent ts os
        return n :: ns
  | _, _ => .ok []

/-- The place and the value of an assignment in the table of actions. -/
def resolveOne (m : Model) (a : ActionAssignment) : Except ActionError (Nat × Value) :=
  let name := a.fluent.name
  match m.block? name with
  | none => .error (.unknownFluent name)
  | some b =>
    if b.kind ≠ .action then
      .error (.notAnAction name)
    else if b.params.length ≠ a.fluent.args.length then
      .error (.arityMismatch name b.params.length a.fluent.args.length)
    else do
      let ns ← ordinals m.types name b.params a.fluent.args
      match a.value.coerce b.range with
      | none => throw (.valueTypeMismatch name b.range a.value.range)
      | some v => return (b.index ns, v)

/-- Writes assignments into a table, refusing a place that has been written before. -/
def resolveAll (m : Model) (seen : List Nat) (table : Table) :
    List ActionAssignment → Except (Fault ActionError) Table
  | [] => .ok table
  | a :: as =>
    match resolveOne m a with
    | .error e => .error (.error e)
    | .ok (i, v) =>
      if seen.contains i then .error (.error (.duplicateAssignment a.fluent.text))
      else if h : i < table.size then resolveAll m (i :: seen) (table.set i v) as
      else .error (.abort (.outOfRange i))

/-- The number of places at which a table differs from the default action. -/
def nonDefaults (m : Model) (table : Table) : Nat :=
  (List.zip table.toList m.defaultAction.toList).countP fun p => !p.1.same p.2

/-- The table of an action, of which no more places than the model allows differ from their
defaults. -/
def resolve (m : Model) (a : Action) : Except (Fault ActionError) Table := do
  let table ← resolveAll m [] m.defaultAction a.assignments
  match m.maxNonDefaultActions with
  | none => return table
  | some max =>
    let actual := nonDefaults m table
    if max.toNat < actual then throw (.error (.tooManyNonDefault max.toNat actual))
    else return table

end Action
end LiftedPomdp
