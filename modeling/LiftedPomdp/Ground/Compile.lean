import LiftedPomdp.Error
import LiftedPomdp.Ground.Block
import LiftedPomdp.Ground.Node

/-!
# Compilation of expressions

Compilation resolves every name of an expression and checks that it is used as declared: fluents
have the right number of arguments, variables are bound and of the right type, objects belong to
the types of their parameters, and every fluent may be read where it is.

The variables in scope form a stack, the innermost first.  The slot of a variable is the number of
variables below it, so that parameters come first and the slots of a finished aggregate are free
again.
-/

namespace LiftedPomdp

/-- The place of an expression in a domain, which decides what it may read. -/
inductive Site where
  /-- The function of a state fluent. -/
  | stateCpf (target : Nat)
  /-- The function of an observation fluent. -/
  | observationCpf (target : Nat)
  | reward
  | constraint
  deriving DecidableEq, Repr

/-- What names are resolved against. -/
structure Scope where
  types : Array ObjectType
  blocks : Array FluentBlock

namespace Scope

/-- The number of a type. -/
def type? (s : Scope) (name : String) : Option Nat :=
  s.types.findIdx? fun t => t.name == name

/-- The number of a fluent. -/
def fluent? (s : Scope) (name : String) : Option Nat :=
  s.blocks.findIdx? fun b => b.name == name

/-- The name of a type. -/
def typeName (s : Scope) (type : Nat) : String :=
  match s.types[type]? with
  | some t => t.name
  | none => ""

/-- The place of an object in a type. -/
def ordinal? (s : Scope) (type : Nat) (object : String) : Option Nat :=
  (s.types[type]?).bind fun t => t.ordinal? object

/-- The first of some types that has an object, and the place of the object in it; the types are
numbered from `type` on. -/
def objectAmong? (object : String) (type : Nat) : List ObjectType → Option (Nat × Nat)
  | [] => none
  | t :: ts =>
    match t.ordinal? object with
    | some o => some (type, o)
    | none => objectAmong? object (type + 1) ts

/-- The type that has an object, and the place of the object in it. -/
def object? (s : Scope) (object : String) : Option (Nat × Nat) :=
  objectAmong? object 0 s.types.toList

end Scope

/-- A variable in scope. -/
structure Binding where
  name : String
  /-- The number of its type. -/
  type : Nat
  deriving DecidableEq, Repr

namespace Binding

/-- The slot and the type of the innermost variable of a name. -/
def find? (name : String) : List Binding → Option (Nat × Nat)
  | [] => none
  | b :: bs => if b.name == name then some (bs.length, b.type) else find? name bs

end Binding

/-- What a compiled expression has been found to use. -/
structure Footprint where
  /-- The number of slots. -/
  slots : Nat
  /-- The observation fluents that the function of an observation reads, in order. -/
  reads : List Nat
  deriving DecidableEq, Repr

namespace Footprint

/-- Adds a number to an ascending list. -/
def insert (n : Nat) : List Nat → List Nat
  | [] => [n]
  | m :: ms => if n < m then n :: m :: ms else if n = m then m :: ms else m :: insert n ms

/-- Notes that a number of slots is in use. -/
def useSlots (n : Nat) (f : Footprint) : Footprint :=
  { f with slots := max f.slots n }

/-- Notes that an observation fluent is read. -/
def useObservation (fluent : Nat) (f : Footprint) : Footprint :=
  { f with reads := insert fluent f.reads }

end Footprint

/-- A compilation that fails or adds to a footprint. -/
abbrev Compilation := StateT Footprint (Except ModelError)

/-- What stays the same throughout the compilation of one expression. -/
structure Compiler where
  /-- What names are resolved against. -/
  scope : Scope
  /-- The place of the expression. -/
  site : Site
  /-- What errors call the expression. -/
  label : String

namespace Compiler

/-- An ill-formed expression. -/
def invalid {α : Type} (c : Compiler) (reason : Malformation) : Compilation α :=
  throw (.invalidExpression c.label reason)

/-- A fluent that may not be read here. -/
def illegal {α : Type} (c : Compiler) (b : FluentBlock) (reason : ReadRule) : Compilation α :=
  throw (.illegalReference b.name c.label reason)

/-- The slot and the type of a variable. -/
def lookup (c : Compiler) (bound : List Binding) (name : String) : Compilation (Nat × Nat) :=
  match Binding.find? name bound with
  | some found => pure found
  | none => throw (.unboundVariable ("?" ++ name) c.label)

/-- A side of a comparison of objects. -/
def objectRef (c : Compiler) (bound : List Binding) : Term → Compilation ObjectRef
  | .var v => do
    let (slot, type) ← c.lookup bound v
    return { arg := .slot slot, type }
  | .object o =>
    match c.scope.object? o with
    | some (type, ordinal) => pure { arg := .object ordinal, type }
    | none => c.invalid (.unknownObject o)

/-- Whether a fluent may be read here, and on which side of the transition it is then read. -/
def checkRead (c : Compiler) (fluent : Nat) (b : FluentBlock) (next : Bool) : Compilation Layer :=
  match b.kind, next, c.site with
  | .nonFluent, true, _ => c.illegal b .noNextValue
  | .nonFluent, false, _ => pure .current
  | .action, true, _ => c.illegal b .noNextValue
  | .action, false, _ => pure .current
  | .state, false, _ => pure .current
  | .state, true, .observationCpf _ => pure .next
  | .state, true, .stateCpf target =>
    c.illegal b (if target = fluent then .ownNextValue else .snapshotOnly)
  | .state, true, .reward => c.illegal b .currentOnly
  | .state, true, .constraint => c.illegal b .currentOnly
  | .observation, _, .observationCpf target =>
    if target = fluent then c.illegal b .ownObservation
    else do
      modify (Footprint.useObservation fluent)
      return .next
  | .observation, _, _ => c.illegal b .observationHidden

/-- An argument of a fluent for a parameter of the given type. -/
def argument (c : Compiler) (bound : List Binding) (b : FluentBlock) (type : Nat) :
    Term → Compilation Arg
  | .var v => do
    let (slot, actual) ← c.lookup bound v
    if actual = type then
      return .slot slot
    else
      throw (.variableTypeMismatch ("?" ++ v) b.name (c.scope.typeName type)
        (c.scope.typeName actual))
  | .object o =>
    match c.scope.ordinal? type o with
    | some ordinal => pure (.object ordinal)
    | none => throw (.objectOutOfDomain b.name o (c.scope.typeName type))

/-- The arguments of a fluent. -/
def arguments (c : Compiler) (bound : List Binding) (b : FluentBlock) :
    List Nat → List Term → Compilation (List Arg)
  | type :: types, t :: ts => do
    let arg ← c.argument bound b type t
    let rest ← c.arguments bound b types ts
    return arg :: rest
  | _, _ => pure []

/-- The value of a fluent. -/
def read (c : Compiler) (bound : List Binding) (name : String) (args : List Term) (next : Bool) :
    Compilation Node :=
  match c.scope.fluent? name with
  | none => throw (.unknownFluent name c.label)
  | some fluent =>
    match c.scope.blocks[fluent]? with
    | none => throw (.unknownFluent name c.label)
    | some b =>
      if b.params.length ≠ args.length then
        throw (.arityMismatch b.name b.params.length args.length)
      else do
        let layer ← c.checkRead fluent b next
        let args ← c.arguments bound b b.params args
        return .read fluent b.kind layer args

/-- Brings the variables of an aggregate into scope. -/
def bind (c : Compiler) (bound : List Binding) :
    List TypedVar → Compilation (List Binder × List Binding)
  | [] => pure ([], bound)
  | v :: vs =>
    match c.scope.type? v.typeName with
    | none => throw (.unknownType v.typeName c.label)
    | some type => do
      modify (Footprint.useSlots (bound.length + 1))
      let (binders, bound') ← c.bind ({ name := v.var, type } :: bound) vs
      return ({ slot := bound.length, type } :: binders, bound')

/-- The two terms that a comparison of objects is made of. -/
def termPair? : Expr → Expr → Option (Term × Term)
  | .term l, .term r => some (l, r)
  | _, _ => none

/-- A comparison of objects, which must be one for equality. -/
def compareObjects (c : Compiler) (bound : List Binding) (op : CompareOp) (l r : Term) :
    Compilation Node := do
  let negate ← match op with
    | .eq => pure false
    | .neq => pure true
    | _ => c.invalid .orderedObjects
  let lhs ← c.objectRef bound l
  let rhs ← c.objectRef bound r
  return .sameObject lhs rhs negate

mutual

/-- Compiles an expression under the variables in scope. -/
def lower (c : Compiler) (bound : List Binding) : Expr → Compilation Node
  | .const v => pure (.const v)
  | .fluent name args next => c.read bound name args next
  | .term t => c.invalid (.strayTerm t)
  | .not a => do return .not (← c.lower bound a)
  | .and as => do return .and (← c.lowerAll bound as)
  | .or as => do return .or (← c.lowerAll bound as)
  | .implies l r => do
    let l ← c.lower bound l
    let r ← c.lower bound r
    return .implies l r
  | .equiv l r => do
    let l ← c.lower bound l
    let r ← c.lower bound r
    return .equiv l r
  | .compare op l r =>
    match termPair? l r with
    | some (t, u) => c.compareObjects bound op t u
    | none => do
      let l ← c.lower bound l
      let r ← c.lower bound r
      return .compare op l r
  | .arith op l r => do
    let l ← c.lower bound l
    let r ← c.lower bound r
    return .arith op l r
  | .neg a => do return .neg (← c.lower bound a)
  | .ite cond t e => do
    let cond ← c.lower bound cond
    let t ← c.lower bound t
    let e ← c.lower bound e
    return .ite cond t e
  | .aggregate op vars body =>
    if vars.isEmpty then c.invalid (.noVariables op)
    else do
      let (binders, bound') ← c.bind bound vars
      let body ← c.lower bound' body
      return .aggregate op binders body
  | .kronDelta a => do return .kronDelta (← c.lower bound a)
  | .diracDelta a => do return .diracDelta (← c.lower bound a)
  | .bernoulli p => do return .bernoulli (← c.lower bound p)
  | .uniform l h => do
    let l ← c.lower bound l
    let h ← c.lower bound h
    return .uniform l h

/-- Compiles several expressions, from left to right. -/
def lowerAll (c : Compiler) (bound : List Binding) : List Expr → Compilation (List Node)
  | [] => pure []
  | e :: es => do
    let n ← c.lower bound e
    let ns ← c.lowerAll bound es
    return n :: ns

end

/-- Compiles a whole expression under some parameters, and tells which observations it reads. -/
def compile (c : Compiler) (params : List Binding) (e : Expr) :
    Except ModelError (Compiled × List Nat) :=
  match (c.lower params.reverse e).run { slots := params.length, reads := [] } with
  | .error err => .error err
  | .ok (node, footprint) =>
    .ok ({ node, slots := footprint.slots, label := c.label }, footprint.reads)

end Compiler
end LiftedPomdp
