import LiftedPomdp.Eval.Evaluator

/-!
# The meaning of expressions

What an expression means is said here on the expression itself: variables stand for objects, an
inner variable hides an outer one of the same name, fluents are looked up by their names and the
names of their arguments, and objects are the same where their names are.  Compilation replaces all
names by numbers, and is made so that compiled expressions mean the same.

As in `Node.value`, every distribution is drawn from where it is met.
-/

namespace LiftedPomdp

/-- The objects that variables stand for, the innermost variable first. -/
abbrev Environment := List (String × String)

/-- What the names in an expression refer to. -/
structure World where
  /-- The objects of a type, in order. -/
  objects? : String → Option (List String)
  /-- The value of a ground fluent, before or after the transition. -/
  value? : Bool → GroundFluent → Option Value
  /-- What errors call the expression. -/
  label : String

/-- What an expression means: it draws from a random stream, and fails or has a result. -/
abbrev Meaning := ExceptT (Fault DomainError) (StateM Sampler)

namespace Meaning

/-- Ends with an error. -/
def fail {α : Type} (e : DomainError) : Meaning α :=
  throw (.error e)

/-- What a name refers to. -/
def refer {α : Type} (name : String) : Option α → Meaning α
  | some a => pure a
  | none => throw (.abort (.unknownName name))

/-- Draws from a distribution. -/
def draw (d : Distribution) : Meaning Value := do
  let s ← get
  let (v, s) := s.sample d
  set s
  match v with
  | .ok v => pure v
  | .error a => throw (.abort a)

/-- The result of a check. -/
def checked {α : Type} : Except DomainError α → Meaning α
  | .ok a => pure a
  | .error e => fail e

/-- The name of the object that a term denotes. -/
def object (env : Environment) : Term → Meaning String
  | .var v => refer v (env.lookup v)
  | .object o => pure o

/-- The names of the objects that some terms denote. -/
def objects (env : Environment) : List Term → Meaning (List String)
  | [] => pure []
  | t :: ts => do
    let o ← object env t
    let os ← objects env ts
    return o :: os

/-- Takes a step for each of some objects, in order, until one says to stop. -/
def overObjects {α : Type} (step : String → α → Meaning (ForInStep α)) :
    List String → α → Meaning (ForInStep α)
  | [], a => pure (.yield a)
  | o :: os, a => do
    match ← step o a with
    | .done a => return .done a
    | .yield a => overObjects step os a

end Meaning

namespace World

/-- The truth value of something. -/
def truth (w : World) (m : Meaning Value) : Meaning Bool := do
  let v ← m
  match v.truth? with
  | some b => pure b
  | none => Meaning.fail (.typeMismatch .bool v.range w.label)

/-- The real value of something. -/
def real (_ : World) (m : Meaning Value) : Meaning Float := do
  let v ← m
  return v.toReal

/-- The value of a fluent. -/
def read (w : World) (env : Environment) (name : String) (args : List Term) (next : Bool) :
    Meaning Value := do
  let args ← Meaning.objects env args
  Meaning.refer name (w.value? next { name, args })

/-- Whether two terms denote the same object, or different ones; other comparisons of objects have
no meaning. -/
def compareObjects (_ : World) (env : Environment) (op : CompareOp) (l r : Term) :
    Meaning Value := do
  let l ← Meaning.object env l
  let r ← Meaning.object env r
  match op with
  | .eq => return .bool (l == r)
  | .neq => return .bool (l != r)
  | _ => throw (.abort (.unknownName op.name))

/-- The result of an arithmetic operation. -/
def arith (w : World) (op : ArithOp) (v v' : Value) : Meaning Value :=
  match Value.arith? op v v' with
  | some r => pure r
  | none => Meaning.fail (.divisionByZero w.label)

/-- Takes a step for each binding of some variables, the first variable changing slowest, until
one says to stop. -/
def overBindings {α : Type} (w : World) (step : Environment → α → Meaning (ForInStep α)) :
    List TypedVar → Environment → α → Meaning (ForInStep α)
  | [], env, a => step env a
  | v :: vs, env, a => do
    let os ← Meaning.refer v.typeName (w.objects? v.typeName)
    Meaning.overObjects (fun o a => w.overBindings step vs ((v.var, o) :: env) a) os a

/-- Takes one more binding of an aggregate into account. -/
def combine (w : World) (body : Environment → Meaning Value) (op : AggregateOp)
    (env : Environment) (acc : Value) : Meaning (ForInStep Value) :=
  match op with
  | .exists => do
    if ← w.truth (body env) then return .done (.bool true) else return .yield acc
  | .forall => do
    if ← w.truth (body env) then return .yield acc else return .done (.bool false)
  | .sum => do
    let v ← body env
    return .yield (← w.arith .add acc v)
  | .prod => do
    let v ← body env
    return .yield (← w.arith .mul acc v)

/-- The value of an aggregate. -/
def aggregate (w : World) (env : Environment) (op : AggregateOp) (vars : List TypedVar)
    (body : Environment → Meaning Value) : Meaning Value := do
  match ← w.overBindings (w.combine body op) vars env (Context.start op) with
  | .done v => return v
  | .yield v => return v

end World

namespace Expr

mutual

/-- What an expression means where variables stand for the given objects. -/
def meaning (w : World) (env : Environment) : Expr → Meaning Value
  | .const v => pure v
  | .fluent name args next => w.read env name args next
  | .term t => throw (.abort (.unknownName t.text))
  | .not a => do
    let b ← w.truth (meaning w env a)
    return .bool (!b)
  | .and as => do return .bool (← allMean w env as)
  | .or as => do return .bool (← someMeans w env as)
  | .implies l r => do
    let l ← w.truth (meaning w env l)
    if l then return .bool (← w.truth (meaning w env r)) else return .bool true
  | .equiv l r => do
    let l ← w.truth (meaning w env l)
    let r ← w.truth (meaning w env r)
    return .bool (l == r)
  | .compare op (.term l) (.term r) => w.compareObjects env op l r
  | .compare op l r => do
    let l ← meaning w env l
    let r ← meaning w env r
    return .bool (Value.compare op l r)
  | .arith op l r => do
    let l ← meaning w env l
    let r ← meaning w env r
    w.arith op l r
  | .neg a => do
    let v ← meaning w env a
    return v.opposite
  | .ite cond t e => do
    let b ← w.truth (meaning w env cond)
    if b then meaning w env t else meaning w env e
  | .aggregate op vars body => w.aggregate env op vars fun env => meaning w env body
  | .kronDelta a => do
    let v ← meaning w env a
    Meaning.draw (.kronDelta v)
  | .diracDelta a => do
    let x ← w.real (meaning w env a)
    Meaning.draw (.diracDelta x)
  | .bernoulli p => do
    let p ← w.real (meaning w env p)
    let d ← Meaning.checked (Distribution.coin w.label p)
    Meaning.draw d
  | .uniform l h => do
    let l ← w.real (meaning w env l)
    let h ← w.real (meaning w env h)
    let d ← Meaning.checked (Distribution.interval w.label l h)
    Meaning.draw d

/-- Whether all of some expressions mean true; those after a false one do not count. -/
def allMean (w : World) (env : Environment) : List Expr → Meaning Bool
  | [] => pure true
  | e :: es => do
    let b ← w.truth (meaning w env e)
    if b then allMean w env es else pure false

/-- Whether one of some expressions means true; those after a true one do not count. -/
def someMeans (w : World) (env : Environment) : List Expr → Meaning Bool
  | [] => pure false
  | e :: es => do
    let b ← w.truth (meaning w env e)
    if b then pure true else someMeans w env es

end

end Expr

namespace Model

/-- The table that a fluent of a kind is read from, before or after the transition. -/
def readTable (s : Snapshot) (kind : FluentKind) (next : Bool) : Table :=
  s.table kind (if next then .next else .current)

/-- What names refer to in a model with the given tables. -/
def world (m : Model) (s : Snapshot) (label : String) : World where
  objects? := fun name => (m.type? name).map (·.objects)
  value? := fun next g =>
    match m.block? g.name with
    | none => none
    | some b => (m.describe b.kind (readTable s b.kind next)).get? g.name g.args
  label := label

end Model
end LiftedPomdp
