import LiftedPomdp.Eval.Arithmetic
import LiftedPomdp.Ground.Model
import LiftedPomdp.Memory
import LiftedPomdp.Random.Sampler

/-!
# Evaluation of compiled expressions

An expression is evaluated against a snapshot of all tables.  The evaluation writes the slots of
aggregate variables and draws from the random stream; both stay as they are where it fails.

`Node.value` gives a value and draws from every distribution that it meets.  `Node.distribution`
is for the root of a conditional probability function: it selects a branch of the conditionals at
the root and leaves the draw to the caller.
-/

namespace LiftedPomdp

/-- The tables that an expression is evaluated against. -/
structure Snapshot where
  nonFluents : Table
  /-- The state that unmarked reads see. -/
  state : Table
  /-- The state that marked reads see. -/
  nextState : Table
  action : Table
  /-- The observations computed so far. -/
  observations : Table

namespace Snapshot

/-- What the functions of state fluents, the reward and the constraints see: the state before the
transition and no observations. -/
def current (nonFluents state action : Table) : Snapshot :=
  { nonFluents, state, nextState := state, action, observations := #[] }

/-- What the functions of observations see: the state after the transition and the observations
computed so far. -/
def observing (nonFluents nextState action observations : Table) : Snapshot :=
  { nonFluents, state := nextState, nextState, action, observations }

/-- The table of a kind of fluents on a side of the transition. -/
def table (s : Snapshot) : FluentKind → Layer → Table
  | .nonFluent, _ => s.nonFluents
  | .state, .current => s.state
  | .state, .next => s.nextState
  | .observation, _ => s.observations
  | .action, _ => s.action

end Snapshot

/-- What an evaluation changes. -/
structure Walk where
  /-- The ordinals of the objects that variables stand for. -/
  slots : Array Nat
  /-- The random stream. -/
  sampler : Sampler

/-- An evaluation: it fails or has a result, and leaves a walk behind in either case. -/
abbrev Eval := ExceptT (Fault DomainError) (StateM Walk)

namespace Eval

/-- Ends an evaluation with an error. -/
def fail {α : Type} (e : DomainError) : Eval α :=
  throw (.error e)

/-- Ends an evaluation without an answer. -/
def abort {α : Type} (a : Abort) : Eval α :=
  throw (.abort a)

/-- A step that may end without an answer, as an evaluation. -/
def ofAbort {α : Type} : Except Abort α → Eval α
  | .ok a => pure a
  | .error a => abort a

/-- The ordinal that a slot holds. -/
def slot (s : Nat) : Eval Nat := do
  let w ← get
  match w.slots[s]? with
  | some o => pure o
  | none => abort (.outOfRange s)

/-- Writes an ordinal into a slot. -/
def setSlot (s o : Nat) : Eval Unit := do
  let w ← get
  if h : s < w.slots.size then set { w with slots := w.slots.set s o }
  else abort (.outOfRange s)

/-- Draws from a distribution. -/
def draw (d : Distribution) : Eval Value := do
  let w ← get
  let (v, sampler) := w.sampler.sample d
  set { w with sampler }
  ofAbort v

/-- The ordinal of an argument. -/
def ordinal : Arg → Eval Nat
  | .slot s => slot s
  | .object o => pure o

/-- The sum of the ordinals of some arguments, each times its stride. -/
def offset : List Arg → List Nat → Eval Nat
  | a :: as, s :: ss => do
    let o ← ordinal a
    let rest ← offset as ss
    return o * s + rest
  | _, _ => pure 0

/-- Whether two objects are the same. -/
def sameObject (l r : ObjectRef) : Eval Bool :=
  if l.type = r.type then do
    let o ← ordinal l.arg
    let p ← ordinal r.arg
    return o == p
  else pure false

/-- Takes a step for each of some ordinals of a variable, in order, until one says to stop. -/
def overOrdinals {α : Type} (s : Nat) (step : α → Eval (ForInStep α)) :
    List Nat → α → Eval (ForInStep α)
  | [], a => pure (.yield a)
  | o :: os, a => do
    setSlot s o
    match ← step a with
    | .done a => return .done a
    | .yield a => overOrdinals s step os a

end Eval

/-- What stays the same throughout an evaluation. -/
structure Context where
  types : Array ObjectType
  blocks : Array FluentBlock
  /-- The tables. -/
  snapshot : Snapshot
  /-- What errors call the expression. -/
  label : String

namespace Context

/-- The truth value that an evaluation results in. -/
def truth (c : Context) (e : Eval Value) : Eval Bool := do
  let v ← e
  match v.truth? with
  | some b => pure b
  | none => Eval.fail (.typeMismatch .bool v.range c.label)

/-- The real that an evaluation results in. -/
def real (_ : Context) (e : Eval Value) : Eval Float := do
  let v ← e
  return v.toReal

/-- The value of a fluent; beyond its table the fluent has its default, and its place must have 64
bits. -/
def read (c : Context) (fluent : Nat) (kind : FluentKind) (layer : Layer) (args : List Arg) :
    Eval Value :=
  match c.blocks[fluent]? with
  | none => Eval.abort (.outOfRange fluent)
  | some b => do
    let o ← Eval.offset args b.strides
    let place := b.offset + o
    Eval.ofAbort (Memory.checkCount place)
    return ((c.snapshot.table kind layer)[place]?).getD b.default

/-- A checked biased coin. -/
def coin (c : Context) (p : Float) : Eval Distribution :=
  match Distribution.coin c.label p with
  | .ok d => pure d
  | .error e => Eval.fail e

/-- A checked uniform real. -/
def interval (c : Context) (low high : Float) : Eval Distribution :=
  match Distribution.interval c.label low high with
  | .ok d => pure d
  | .error e => Eval.fail e

/-- The result of an arithmetic operation. -/
def arith (c : Context) (op : ArithOp) (v w : Value) : Eval Value :=
  match Value.arith? op v w with
  | some v => pure v
  | none => Eval.fail (.divisionByZero c.label)

/-- Takes a step for each binding of some variables, the first variable changing slowest, until
one says to stop. -/
def overBindings {α : Type} (c : Context) (step : α → Eval (ForInStep α)) :
    List Binder → α → Eval (ForInStep α)
  | [], a => step a
  | b :: bs, a =>
    match c.types[b.type]? with
    | none => Eval.abort (.outOfRange b.type)
    | some t => Eval.overOrdinals b.slot (c.overBindings step bs) (List.range t.size) a

/-- The result of an aggregate before the first binding. -/
def start : AggregateOp → Value
  | .exists => .bool false
  | .forall => .bool true
  | .sum => .int 0
  | .prod => .int 1

/-- Takes one more binding of an aggregate into account. -/
def combine (c : Context) (body : Eval Value) : AggregateOp → Value → Eval (ForInStep Value)
  | .exists, acc => do
    if ← c.truth body then return .done (.bool true) else return .yield acc
  | .forall, acc => do
    if ← c.truth body then return .yield acc else return .done (.bool false)
  | .sum, acc => do
    let v ← body
    return .yield (← c.arith .add acc v)
  | .prod, acc => do
    let v ← body
    return .yield (← c.arith .mul acc v)

/-- The value of an aggregate. -/
def aggregate (c : Context) (op : AggregateOp) (vars : List Binder) (body : Eval Value) :
    Eval Value := do
  match ← c.overBindings (c.combine body op) vars (start op) with
  | .done v => return v
  | .yield v => return v

end Context

namespace Node

mutual

/-- The value of an expression, with every distribution in it drawn from. -/
def value (c : Context) : Node → Eval Value
  | .const v => pure v
  | .read fluent kind layer args => c.read fluent kind layer args
  | .sameObject l r negate => do
    let same ← Eval.sameObject l r
    return .bool (same != negate)
  | .not a => do
    let b ← c.truth (value c a)
    return .bool (!b)
  | .and as => do return .bool (← allTrue c as)
  | .or as => do return .bool (← someTrue c as)
  | .implies l r => do
    let l ← c.truth (value c l)
    if l then return .bool (← c.truth (value c r)) else return .bool true
  | .equiv l r => do
    let l ← c.truth (value c l)
    let r ← c.truth (value c r)
    return .bool (l == r)
  | .compare op l r => do
    let l ← value c l
    let r ← value c r
    return .bool (Value.compare op l r)
  | .arith op l r => do
    let l ← value c l
    let r ← value c r
    c.arith op l r
  | .neg a => do
    let v ← value c a
    return v.opposite
  | .ite cond t e => do
    let b ← c.truth (value c cond)
    if b then value c t else value c e
  | .aggregate op vars body => c.aggregate op vars (value c body)
  | .kronDelta a => do
    let v ← value c a
    Eval.draw (.kronDelta v)
  | .diracDelta a => do
    let x ← c.real (value c a)
    Eval.draw (.diracDelta x)
  | .bernoulli p => do
    let p ← c.real (value c p)
    let d ← c.coin p
    Eval.draw d
  | .uniform l h => do
    let l ← c.real (value c l)
    let h ← c.real (value c h)
    let d ← c.interval l h
    Eval.draw d

/-- Whether all of some expressions are true; those after a false one are not evaluated. -/
def allTrue (c : Context) : List Node → Eval Bool
  | [] => pure true
  | n :: ns => do
    let b ← c.truth (value c n)
    if b then allTrue c ns else pure false

/-- Whether some of the expressions is true; those after a true one are not evaluated. -/
def someTrue (c : Context) : List Node → Eval Bool
  | [] => pure false
  | n :: ns => do
    let b ← c.truth (value c n)
    if b then pure true else someTrue c ns

end

/-- The distribution that an expression denotes at the root of a conditional probability
function.  An expression that denotes none stands for the point mass on its value. -/
def distribution (c : Context) : Node → Eval Distribution
  | .kronDelta a => do
    let v ← value c a
    return .kronDelta v
  | .diracDelta a => do
    let x ← c.real (value c a)
    return .diracDelta x
  | .bernoulli p => do
    let p ← c.real (value c p)
    c.coin p
  | .uniform l h => do
    let l ← c.real (value c l)
    let h ← c.real (value c h)
    c.interval l h
  | .ite cond t e => do
    let b ← c.truth (value c cond)
    if b then distribution c t else distribution c e
  | n => do
    let v ← value c n
    return .kronDelta v

/-! The connectives turn truth values into values. -/

theorem value_not (c : Context) (a : Node) :
    (not a).value c = (Value.bool <$> Bool.not <$> c.truth (a.value c)) := by
  simp [value]

theorem value_and (c : Context) (as : List Node) :
    (and as).value c = Value.bool <$> allTrue c as := by
  simp [value]

theorem value_or (c : Context) (as : List Node) :
    (or as).value c = Value.bool <$> someTrue c as := by
  simp [value]

end Node

namespace Model

/-- The context of an expression of a model. -/
def context (m : Model) (snapshot : Snapshot) (label : String) : Context :=
  { types := m.types, blocks := m.blocks, snapshot, label }

/-- The value of a compiled expression. -/
def value (m : Model) (s : Snapshot) (e : Compiled) : Eval Value :=
  e.node.value (m.context s e.label)

/-- The truth value of a compiled expression. -/
def truth (m : Model) (s : Snapshot) (e : Compiled) : Eval Bool :=
  (m.context s e.label).truth (m.value s e)

/-- The real value of a compiled expression. -/
def real (m : Model) (s : Snapshot) (e : Compiled) : Eval Float :=
  (m.context s e.label).real (m.value s e)

/-- The distribution that a compiled expression denotes. -/
def distribution (m : Model) (s : Snapshot) (e : Compiled) : Eval Distribution :=
  e.node.distribution (m.context s e.label)

end Model
end LiftedPomdp
