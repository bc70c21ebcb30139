import LiftedPomdp.Value

/-!
# Expressions

Conditional probability functions, rewards and constraints are expression trees over fluents whose
arguments are variables or objects.  Variables are bound by the parameters of a conditional
probability function and by aggregates.
-/

namespace LiftedPomdp

/-- The text without its first character, where that is a question mark. -/
def withoutMark (s : String) : String :=
  match s.toList with
  | '?' :: cs => String.ofList cs
  | _ => s

/-- A fluent argument. -/
inductive Term where
  /-- A variable, named without the question mark that its text starts with. -/
  | var (name : String)
  | object (name : String)
  deriving DecidableEq, Repr

namespace Term

/-- Reads a term: a text that starts with a question mark is a variable. -/
def ofText (s : String) : Term :=
  match s.toList with
  | '?' :: cs => .var (String.ofList cs)
  | _ => .object s

/-- The text of a term. -/
def text : Term → String
  | .var v => "?" ++ v
  | .object o => o

/-- The name of a term. -/
def name : Term → String
  | .var v => v
  | .object o => o

/-- The name of a variable. -/
def varName? : Term → Option String
  | .var v => some v
  | .object _ => none

end Term

/-- A variable that an aggregate binds. -/
structure TypedVar where
  /-- The name, without a question mark. -/
  var : String
  /-- The type that the variable ranges over. -/
  typeName : String
  deriving DecidableEq, Repr

namespace TypedVar

/-- A typed variable whose name may be given with a question mark. -/
def ofText (var typeName : String) : TypedVar :=
  { var := withoutMark var, typeName := typeName }

end TypedVar

/-- The comparisons of two values. -/
inductive CompareOp where
  /-- Equality. -/
  | eq
  /-- Inequality. -/
  | neq
  /-- Less than. -/
  | lt
  /-- At most. -/
  | le
  /-- Greater than. -/
  | gt
  /-- At least. -/
  | ge
  deriving DecidableEq, Repr

namespace CompareOp

/-- All comparisons. -/
def all : List CompareOp :=
  [.eq, .neq, .lt, .le, .gt, .ge]

/-- The name of a comparison in documents. -/
def name : CompareOp → String
  | .eq => "eq"
  | .neq => "neq"
  | .lt => "lt"
  | .le => "le"
  | .gt => "gt"
  | .ge => "ge"

end CompareOp

/-- The arithmetic operations. -/
inductive ArithOp where
  /-- Addition. -/
  | add
  /-- Subtraction. -/
  | sub
  /-- Multiplication. -/
  | mul
  /-- Division, always of reals. -/
  | div
  deriving DecidableEq, Repr

namespace ArithOp

/-- All arithmetic operations. -/
def all : List ArithOp :=
  [.add, .sub, .mul, .div]

/-- The name of an operation in documents. -/
def name : ArithOp → String
  | .add => "add"
  | .sub => "sub"
  | .mul => "mul"
  | .div => "div"

end ArithOp

/-- The aggregates over all bindings of some variables. -/
inductive AggregateOp where
  /-- Some binding satisfies the body. -/
  | exists
  /-- Every binding satisfies the body. -/
  | forall
  /-- The sum of the body. -/
  | sum
  /-- The product of the body. -/
  | prod
  deriving DecidableEq, Repr

namespace AggregateOp

/-- All aggregates. -/
def all : List AggregateOp :=
  [.exists, .forall, .sum, .prod]

/-- The keyword of an aggregate, which is also its name in documents. -/
def name : AggregateOp → String
  | .exists => "exists"
  | .forall => "forall"
  | .sum => "sum"
  | .prod => "prod"

end AggregateOp

/-- An expression. -/
inductive Expr where
  | const (value : Value)
  /-- The value of a fluent, after the transition where `next` holds. -/
  | fluent (name : String) (args : List Term) (next : Bool)
  /-- An object or a variable as such, to be compared with another one. -/
  | term (term : Term)
  | not (arg : Expr)
  /-- Conjunction, from left to right until an operand is false. -/
  | and (args : List Expr)
  /-- Disjunction, from left to right until an operand is true. -/
  | or (args : List Expr)
  /-- Implication, whose right side counts only where the left holds. -/
  | implies (lhs rhs : Expr)
  | equiv (lhs rhs : Expr)
  | compare (op : CompareOp) (lhs rhs : Expr)
  | arith (op : ArithOp) (lhs rhs : Expr)
  | neg (arg : Expr)
  | ite (cond thenBranch elseBranch : Expr)
  /-- An aggregate over all bindings of the variables. -/
  | aggregate (op : AggregateOp) (vars : List TypedVar) (body : Expr)
  /-- The point mass on a value. -/
  | kronDelta (arg : Expr)
  /-- The point mass on a real. -/
  | diracDelta (arg : Expr)
  /-- True with the given probability. -/
  | bernoulli (p : Expr)
  /-- A real between two bounds, all equally likely. -/
  | uniform (low high : Expr)

/-- The kinds of expressions. -/
inductive ExprKind where
  | const
  | fluent
  | term
  /-- A negation. -/
  | not
  /-- A conjunction. -/
  | and
  /-- A disjunction. -/
  | or
  /-- An implication. -/
  | implies
  /-- An equivalence. -/
  | equiv
  | compare
  | arith
  /-- An opposite. -/
  | neg
  | ite
  | aggregate
  /-- A point mass on a value. -/
  | kronDelta
  /-- A point mass on a real. -/
  | diracDelta
  | bernoulli
  | uniform
  deriving DecidableEq, Repr

namespace ExprKind

/-- All kinds, in the order in which they are numbered. -/
def all : List ExprKind :=
  [.const, .fluent, .term, .not, .and, .or, .implies, .equiv, .compare, .arith, .neg, .ite,
    .aggregate, .kronDelta, .diracDelta, .bernoulli, .uniform]

/-- The name of a kind in documents. -/
def name : ExprKind → String
  | .const => "const"
  | .fluent => "fluent"
  | .term => "term"
  | .not => "not"
  | .and => "and"
  | .or => "or"
  | .implies => "implies"
  | .equiv => "equiv"
  | .compare => "compare"
  | .arith => "arith"
  | .neg => "neg"
  | .ite => "if"
  | .aggregate => "aggregate"
  | .kronDelta => "kron_delta"
  | .diracDelta => "dirac_delta"
  | .bernoulli => "bernoulli"
  | .uniform => "uniform"

/-- Whether expressions of this kind denote a distribution. -/
def isDistribution : ExprKind → Bool
  | .kronDelta | .diracDelta | .bernoulli | .uniform => true
  | _ => false

end ExprKind

namespace Expr

/-- The kind of an expression. -/
def kind : Expr → ExprKind
  | .const _ => .const
  | .fluent _ _ _ => .fluent
  | .term _ => .term
  | .not _ => .not
  | .and _ => .and
  | .or _ => .or
  | .implies _ _ => .implies
  | .equiv _ _ => .equiv
  | .compare _ _ _ => .compare
  | .arith _ _ _ => .arith
  | .neg _ => .neg
  | .ite _ _ _ => .ite
  | .aggregate _ _ _ => .aggregate
  | .kronDelta _ => .kronDelta
  | .diracDelta _ => .diracDelta
  | .bernoulli _ => .bernoulli
  | .uniform _ _ => .uniform

mutual

/-- All parts of an expression, each before its own parts. -/
def parts : Expr → List Expr
  | .const v => [.const v]
  | .fluent f args next => [.fluent f args next]
  | .term t => [.term t]
  | .not a => .not a :: parts a
  | .and as => .and as :: partsOfAll as
  | .or as => .or as :: partsOfAll as
  | .implies l r => .implies l r :: (parts l ++ parts r)
  | .equiv l r => .equiv l r :: (parts l ++ parts r)
  | .compare op l r => .compare op l r :: (parts l ++ parts r)
  | .arith op l r => .arith op l r :: (parts l ++ parts r)
  | .neg a => .neg a :: parts a
  | .ite c t e => .ite c t e :: (parts c ++ parts t ++ parts e)
  | .aggregate op vars body => .aggregate op vars body :: parts body
  | .kronDelta a => .kronDelta a :: parts a
  | .diracDelta a => .diracDelta a :: parts a
  | .bernoulli p => .bernoulli p :: parts p
  | .uniform l h => .uniform l h :: (parts l ++ parts h)

/-- The parts of several expressions, one expression after the other. -/
def partsOfAll : List Expr → List Expr
  | [] => []
  | e :: es => parts e ++ partsOfAll es

end

/-- Whether a distribution occurs anywhere in an expression. -/
def hasDistribution (e : Expr) : Bool :=
  e.parts.any fun p => p.kind.isDistribution

/-- A boolean constant. -/
def bool (b : Bool) : Expr :=
  .const (.bool b)

/-- An integer constant. -/
def int (n : Int64) : Expr :=
  .const (.int n)

/-- A real constant. -/
def real (x : Float) : Expr :=
  .const (.real x)

/-- The value of a fluent before or after the transition, its arguments given as texts. -/
def readAt (next : Bool) (name : String) (args : List String) : Expr :=
  .fluent name (args.map Term.ofText) next

/-- The value of a fluent before the transition. -/
def now (name : String) (args : List String) : Expr :=
  readAt false name args

/-- The value of a fluent after the transition. -/
def later (name : String) (args : List String) : Expr :=
  readAt true name args

/-- An aggregate over variables given as texts with their types. -/
def quantify (op : AggregateOp) (vars : List (String × String)) (body : Expr) : Expr :=
  .aggregate op (vars.map fun v => TypedVar.ofText v.1 v.2) body

end Expr
end LiftedPomdp
