import LiftedPomdp.Ground.Grounding

/-!
# Well-formed expressions

Which expressions may stand in a domain is said here on names alone, one condition for each place
in an expression: what a fluent is applied to and where it is read, where an object or a variable
stands on its own, and what an aggregate binds.  Compilation replaces names by numbers and slots in
one pass over the expression, and is made to accept exactly these expressions.
-/

namespace LiftedPomdp

/-- The variables in scope with the names of their types, the innermost variable first. -/
abbrev Typing := List (String × String)

namespace Typing

/-- The variables in scope inside an aggregate, a later variable of which hides an earlier one of
the same name. -/
def extend (vars : Typing) (vs : List TypedVar) : Typing :=
  (vs.map fun v => (v.var, v.typeName)).reverse ++ vars

end Typing

namespace Term

/-- Whether a term may be an argument for a parameter of the given type. -/
def Fits (i : Instance) (vars : Typing) (type : String) : Term → Prop
  | .var v => vars.lookup v = some type
  | .object o => o ∈ Grounding.objectsOf i type

/-- Whether a term stands for an object. -/
def StandsFor (i : Instance) (vars : Typing) : Term → Prop
  | .var v => (vars.lookup v).isSome = true
  | .object o => ∃ decl ∈ i.objects, o ∈ decl.objects

instance (i : Instance) (vars : Typing) (type : String) : (t : Term) → Decidable (t.Fits i vars type)
  | .var v => inferInstanceAs (Decidable (vars.lookup v = some type))
  | .object o => inferInstanceAs (Decidable (o ∈ Grounding.objectsOf i type))

instance (i : Instance) (vars : Typing) : (t : Term) → Decidable (t.StandsFor i vars)
  | .var v => inferInstanceAs (Decidable ((vars.lookup v).isSome = true))
  | .object o => inferInstanceAs (Decidable (∃ decl ∈ i.objects, o ∈ decl.objects))

end Term

namespace FluentDecl

/-- Whether a fluent may be read, before the transition or after it, in the function of an
observation or elsewhere: there is no next value of what does not change and of what the agent
does, only observations see the next state, and only other observations see an observation. -/
def MayBeRead (observer : Option String) (next : Bool) (f : FluentDecl) : Prop :=
  match f.kind with
  | .nonFluent | .action => next = false
  | .state => next = true → observer.isSome = true
  | .observation => observer.isSome = true ∧ observer ≠ some f.name

instance (observer : Option String) (next : Bool) (f : FluentDecl) :
    Decidable (f.MayBeRead observer next) :=
  match h : f.kind with
  | .nonFluent | .action => decidable_of_iff (next = false) (by rw [MayBeRead, h])
  | .state => decidable_of_iff (next = true → observer.isSome = true) (by rw [MayBeRead, h])
  | .observation =>
    decidable_of_iff (observer.isSome = true ∧ observer ≠ some f.name) (by rw [MayBeRead, h])

end FluentDecl

namespace Expr

mutual

/-- The places in an expression, each with the variables in scope there.  The two sides of a
comparison of objects are no places of their own. -/
def places (vars : Typing) : Expr → List (Typing × Expr)
  | .const v => [(vars, .const v)]
  | .fluent name args next => [(vars, .fluent name args next)]
  | .term t => [(vars, .term t)]
  | .not a => (vars, .not a) :: places vars a
  | .and as => (vars, .and as) :: placesOfAll vars as
  | .or as => (vars, .or as) :: placesOfAll vars as
  | .implies l r => (vars, .implies l r) :: (places vars l ++ places vars r)
  | .equiv l r => (vars, .equiv l r) :: (places vars l ++ places vars r)
  | .compare op l r =>
    (vars, .compare op l r) ::
      if (Compiler.termPair? l r).isSome then [] else places vars l ++ places vars r
  | .arith op l r => (vars, .arith op l r) :: (places vars l ++ places vars r)
  | .neg a => (vars, .neg a) :: places vars a
  | .ite c t e => (vars, .ite c t e) :: (places vars c ++ places vars t ++ places vars e)
  | .aggregate op vs body => (vars, .aggregate op vs body) :: places (vars.extend vs) body
  | .kronDelta a => (vars, .kronDelta a) :: places vars a
  | .diracDelta a => (vars, .diracDelta a) :: places vars a
  | .bernoulli p => (vars, .bernoulli p) :: places vars p
  | .uniform l h => (vars, .uniform l h) :: (places vars l ++ places vars h)

/-- The places in several expressions. -/
def placesOfAll (vars : Typing) : List Expr → List (Typing × Expr)
  | [] => []
  | e :: es => places vars e ++ placesOfAll vars es

end

/-- What is asked of the root of an expression: a declared fluent is read where it may be, and is
applied to as many terms as it has parameters, each of which fits; objects are compared for being
the same or different ones, and do not stand anywhere else; and an aggregate binds variables of
declared types. -/
def Proper (d : Domain) (i : Instance) (observer : Option String) (vars : Typing) : Expr → Prop
  | .fluent name args next => ∃ f ∈ d.fluents, f.name = name ∧
      args.length = f.params.length ∧ (∀ p ∈ args.zip f.params, p.1.Fits i vars p.2) ∧
        f.MayBeRead observer next
  | .term _ => False
  | .compare op l r =>
    match Compiler.termPair? l r with
    | some (t, u) => (op = .eq ∨ op = .neq) ∧ t.StandsFor i vars ∧ u.StandsFor i vars
    | none => True
  | .aggregate _ vs _ => vs ≠ [] ∧ ∀ v ∈ vs, v.typeName ∈ d.types
  | _ => True

instance (d : Domain) (i : Instance) (observer : Option String) (vars : Typing) :
    DecidablePred (Proper d i observer vars)
  | .fluent name args next => inferInstanceAs (Decidable (∃ f ∈ d.fluents, f.name = name ∧
      args.length = f.params.length ∧ (∀ p ∈ args.zip f.params, p.1.Fits i vars p.2) ∧
        f.MayBeRead observer next))
  | .term _ => inferInstanceAs (Decidable False)
  | .compare op l r =>
    match h : Compiler.termPair? l r with
    | some (t, u) =>
      decidable_of_iff ((op = .eq ∨ op = .neq) ∧ t.StandsFor i vars ∧ u.StandsFor i vars)
        (by rw [Proper, h])
    | none => isTrue (by rw [Proper, h]; trivial)
  | .aggregate _ vs _ => inferInstanceAs (Decidable (vs ≠ [] ∧ ∀ v ∈ vs, v.typeName ∈ d.types))
  | .const _ | .not _ | .and _ | .or _ | .implies _ _ | .equiv _ _ | .arith _ _ _ | .neg _
  | .ite _ _ _ | .kronDelta _ | .diracDelta _ | .bernoulli _ | .uniform _ _ => isTrue trivial

/-- An expression that is proper at all of its places. -/
def WellFormed (d : Domain) (i : Instance) (observer : Option String) (vars : Typing)
    (e : Expr) : Prop :=
  ∀ p ∈ e.places vars, p.2.Proper d i observer p.1

instance (d : Domain) (i : Instance) (observer : Option String) (vars : Typing) :
    DecidablePred (WellFormed d i observer vars) :=
  fun e => inferInstanceAs (Decidable (∀ p ∈ e.places vars, p.2.Proper d i observer p.1))

end Expr
end LiftedPomdp
