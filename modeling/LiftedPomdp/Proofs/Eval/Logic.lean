import LiftedPomdp.Eval.Evaluator
import LiftedPomdp.Proofs.Ground.Lowering

/-!
# Logical laws

Connectives and quantifiers evaluate their operands in order and stop as soon
as the result is known.  An operand may draw from the random stream or fail, so
that a law of logic holds of them only if both sides evaluate the same operands
in the same order.  A quantifier is a search through the bindings of its
variables: it stops at the first binding that answers a question.  The
universal quantifier asks the opposite question of the existential one, and a
search over several variables is a search over the first of them for a binding
of the others.
-/

namespace LiftedPomdp

open Effects

/-! ## Searching -/

/-- Asks a question for each of some ordinals of a variable, in order, until
one is answered with yes. -/
def Eval.searchOrdinals (s : Nat) (question : Eval Bool) : List Nat → Eval Bool
  | [] => pure false
  | o :: os => do
    setSlot s o
    if ← question then return true else searchOrdinals s question os

/-- Stops a loop with one value if a question is answered with yes, and else
goes on with another. -/
def Eval.stopIf {α : Type} (question : Eval Bool) (stop a : α) : Eval (ForInStep α) := do
  if ← question then return .done stop else return .yield a

namespace Context

/-- Asks a question for each binding of some variables, until one is answered
with yes. -/
def search (c : Context) (question : Eval Bool) : List Binder → Eval Bool
  | [] => question
  | b :: bs =>
    match c.types[b.type]? with
    | none => Eval.abort (.outOfRange b.type)
    | some t => Eval.searchOrdinals b.slot (c.search question bs) (List.range t.size)

end Context

theorem Eval.overOrdinals_stopIf {α : Type} (s : Nat) {step : α → Eval (ForInStep α)}
    {question : Eval Bool} {stop a : α} (h : step a = stopIf question stop a) (os : List Nat) :
    overOrdinals s step os a = stopIf (searchOrdinals s question os) stop a := by
  induction os with
  | nil => simp [overOrdinals, searchOrdinals, stopIf]
  | cons o os ih =>
      rw [overOrdinals, h]
      simp only [searchOrdinals, stopIf, bind_assoc]
      apply bind_congr
      intro _
      apply bind_congr
      intro found
      cases found with
      | true => simp
      | false => exact ih

/-- A loop that stops at the answer to a question is a search. -/
theorem Context.overBindings_stopIf {α : Type} (c : Context) {step : α → Eval (ForInStep α)}
    {question : Eval Bool} {stop a : α} (h : step a = Eval.stopIf question stop a)
    (bs : List Binder) :
    c.overBindings step bs a = Eval.stopIf (c.search question bs) stop a := by
  induction bs with
  | nil => exact h
  | cons b bs ih =>
      rw [overBindings, search]
      cases c.types[b.type]? with
      | none => rfl
      | some t => exact Eval.overOrdinals_stopIf b.slot ih (List.range t.size)

/-- A search over a variable and some others looks for a binding of the first
for which a binding of the others is found. -/
theorem Context.search_cons (c : Context) (question : Eval Bool) (b : Binder)
    (bs : List Binder) : c.search question (b :: bs) = c.search (c.search question bs) [b] :=
  rfl

/-! ## Truth values -/

namespace Context

variable (c : Context)

theorem truth_map_bool (x : Eval Bool) : c.truth (Value.bool <$> x) = x := by
  simp [truth, Value.truth?]

/-- An aggregate that stops at the answer to a question has one value if the
search for that answer succeeds, and keeps its first value if not. -/
theorem aggregate_stopIf {op : AggregateOp} {body : Eval Value} {question : Eval Bool}
    {stop : Value} (h : c.combine body op (start op) = Eval.stopIf question stop (start op))
    (bs : List Binder) :
    c.aggregate op bs body =
      (fun found => if found then stop else start op) <$> c.search question bs := by
  rw [aggregate, c.overBindings_stopIf h, Eval.stopIf, map_eq_pure_bind, bind_assoc]
  apply bind_congr
  intro found
  cases found with
  | true => rfl
  | false => rfl

theorem aggregate_exists (bs : List Binder) (body : Eval Value) :
    c.aggregate .exists bs body = Value.bool <$> c.search (c.truth body) bs := by
  have hvalue : (fun found => if found then Value.bool true else start .exists) = Value.bool := by
    funext found
    cases found with
    | true => rfl
    | false => rfl
  rw [← hvalue]
  exact c.aggregate_stopIf rfl bs

/-- The universal quantifier searches for a binding that its body does not hold
of. -/
theorem aggregate_forall (bs : List Binder) (body : Eval Value) :
    c.aggregate .forall bs body =
      Value.bool <$> Bool.not <$> c.search (Bool.not <$> c.truth body) bs := by
  have hcombine : c.combine body .forall (start .forall) =
      Eval.stopIf (Bool.not <$> c.truth body) (.bool false) (start .forall) := by
    rw [combine, Eval.stopIf, bind_map_left]
    apply bind_congr
    intro b
    cases b with
    | true => rfl
    | false => rfl
  rw [c.aggregate_stopIf hcombine bs, Functor.map_map]
  congr
  funext found
  cases found with
  | true => rfl
  | false => rfl

end Context

namespace Node

variable (c : Context)

theorem truth_not (a : Node) : c.truth ((not a).value c) = Bool.not <$> c.truth (a.value c) := by
  rw [value_not, c.truth_map_bool]

/-- Some operand is false exactly if not all of them are true, and the same
operands are evaluated to find that out. -/
theorem someTrue_map_not (as : List Node) : someTrue c (as.map not) = Bool.not <$> allTrue c as := by
  induction as with
  | nil => simp [someTrue, allTrue]
  | cons a as ih =>
      rw [List.map_cons, someTrue, allTrue, truth_not, ih, bind_map_left, map_bind]
      apply bind_congr
      intro b
      cases b with
      | true => simp
      | false => simp

end Node

/-! ## Laws of compiled expressions -/

/-- In every context and from every walk, two compiled expressions have the
same value or the same error, and denote the same distribution or have the same
error; and both leave the same walk behind. -/
def Node.BehavesAs (n n' : Node) : Prop :=
  ∀ (c : Context) (w : Walk), (n.value c).run w = (n'.value c).run w ∧
    (n.distribution c).run w = (n'.distribution c).run w

namespace Node

/-- Neither conditionals nor distributions behave alike as soon as they have
the same value; other expressions denote the point mass on it. -/
theorem behavesAs_of_value {n n' : Node} (hvalue : ∀ c, n.value c = n'.value c)
    (hn : ∀ c, n.distribution c = Distribution.kronDelta <$> n.value c)
    (hn' : ∀ c, n'.distribution c = Distribution.kronDelta <$> n'.value c) : n.BehavesAs n' := by
  intro c w
  rw [hn, hn', hvalue]
  exact ⟨rfl, rfl⟩

theorem forall_behavesAs (bs : List Binder) (n : Node) :
    (aggregate .forall bs n).BehavesAs (not (aggregate .exists bs (not n))) := by
  refine behavesAs_of_value ?_ (fun _ => rfl) (fun _ => rfl)
  intro c
  rw [value_not, value, value, c.aggregate_forall, c.aggregate_exists, c.truth_map_bool,
    truth_not]

theorem and_behavesAs (as : List Node) : (and as).BehavesAs (not (or (as.map not))) := by
  refine behavesAs_of_value ?_ (fun _ => rfl) (fun _ => rfl)
  intro c
  rw [value_and, value_not, value_or, c.truth_map_bool, someTrue_map_not]
  simp

theorem someTrue_singleton (c : Context) (a : Node) : someTrue c [a] = c.truth (a.value c) := by
  have hif (b : Bool) : (if b then pure true else pure false : Eval Bool) = pure b := by
    cases b with
    | true => rfl
    | false => rfl
  simp only [someTrue, hif, bind_pure]

theorem implies_behavesAs (a b : Node) : (implies a b).BehavesAs (or [not a, b]) := by
  refine behavesAs_of_value ?_ (fun _ => rfl) (fun _ => rfl)
  intro c
  rw [value_or, value, someTrue, truth_not, someTrue_singleton, bind_map_left, map_bind]
  apply bind_congr
  intro l
  cases l with
  | true => simp
  | false => simp

/-- A quantifier over a variable and some others is one over that variable of
one over the others. -/
theorem quantifier_cons_behavesAs {op : AggregateOp} (hop : op = .exists ∨ op = .forall)
    (b : Binder) (bs : List Binder) (n : Node) :
    (aggregate op (b :: bs) n).BehavesAs (aggregate op [b] (aggregate op bs n)) := by
  refine behavesAs_of_value ?_ (fun _ => rfl) (fun _ => rfl)
  intro c
  rw [value, value, value]
  rcases hop with rfl | rfl
  · rw [c.aggregate_exists, c.aggregate_exists, c.aggregate_exists, c.truth_map_bool,
      c.search_cons]
  · -- the outer search asks whether the inner quantifier is false
    have hinner : Bool.not <$> c.truth (c.aggregate .forall bs (n.value c)) =
        c.search (Bool.not <$> c.truth (n.value c)) bs := by
      rw [c.aggregate_forall, c.truth_map_bool]
      simp
    rw [c.aggregate_forall, c.aggregate_forall [b], hinner, c.search_cons]

end Node

/-! ## Laws of expressions -/

namespace Compiler

variable (c : Compiler) (bound : List Binding)

/-- Brings a variable of an aggregate into scope. -/
def bindOne (v : TypedVar) : Compilation (Binder × List Binding) :=
  match c.scope.type? v.typeName with
  | none => throw (.unknownType v.typeName c.label)
  | some type => do
    modify (Footprint.useSlots (bound.length + 1))
    return ({ slot := bound.length, type }, { name := v.var, type } :: bound)

/-- Compiles an expression under variables that are brought into scope for
it. -/
def lowerUnder (vs : List TypedVar) (e : Expr) : Compilation (List Binder × Node) := do
  let (bs, bound') ← c.bind bound vs
  let n ← c.lower bound' e
  return (bs, n)

theorem bind_cons (v : TypedVar) (vs : List TypedVar) :
    c.bind bound (v :: vs) = (do
      let (b, bound') ← c.bindOne bound v
      let (bs, bound'') ← c.bind bound' vs
      return (b :: bs, bound'')) := by
  rw [bind, bindOne]
  cases c.scope.type? v.typeName with
  | none => rfl
  | some type => simp

theorem lowerUnder_cons (v : TypedVar) (vs : List TypedVar) (e : Expr) :
    c.lowerUnder bound (v :: vs) e = (do
      let (b, bound') ← c.bindOne bound v
      let (bs, n) ← c.lowerUnder bound' vs e
      return (b :: bs, n)) := by
  simp [lowerUnder, bind_cons]

theorem lowerUnder_not (vs : List TypedVar) (e : Expr) :
    c.lowerUnder bound vs (.not e) = (fun p => (p.1, Node.not p.2)) <$> c.lowerUnder bound vs e := by
  simp [lowerUnder, lower]

theorem lower_aggregate (op : AggregateOp) {vs : List TypedVar} (hvs : vs ≠ []) (e : Expr) :
    c.lower bound (.aggregate op vs e) =
      (fun p => Node.aggregate op p.1 p.2) <$> c.lowerUnder bound vs e := by
  simp [lowerUnder, lower, hvs]

/-- An aggregate over a variable and some others, and an aggregate over that
variable of one over the others, are compiled from the same parts. -/
theorem lower_aggregate_cons (op : AggregateOp) (v : TypedVar) {vs : List TypedVar}
    (hvs : vs ≠ []) (e : Expr) : ∃ x : Compilation (Binder × List Binder × Node),
      c.lower bound (.aggregate op (v :: vs) e) =
        (fun p => Node.aggregate op (p.1 :: p.2.1) p.2.2) <$> x ∧
      c.lower bound (.aggregate op [v] (.aggregate op vs e)) =
        (fun p => Node.aggregate op [p.1] (.aggregate op p.2.1 p.2.2)) <$> x := by
  refine ⟨do
    let (b, bound') ← c.bindOne bound v
    let (bs, n) ← c.lowerUnder bound' vs e
    return (b, bs, n), ?_, ?_⟩
  · rw [lower_aggregate _ _ _ (List.cons_ne_nil v vs), lowerUnder_cons]
    simp
  · rw [lower_aggregate _ _ _ (List.cons_ne_nil v []), lowerUnder_cons]
    simp [lowerUnder, bind, lower_aggregate _ _ _ hvs]

theorem lowerAll_map_not (es : List Expr) :
    c.lowerAll bound (es.map .not) = List.map Node.not <$> c.lowerAll bound es := by
  induction es with
  | nil => simp [lowerAll]
  | cons e es ih => simp [lowerAll, lower, ih]

end Compiler

namespace Expr

/-- At every place and under all parameters, two expressions are compiled to
expressions that behave alike, ask for the same number of slots, read the same
observations and go by the same name; or both have the same error. -/
def BehavesAs (e e' : Expr) : Prop :=
  ∀ (c : Compiler) (params : List Binding),
    Matching (fun p p' => p.1.Alike Node.BehavesAs p'.1 ∧ p.2 = p'.2) (c.compile params e)
      (c.compile params e')

theorem behavesAs_of_lower {e e' : Expr}
    (h : ∀ (c : Compiler) (bound : List Binding),
      MatchingRuns Node.BehavesAs (c.lower bound e) (c.lower bound e')) : e.BehavesAs e' :=
  fun c params => c.matching_compile (h c) params

/-- Two quantifiers over one variable are each other's dual: no binding is
found that the body does not hold of. -/
theorem forall_behavesAs {vs : List TypedVar} (hvs : vs ≠ []) (e : Expr) :
    (aggregate .forall vs e).BehavesAs (not (aggregate .exists vs (not e))) := by
  apply behavesAs_of_lower
  intro c bound
  rw [c.lower_aggregate bound .forall hvs, Compiler.lower, c.lower_aggregate bound .exists hvs,
    c.lowerUnder_not, bind_pure_comp, Functor.map_map, Functor.map_map]
  exact MatchingRuns.map_same _ fun p => Node.forall_behavesAs p.1 p.2

theorem and_behavesAs (es : List Expr) : (and es).BehavesAs (not (or (es.map not))) := by
  apply behavesAs_of_lower
  intro c bound
  simp only [Compiler.lower, c.lowerAll_map_not, bind_pure_comp, Functor.map_map]
  exact MatchingRuns.map_same _ Node.and_behavesAs

theorem implies_behavesAs (a b : Expr) : (implies a b).BehavesAs (or [not a, b]) := by
  apply behavesAs_of_lower
  intro c bound
  have h : c.lower bound (or [not a, b]) = (fun p : Node × Node => Node.or [.not p.1, p.2]) <$>
      (do
        let a ← c.lower bound a
        let b ← c.lower bound b
        return (a, b)) := by
    simp [Compiler.lower, Compiler.lowerAll]
  have h' : c.lower bound (implies a b) = (fun p : Node × Node => Node.implies p.1 p.2) <$>
      (do
        let a ← c.lower bound a
        let b ← c.lower bound b
        return (a, b)) := by
    simp [Compiler.lower]
  rw [h, h']
  exact MatchingRuns.map_same _ fun p => Node.implies_behavesAs p.1 p.2

theorem quantifier_cons_behavesAs {op : AggregateOp} (hop : op = .exists ∨ op = .forall)
    (v : TypedVar) {vs : List TypedVar} (hvs : vs ≠ []) (e : Expr) :
    (aggregate op (v :: vs) e).BehavesAs (aggregate op [v] (aggregate op vs e)) := by
  apply behavesAs_of_lower
  intro c bound
  obtain ⟨x, hflat, hnested⟩ := c.lower_aggregate_cons bound op v hvs e
  rw [hflat, hnested]
  exact MatchingRuns.map_same x fun p => Node.quantifier_cons_behavesAs hop p.1 p.2.1 p.2.2

/-- Connectives and quantifiers obey the laws of logic in all that can be
observed, whatever their operands draw and wherever they fail.  Compiled
expressions do for any binders; expressions do as they are compiled, and where
a quantifier has no variables to bind, neither side of its law is compiled. -/
theorem logical_laws :
    ((∀ bs n, (Node.aggregate .forall bs n).BehavesAs (.not (.aggregate .exists bs (.not n)))) ∧
      (∀ ns, (Node.and ns).BehavesAs (.not (.or (ns.map .not)))) ∧
      (∀ m n, (Node.implies m n).BehavesAs (.or [.not m, n])) ∧
      ∀ op, op = .exists ∨ op = .forall → ∀ b bs n,
        (Node.aggregate op (b :: bs) n).BehavesAs (.aggregate op [b] (.aggregate op bs n))) ∧
    (∀ vs e, vs ≠ [] →
      (aggregate .forall vs e).BehavesAs (not (aggregate .exists vs (not e)))) ∧
    (∀ (c : Compiler) params e,
      c.compile params (aggregate .forall [] e) =
          .error (.invalidExpression c.label (.noVariables .forall)) ∧
        c.compile params (not (aggregate .exists [] (not e))) =
          .error (.invalidExpression c.label (.noVariables .exists))) ∧
    (∀ es, (and es).BehavesAs (not (or (es.map not)))) ∧
    (∀ a b, (implies a b).BehavesAs (or [not a, b])) ∧
    ∀ op, op = .exists ∨ op = .forall → ∀ v vs e, vs ≠ [] →
      (aggregate op (v :: vs) e).BehavesAs (aggregate op [v] (aggregate op vs e)) := by
  refine ⟨⟨?_, ?_, ?_, ?_⟩, ?_, ?_, ?_, ?_, ?_⟩
  · exact Node.forall_behavesAs
  · exact Node.and_behavesAs
  · exact Node.implies_behavesAs
  · intro op hop b bs n
    exact Node.quantifier_cons_behavesAs hop b bs n
  · intro vs e hvs
    exact forall_behavesAs hvs e
  · intro c params e
    exact ⟨rfl, rfl⟩
  · exact and_behavesAs
  · exact implies_behavesAs
  · intro op hop v vs e hvs
    exact quantifier_cons_behavesAs hop v hvs e

/-- Whether two lamps both flicker is drawn alike by a quantifier over both and
by one inside the other. -/
theorem logical_laws_lamps :
    let c : Compiler :=
      { scope := { types := #[{ name := "lamp", objects := ["left", "right"] }], blocks := #[] },
        site := .reward, label := "reward" }
    let x : TypedVar := { var := "x", typeName := "lamp" }
    let y : TypedVar := { var := "y", typeName := "lamp" }
    let flat := aggregate .exists [x, y] (bernoulli (real 0.5))
    let nested := aggregate .exists [x] (aggregate .exists [y] (bernoulli (real 0.5)))
    (c.compile [] flat).isOk = true ∧ (c.compile [] nested).isOk = true ∧
      flat.BehavesAs nested := by
  intro c x y flat nested
  refine ⟨by decide +kernel, by decide +kernel, ?_⟩
  exact logical_laws.2.2.2.2.2 .exists (.inl rfl) x [y] _ (List.cons_ne_nil y [])

end Expr
end LiftedPomdp
