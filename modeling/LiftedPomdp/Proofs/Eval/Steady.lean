import LiftedPomdp.Eval.Meaning
import LiftedPomdp.Proofs.Effects.Parallel

/-!
# Expressions that take nothing from the random stream

An expression without a coin and without a uniform real has one result, from
whatever place in the random stream it is evaluated, and stays at that place.
Point masses may occur in it.
-/

namespace LiftedPomdp

open Effects

/-- A meaning with one result for every sampler, which it leaves as it is. -/
def Meaning.Steady {α : Type} (x : Meaning α) : Prop :=
  ∃ r, ∀ s, x.run s = (r, s)

namespace Meaning.Steady

variable {α β : Type}

theorem value (a : α) : Steady (pure a : Meaning α) :=
  ⟨.ok a, fun _ => rfl⟩

theorem error (e : Fault DomainError) : Steady (throw e : Meaning α) :=
  ⟨.error e, fun _ => rfl⟩

theorem bind {x : Meaning α} {f : α → Meaning β} (hx : Steady x) (hf : ∀ a, Steady (f a)) :
    Steady (x >>= f) := by
  obtain ⟨r, hr⟩ := hx
  cases r with
  | error e => exact ⟨.error e, fun s => run_bind_of_error (hr s)⟩
  | ok a =>
      obtain ⟨r, hfa⟩ := hf a
      exact ⟨r, fun s => (run_bind_of_ok (hr s)).trans (hfa s)⟩

theorem refer (name : String) (a : Option α) : Steady (Meaning.refer name a) := by
  cases a with
  | some a => exact value a
  | none => exact error _

theorem object (env : Environment) (t : Term) : Steady (Meaning.object env t) := by
  cases t with
  | var v => exact refer v _
  | object o => exact value o

theorem objects (env : Environment) (ts : List Term) : Steady (Meaning.objects env ts) := by
  induction ts with
  | nil => exact value []
  | cons t ts ih => exact (object env t).bind fun o => ih.bind fun os => value _

theorem overObjects {step : String → α → Meaning (ForInStep α)}
    (hstep : ∀ o a, Steady (step o a)) (os : List String) (a : α) :
    Steady (Meaning.overObjects step os a) := by
  induction os generalizing a with
  | nil => exact value _
  | cons o os ih =>
      refine (hstep o a).bind fun r => ?_
      cases r with
      | done a => exact value _
      | yield a => exact ih a

variable {w : World}

theorem truth {x : Meaning Value} (hx : Steady x) : Steady (w.truth x) := by
  refine hx.bind fun v => ?_
  cases v.truth? with
  | some b => exact value b
  | none => exact error _

theorem real {x : Meaning Value} (hx : Steady x) : Steady (w.real x) :=
  hx.bind fun v => value v.toReal

theorem arith (op : ArithOp) (v v' : Value) : Steady (w.arith op v v') := by
  unfold World.arith
  cases Value.arith? op v v' with
  | some r => exact value r
  | none => exact error _

theorem overBindings {step : Environment → α → Meaning (ForInStep α)}
    (hstep : ∀ env a, Steady (step env a)) (vars : List TypedVar) (env : Environment) (a : α) :
    Steady (w.overBindings step vars env a) := by
  induction vars generalizing env a with
  | nil => exact hstep env a
  | cons v vars ih =>
      exact (refer v.typeName _).bind fun os => overObjects (fun o a => ih _ a) os a

theorem combine {body : Environment → Meaning Value} (hbody : ∀ env, Steady (body env))
    (op : AggregateOp) (env : Environment) (acc : Value) :
    Steady (w.combine body op env acc) := by
  cases op with
  | «exists» =>
      refine (truth (hbody env)).bind fun b => ?_
      cases b with
      | true => exact value _
      | false => exact value _
  | «forall» =>
      refine (truth (hbody env)).bind fun b => ?_
      cases b with
      | true => exact value _
      | false => exact value _
  | sum => exact (hbody env).bind fun v => (arith .add acc v).bind fun v => value _
  | prod => exact (hbody env).bind fun v => (arith .mul acc v).bind fun v => value _

theorem aggregate {body : Environment → Meaning Value} (hbody : ∀ env, Steady (body env))
    (env : Environment) (op : AggregateOp) (vars : List TypedVar) :
    Steady (w.aggregate env op vars body) := by
  refine (overBindings (combine hbody op) vars env _).bind fun r => ?_
  cases r with
  | done v => exact value v
  | yield v => exact value v

theorem compareObjects (env : Environment) (op : CompareOp) (l r : Term) :
    Steady (w.compareObjects env op l r) := by
  refine (object env l).bind fun o => (object env r).bind fun o' => ?_
  cases op with
  | eq => exact value _
  | neq => exact value _
  | lt => exact error _
  | le => exact error _
  | gt => exact error _
  | ge => exact error _

end Meaning.Steady

namespace Expr

/-- Neither a coin nor a uniform real occurs in an expression. -/
def Steady (e : Expr) : Prop :=
  ∀ p ∈ e.parts, p.kind ≠ .bernoulli ∧ p.kind ≠ .uniform

theorem steady_of_hasDistribution {e : Expr} (h : e.hasDistribution = false) : e.Steady := by
  intro p hp
  have hkind : p.kind.isDistribution = false := by
    simpa using List.any_eq_false.mp h p hp
  constructor
  · intro hbernoulli
    rw [hbernoulli] at hkind
    cases hkind
  · intro huniform
    rw [huniform] at hkind
    cases hkind

mutual

/-- An expression without coins and uniform reals has one result. -/
theorem meaning_steady (w : World) (env : Environment) (e : Expr) (h : e.Steady) :
    (e.meaning w env).Steady := by
  unfold Steady at h
  cases e with
  | const v => exact .value v
  | fluent name args next => exact (Meaning.Steady.objects env args).bind fun os => .refer name _
  | term t => exact .error _
  | not a =>
      rw [parts, List.forall_mem_cons] at h
      rw [meaning]
      exact (meaning_steady w env a h.2).truth.bind fun b => .value _
  | and as =>
      rw [parts, List.forall_mem_cons] at h
      rw [meaning]
      exact (meaningAll_steady w env as h.2).1.bind fun b => .value _
  | or as =>
      rw [parts, List.forall_mem_cons] at h
      rw [meaning]
      exact (meaningAll_steady w env as h.2).2.bind fun b => .value _
  | implies l r =>
      rw [parts, List.forall_mem_cons, List.forall_mem_append] at h
      rw [meaning]
      refine (meaning_steady w env l h.2.1).truth.bind fun b => ?_
      cases b with
      | true => exact (meaning_steady w env r h.2.2).truth.bind fun b => .value _
      | false => exact .value _
  | equiv l r =>
      rw [parts, List.forall_mem_cons, List.forall_mem_append] at h
      rw [meaning]
      exact (meaning_steady w env l h.2.1).truth.bind fun b =>
        (meaning_steady w env r h.2.2).truth.bind fun b' => .value _
  | compare op l r =>
      rw [parts, List.forall_mem_cons, List.forall_mem_append] at h
      have hl := meaning_steady w env l h.2.1
      have hr := meaning_steady w env r h.2.2
      by_cases hterms : ∃ t u, l = .term t ∧ r = .term u
      · obtain ⟨t, u, rfl, rfl⟩ := hterms
        exact .compareObjects env op t u
      · rw [meaning]
        · exact hl.bind fun v => hr.bind fun v' => .value _
        · exact fun t u hl hr => hterms ⟨t, u, hl, hr⟩
  | arith op l r =>
      rw [parts, List.forall_mem_cons, List.forall_mem_append] at h
      rw [meaning]
      exact (meaning_steady w env l h.2.1).bind fun v =>
        (meaning_steady w env r h.2.2).bind fun v' => .arith op v v'
  | neg a =>
      rw [parts, List.forall_mem_cons] at h
      rw [meaning]
      exact (meaning_steady w env a h.2).bind fun v => .value _
  | ite c t e =>
      rw [parts, List.forall_mem_cons, List.forall_mem_append, List.forall_mem_append] at h
      rw [meaning]
      refine (meaning_steady w env c h.2.1.1).truth.bind fun b => ?_
      cases b with
      | true => exact meaning_steady w env t h.2.1.2
      | false => exact meaning_steady w env e h.2.2
  | aggregate op vars body =>
      rw [parts, List.forall_mem_cons] at h
      rw [meaning]
      exact .aggregate (fun env => meaning_steady w env body h.2) env op vars
  | kronDelta a =>
      rw [parts, List.forall_mem_cons] at h
      rw [meaning]
      exact (meaning_steady w env a h.2).bind fun v => .value v
  | diracDelta a =>
      rw [parts, List.forall_mem_cons] at h
      rw [meaning]
      exact (meaning_steady w env a h.2).real.bind fun x => .value (Value.real x)
  | bernoulli p => exact absurd rfl (h _ List.mem_cons_self).1
  | uniform l u => exact absurd rfl (h _ List.mem_cons_self).2

theorem meaningAll_steady (w : World) (env : Environment) (es : List Expr)
    (h : ∀ p ∈ partsOfAll es, p.kind ≠ .bernoulli ∧ p.kind ≠ .uniform) :
    (allMean w env es).Steady ∧ (someMeans w env es).Steady := by
  cases es with
  | nil => exact ⟨.value true, .value false⟩
  | cons e es =>
      rw [partsOfAll, List.forall_mem_append] at h
      have hfirst := meaning_steady w env e h.1
      obtain ⟨hall, hsome⟩ := meaningAll_steady w env es h.2
      rw [allMean, someMeans]
      constructor
      · refine hfirst.truth.bind fun b => ?_
        cases b with
        | true => exact hall
        | false => exact .value false
      · refine hfirst.truth.bind fun b => ?_
        cases b with
        | true => exact .value true
        | false => exact hsome

end

end Expr
end LiftedPomdp
