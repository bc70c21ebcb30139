import LiftedPomdp.Eval.Evaluator
import LiftedPomdp.Proofs.Definition.Expr
import LiftedPomdp.Proofs.Effects.Parallel
import LiftedPomdp.Proofs.Ground.Lowering

/-!
# Relations that evaluation respects

An evaluation respects a relation between walks if from related walks it comes
to the same result and leaves related walks behind.  What evaluations do apart
from reading and writing slots and drawing values respects every relation.  So a
compiled expression respects a relation as soon as the slots of its variables
and the draws of its distributions do; the relation may depend on the ordinals
that the variables in scope stand for.
-/

namespace LiftedPomdp

open Effects

/-- From related walks, an evaluation has the same result and leaves related
walks behind. -/
abbrev Respects {α : Type} (R : Walk → Walk → Prop) (x : Eval α) : Prop :=
  Parallel R x x R R

namespace Respects

variable {α β : Type} {R : Walk → Walk → Prop}

theorem value (a : α) : Respects R (pure a) :=
  Parallel.value a fun _ _ hrelated => hrelated

theorem error (e : Fault DomainError) : Respects R (throw e : Eval α) :=
  Parallel.error e fun _ _ hrelated => hrelated

theorem bind {x : Eval α} {f : α → Eval β} (hx : Respects R x) (hf : ∀ a, Respects R (f a)) :
    Respects R (x >>= f) :=
  Parallel.bind hx hf

variable {c : Context}

theorem truth {x : Eval Value} (h : Respects R x) : Respects R (c.truth x) := by
  refine h.bind fun v => ?_
  cases v.truth? with
  | some b => exact value b
  | none => exact error _

theorem real {x : Eval Value} (h : Respects R x) : Respects R (c.real x) :=
  h.bind fun v => value v.toReal

theorem coin (p : Float) : Respects R (c.coin p) := by
  unfold Context.coin
  cases Distribution.coin c.label p with
  | ok d => exact value d
  | error e => exact error _

theorem interval (low high : Float) : Respects R (c.interval low high) := by
  unfold Context.interval
  cases Distribution.interval c.label low high with
  | ok d => exact value d
  | error e => exact error _

theorem arith (op : ArithOp) (v v' : Value) : Respects R (c.arith op v v') := by
  unfold Context.arith
  cases Value.arith? op v v' with
  | some r => exact value r
  | none => exact error _

theorem combine {x : Eval Value} (h : Respects R x) (op : AggregateOp) (acc : Value) :
    Respects R (c.combine x op acc) := by
  cases op with
  | «exists» =>
      refine (truth h).bind fun b => ?_
      cases b with
      | true => exact value _
      | false => exact value _
  | «forall» =>
      refine (truth h).bind fun b => ?_
      cases b with
      | true => exact value _
      | false => exact value _
  | sum => exact h.bind fun v => (arith .add acc v).bind fun v => value _
  | prod => exact h.bind fun v => (arith .mul acc v).bind fun v => value _

theorem allTrue {ns : List Node} (h : ∀ n ∈ ns, Respects R (n.value c)) :
    Respects R (Node.allTrue c ns) := by
  induction ns with
  | nil => exact value true
  | cons n ns ih =>
      rw [List.forall_mem_cons] at h
      refine (truth h.1).bind fun b => ?_
      cases b with
      | true => exact ih h.2
      | false => exact value false

theorem someTrue {ns : List Node} (h : ∀ n ∈ ns, Respects R (n.value c)) :
    Respects R (Node.someTrue c ns) := by
  induction ns with
  | nil => exact value false
  | cons n ns ih =>
      rw [List.forall_mem_cons] at h
      refine (truth h.1).bind fun b => ?_
      cases b with
      | true => exact value true
      | false => exact ih h.2

end Respects

/-! ## Variables -/

/-- A relation for the ordinals of each list of variables in scope, the innermost
first, such that reading a variable respects it and bringing a new variable into
scope leads from one to the next. -/
structure Framed (limit : Nat) (R : List Nat → Walk → Walk → Prop) : Prop where
  slot : ∀ {ordinals : List Nat} {s : Nat}, s < ordinals.length →
    Respects (R ordinals) (Eval.slot s)
  setSlot : ∀ {ordinals : List Nat} (k : Nat), ordinals.length < limit →
    Parallel (R ordinals) (Eval.setSlot ordinals.length k) (Eval.setSlot ordinals.length k)
      (R (k :: ordinals)) (R ordinals)
  tail : ∀ {ordinals : List Nat} {k : Nat} {w w' : Walk}, R (k :: ordinals) w w' → R ordinals w w'

namespace Framed

variable {α : Type} {limit : Nat} {R : List Nat → Walk → Walk → Prop} {ordinals : List Nat}
  {s : Scope} {bound : List Binding} {c : Context}

theorem overOrdinals (h : Framed limit R) {step : α → Eval (ForInStep α)}
    (hroom : ordinals.length < limit) (hstep : ∀ k a, Respects (R (k :: ordinals)) (step a))
    (ks : List Nat) (a : α) :
    Respects (R ordinals) (Eval.overOrdinals ordinals.length step ks a) := by
  induction ks generalizing a with
  | nil => exact .value _
  | cons k ks ih =>
      rw [Eval.overOrdinals]
      refine Parallel.bind (h.setSlot k hroom) fun _ => ?_
      refine Parallel.bind ((hstep k a).mono (fun _ _ hrelated => hrelated)
        (fun _ _ hrelated => hrelated) fun _ _ hrelated => h.tail hrelated) fun r => ?_
      cases r with
      | done a => exact Parallel.value _ fun _ _ hrelated => h.tail hrelated
      | yield a =>
          exact (ih a).mono (fun _ _ hrelated => h.tail hrelated) (fun _ _ hrelated => hrelated)
            fun _ _ hrelated => hrelated

theorem overBindings (h : Framed limit R) {bound' : List Binding} {vars : List TypedVar}
    {binders : List Binder} {step : α → Eval (ForInStep α)}
    (hbinds : Binds s bound vars binders bound') (hlimit : bound'.length ≤ limit)
    (hstep : ∀ ks : List Nat, ks.length = bound'.length → ∀ a, Respects (R ks) (step a))
    (hlen : ordinals.length = bound.length) (a : α) :
    Respects (R ordinals) (c.overBindings step binders a) := by
  induction hbinds generalizing ordinals a with
  | nil => exact hstep ordinals hlen a
  | @cons bound bound' v vs type binders _ htail ih =>
      have hroom : ordinals.length < limit := by
        have hbound := htail.length_eq
        rw [List.length_cons] at hbound
        omega
      simp only [Context.overBindings, ← hlen]
      cases c.types[type]? with
      | none => exact .error _
      | some t =>
          refine h.overOrdinals hroom (fun k a => ?_) _ a
          exact ih hlimit hstep (by rw [List.length_cons, List.length_cons, hlen]) a

theorem ordinal (h : Framed limit R) (hlen : ordinals.length = bound.length) {type : Nat}
    {t : Term} {a : Arg} (harg : ArgFor s bound type t a) :
    Respects (R ordinals) (Eval.ordinal a) := by
  cases harg with
  | var hfind => exact h.slot (hlen ▸ Binding.slot_lt hfind)
  | object _ => exact .value _

theorem objectRef (h : Framed limit R) (hlen : ordinals.length = bound.length) {t : Term}
    {ref : ObjectRef} (href : ObjectFor s bound t ref) :
    Respects (R ordinals) (Eval.ordinal ref.arg) := by
  cases href with
  | var hfind => exact h.slot (hlen ▸ Binding.slot_lt hfind)
  | object _ => exact .value _

theorem offset (h : Framed limit R) (hlen : ordinals.length = bound.length) {types : List Nat}
    {terms : List Term} {args : List Arg} (hargs : ArgsFor s bound types terms args)
    (strides : List Nat) : Respects (R ordinals) (Eval.offset args strides) := by
  induction hargs generalizing strides with
  | nil => exact .value 0
  | cons head _ ih =>
      cases strides with
      | nil => exact .value 0
      | cons stride strides =>
          have hhead : Respects (R ordinals) _ := h.ordinal hlen head
          have htail := ih strides
          exact hhead.bind fun o => htail.bind fun rest => .value _

theorem read (h : Framed limit R) (hlen : ordinals.length = bound.length) {types : List Nat}
    {terms : List Term} {args : List Arg} (hargs : ArgsFor s bound types terms args)
    (fluent : Nat) (kind : FluentKind) (layer : Layer) :
    Respects (R ordinals) (c.read fluent kind layer args) := by
  unfold Context.read
  cases c.blocks[fluent]? with
  | none => exact .error _
  | some b =>
      refine (h.offset hlen hargs b.strides).bind fun o => Respects.bind ?_ fun _ => .value _
      cases Memory.checkCount (b.offset + o) with
      | ok _ => exact .value ()
      | error a => exact .error _

theorem sameObject (h : Framed limit R) (hlen : ordinals.length = bound.length) {l r : Term}
    {lhs rhs : ObjectRef} (hl : ObjectFor s bound l lhs) (hr : ObjectFor s bound r rhs) :
    Respects (R ordinals) (Eval.sameObject lhs rhs) := by
  unfold Eval.sameObject
  have hleft : Respects (R ordinals) (Eval.ordinal lhs.arg) := h.objectRef hlen hl
  have hright : Respects (R ordinals) (Eval.ordinal rhs.arg) := h.objectRef hlen hr
  split
  · exact hleft.bind fun o => hright.bind fun p => .value _
  · exact .value false

end Framed

/-! ## Compiled expressions -/

/-- The draws of the coins and of the uniform reals in an expression respect a
relation. -/
def Expr.DrawsRespect (R : List Nat → Walk → Walk → Prop) (e : Expr) : Prop :=
  ∀ p ∈ e.parts, p.kind = .bernoulli ∨ p.kind = .uniform →
    ∀ ordinals d, Respects (R ordinals) (Eval.draw d)

theorem Expr.DrawsRespect.operand {R : List Nat → Walk → Walk → Prop} {e a : Expr}
    (h : e.DrawsRespect R) (ha : a ∈ e.operands) : a.DrawsRespect R :=
  fun p hp => h p (mem_parts_iff.mpr (.inr ⟨a, ha, hp⟩))

theorem Expr.DrawsRespect.draw {R : List Nat → Walk → Walk → Prop} {e : Expr}
    (h : e.DrawsRespect R) (hkind : e.kind = .bernoulli ∨ e.kind = .uniform)
    (ordinals : List Nat) (d : Distribution) : Respects (R ordinals) (Eval.draw d) :=
  h e (mem_parts_iff.mpr (.inl rfl)) hkind ordinals d

/-- A compiled expression respects a relation that the slots of its variables and
the draws of its distributions respect. -/
theorem Lowers.respects {c : Compiler} {limit : Nat} {R : List Nat → Walk → Walk → Prop}
    (hframed : Framed limit R) {bound : List Binding} {e : Expr} {n : Node}
    (hlowers : Lowers c limit bound e n) (hdraws : e.DrawsRespect R) (context : Context)
    {ordinals : List Nat} (hlen : ordinals.length = bound.length) :
    Respects (R ordinals) (n.value context) := by
  induction hlowers generalizing ordinals with
  | const v => exact .value v
  | read _ _ _ arguments => exact hframed.read hlen arguments _ _ _
  | same left right =>
      rw [Node.value]
      exact (hframed.sameObject hlen left right).bind fun b => .value _
  | differ left right =>
      rw [Node.value]
      exact (hframed.sameObject hlen left right).bind fun b => .value _
  | not _ ih =>
      have harg := ih (hdraws.operand (by simp [Expr.operands])) hlen
      rw [Node.value]
      exact harg.truth.bind fun b => .value _
  | and length _ ih =>
      have hargs := forall_mem_of_zip_right (P := fun n => Respects (R ordinals) (n.value context))
        length fun p hp => ih p hp (hdraws.operand (List.of_mem_zip hp).1) hlen
      rw [Node.value]
      exact (Respects.allTrue hargs).bind fun b => .value _
  | or length _ ih =>
      have hargs := forall_mem_of_zip_right (P := fun n => Respects (R ordinals) (n.value context))
        length fun p hp => ih p hp (hdraws.operand (List.of_mem_zip hp).1) hlen
      rw [Node.value]
      exact (Respects.someTrue hargs).bind fun b => .value _
  | implies _ _ ihl ihr =>
      have hl := ihl (hdraws.operand (by simp [Expr.operands])) hlen
      have hr := ihr (hdraws.operand (by simp [Expr.operands])) hlen
      rw [Node.value]
      refine hl.truth.bind fun b => ?_
      cases b with
      | true => exact hr.truth.bind fun b => .value _
      | false => exact .value _
  | equiv _ _ ihl ihr =>
      have hl := ihl (hdraws.operand (by simp [Expr.operands])) hlen
      have hr := ihr (hdraws.operand (by simp [Expr.operands])) hlen
      rw [Node.value]
      exact hl.truth.bind fun b => hr.truth.bind fun b' => .value _
  | compare _ _ ihl ihr =>
      have hl := ihl (hdraws.operand (by simp [Expr.operands])) hlen
      have hr := ihr (hdraws.operand (by simp [Expr.operands])) hlen
      rw [Node.value]
      exact hl.bind fun v => hr.bind fun v' => .value _
  | arith _ _ ihl ihr =>
      have hl := ihl (hdraws.operand (by simp [Expr.operands])) hlen
      have hr := ihr (hdraws.operand (by simp [Expr.operands])) hlen
      rw [Node.value]
      exact hl.bind fun v => hr.bind fun v' => .arith _ v v'
  | neg _ ih =>
      have harg := ih (hdraws.operand (by simp [Expr.operands])) hlen
      rw [Node.value]
      exact harg.bind fun v => .value _
  | ite _ _ _ ihc iht ihe =>
      have hcond := ihc (hdraws.operand (by simp [Expr.operands])) hlen
      have hthen := iht (hdraws.operand (by simp [Expr.operands])) hlen
      have helse := ihe (hdraws.operand (by simp [Expr.operands])) hlen
      rw [Node.value]
      refine hcond.truth.bind fun b => ?_
      cases b with
      | true => exact hthen
      | false => exact helse
  | aggregate _ binds within _ ih =>
      have hbody : ∀ ks : List Nat, ks.length = _ → Respects (R ks) _ :=
        fun ks hks => ih (hdraws.operand (by simp [Expr.operands])) hks
      rw [Node.value]
      refine Respects.bind (hframed.overBindings binds within (fun ks hks acc =>
        (hbody ks hks).combine _ acc) hlen _) fun r => ?_
      cases r with
      | done v => exact .value v
      | yield v => exact .value v
  | kronDelta _ ih =>
      have harg := ih (hdraws.operand (by simp [Expr.operands])) hlen
      rw [Node.value]
      exact harg.bind fun v => .value v
  | diracDelta _ ih =>
      have harg := ih (hdraws.operand (by simp [Expr.operands])) hlen
      rw [Node.value]
      exact harg.real.bind fun x => .value (Value.real x)
  | bernoulli _ ih =>
      have harg := ih (hdraws.operand (by simp [Expr.operands])) hlen
      rw [Node.value]
      exact harg.real.bind fun p => (Respects.coin p).bind fun d =>
        hdraws.draw (.inl rfl) ordinals d
  | uniform _ _ ihl ihh =>
      have hlow := ihl (hdraws.operand (by simp [Expr.operands])) hlen
      have hhigh := ihh (hdraws.operand (by simp [Expr.operands])) hlen
      rw [Node.value]
      exact hlow.real.bind fun low => hhigh.real.bind fun high =>
        (Respects.interval low high).bind fun d => hdraws.draw (.inr rfl) ordinals d

/-- So does the evaluation of the distribution that it denotes. -/
theorem Lowers.respects_distribution {c : Compiler} {limit : Nat}
    {R : List Nat → Walk → Walk → Prop} (hframed : Framed limit R) {bound : List Binding}
    {e : Expr} {n : Node} (hlowers : Lowers c limit bound e n) (hdraws : e.DrawsRespect R)
    (context : Context) {ordinals : List Nat} (hlen : ordinals.length = bound.length) :
    Respects (R ordinals) (n.distribution context) := by
  have hvalue := hlowers.respects hframed hdraws context hlen
  induction hlowers with
  | @ite _ cond t e _ _ _ condition thenBranch elseBranch _ iht ihe =>
      have hc : cond.DrawsRespect R := hdraws.operand (by simp [Expr.operands])
      have ht : t.DrawsRespect R := hdraws.operand (by simp [Expr.operands])
      have he : e.DrawsRespect R := hdraws.operand (by simp [Expr.operands])
      have hcond := condition.respects hframed hc context hlen
      have hthen := iht ht hlen (thenBranch.respects hframed ht context hlen)
      have helse := ihe he hlen (elseBranch.respects hframed he context hlen)
      rw [Node.distribution]
      refine hcond.truth.bind fun b => ?_
      cases b with
      | true => exact hthen
      | false => exact helse
  | kronDelta arg _ =>
      have harg := arg.respects hframed (hdraws.operand (by simp [Expr.operands])) context hlen
      rw [Node.distribution]
      exact harg.bind fun v => .value _
  | diracDelta arg _ =>
      have harg := arg.respects hframed (hdraws.operand (by simp [Expr.operands])) context hlen
      rw [Node.distribution]
      exact harg.real.bind fun x => .value _
  | bernoulli arg _ =>
      have harg := arg.respects hframed (hdraws.operand (by simp [Expr.operands])) context hlen
      rw [Node.distribution]
      exact harg.real.bind fun p => .coin p
  | uniform low high _ _ =>
      have hlow := low.respects hframed (hdraws.operand (by simp [Expr.operands])) context hlen
      have hhigh := high.respects hframed (hdraws.operand (by simp [Expr.operands])) context hlen
      rw [Node.distribution]
      exact hlow.real.bind fun l => hhigh.real.bind fun u => .interval l u
  | _ => exact hvalue.bind fun v => .value (Distribution.kronDelta v)

end LiftedPomdp
