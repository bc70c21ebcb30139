import LiftedPomdp.Proofs.Eval.Refinement
import LiftedPomdp.Proofs.Eval.Slots
import Mathlib.Logic.Relation

/-!
# The nodes that an evaluation visits

The evaluation of a node goes on to its operands, as far as the results so far
ask for them, and to the body of an aggregate for one binding of its variables
after the other.  `Node.Enters` lists these steps, each with the walk that the
operand is evaluated from; the nodes visited are those that such steps lead to.

At every node visited the leading slots hold the ordinals of the objects that
its variables stand for.  One step keeps this, so all steps do, and it follows
that nothing is out of bounds: no slot, no ordinal and no place in a table.
-/

namespace LiftedPomdp

open Effects Grounding

/-! ## Steps -/

namespace Context

/-- A loop over the bindings of some variables takes its step with a value from
a walk, after it has started with a value from a walk. -/
inductive Iterates {α : Type} (c : Context) (step : α → Eval (ForInStep α)) :
    List Binder → α × Walk → α × Walk → Prop
  | here (p : α × Walk) : Iterates c step [] p p
  | inner {b : Binder} {bs : List Binder} {t : ObjectType} {k : Nat} {a a' : α}
      {w w' w'' : Walk} {q : α × Walk} (type : c.types[b.type]? = some t) (lt : k < t.size)
      (earlier : (Eval.overOrdinals b.slot (c.overBindings step bs) (List.range k) a).run w =
        (.ok (.yield a'), w'))
      (write : (Eval.setSlot b.slot k).run w' = (.ok (), w''))
      (later : Iterates c step bs (a', w'') q) : Iterates c step (b :: bs) (a, w) q

end Context

namespace Node

/-- From a walk, the evaluation of a node, for its value or for its
distribution, goes on to evaluate another node from another walk. -/
inductive Enters (c : Context) : Node × Walk → Node × Walk → Prop
  | not {a : Node} {w : Walk} : Enters c (.not a, w) (a, w)
  | and {before after : List Node} {a : Node} {w u : Walk}
      (earlier : (allTrue c before).run w = (.ok true, u)) :
      Enters c (.and (before ++ a :: after), w) (a, u)
  | or {before after : List Node} {a : Node} {w u : Walk}
      (earlier : (someTrue c before).run w = (.ok false, u)) :
      Enters c (.or (before ++ a :: after), w) (a, u)
  | impliesLeft {l r : Node} {w : Walk} : Enters c (.implies l r, w) (l, w)
  | impliesRight {l r : Node} {w u : Walk}
      (left : (c.truth (l.value c)).run w = (.ok true, u)) : Enters c (.implies l r, w) (r, u)
  | equivLeft {l r : Node} {w : Walk} : Enters c (.equiv l r, w) (l, w)
  | equivRight {l r : Node} {w u : Walk} {b : Bool}
      (left : (c.truth (l.value c)).run w = (.ok b, u)) : Enters c (.equiv l r, w) (r, u)
  | compareLeft {op : CompareOp} {l r : Node} {w : Walk} : Enters c (.compare op l r, w) (l, w)
  | compareRight {op : CompareOp} {l r : Node} {w u : Walk} {v : Value}
      (left : (l.value c).run w = (.ok v, u)) : Enters c (.compare op l r, w) (r, u)
  | arithLeft {op : ArithOp} {l r : Node} {w : Walk} : Enters c (.arith op l r, w) (l, w)
  | arithRight {op : ArithOp} {l r : Node} {w u : Walk} {v : Value}
      (left : (l.value c).run w = (.ok v, u)) : Enters c (.arith op l r, w) (r, u)
  | neg {a : Node} {w : Walk} : Enters c (.neg a, w) (a, w)
  | condition {cond t e : Node} {w : Walk} : Enters c (.ite cond t e, w) (cond, w)
  | thenBranch {cond t e : Node} {w u : Walk}
      (test : (c.truth (cond.value c)).run w = (.ok true, u)) : Enters c (.ite cond t e, w) (t, u)
  | elseBranch {cond t e : Node} {w u : Walk}
      (test : (c.truth (cond.value c)).run w = (.ok false, u)) : Enters c (.ite cond t e, w) (e, u)
  | body {op : AggregateOp} {vars : List Binder} {a : Node} {w u : Walk} {acc : Value}
      (iterates : c.Iterates (c.combine (a.value c) op) vars (Context.start op, w) (acc, u)) :
      Enters c (.aggregate op vars a, w) (a, u)
  | kronDelta {a : Node} {w : Walk} : Enters c (.kronDelta a, w) (a, w)
  | diracDelta {a : Node} {w : Walk} : Enters c (.diracDelta a, w) (a, w)
  | bernoulli {a : Node} {w : Walk} : Enters c (.bernoulli a, w) (a, w)
  | low {l h : Node} {w : Walk} : Enters c (.uniform l h, w) (l, w)
  | high {l h : Node} {w u : Walk} {x : Float}
      (left : (c.real (l.value c)).run w = (.ok x, u)) : Enters c (.uniform l h, w) (h, u)

/-- The evaluation of a node visits a node. -/
abbrev Visits (c : Context) : Node × Walk → Node × Walk → Prop :=
  Relation.ReflTransGen (Enters c)

end Node

/-! ## Bounds -/

/-- The ordinal of an argument, where its slot exists. -/
def Walk.ordinal? (w : Walk) : Arg → Option Nat
  | .slot s => w.slots[s]?
  | .object o => some o

namespace Context

variable (c : Context)

/-- An argument has the ordinal of an object of a type. -/
def Denoting (w : Walk) (type : Nat) (a : Arg) : Prop :=
  ∃ o, w.ordinal? a = some o ∧ o < typeSize c.types type

/-- Nothing that a node itself reads or writes is out of bounds.  The arguments
of a fluent denote objects of the types of its parameters, and its place lies
in its block and in the table that is read, so that the default is not used; two
objects that are compared are objects of their types; and the variables of an
aggregate have slots and range over types with objects. -/
def InBounds (w : Walk) : Node → Prop
  | .read fluent kind layer args =>
    ∃ b, c.blocks[fluent]? = some b ∧ b.kind = kind ∧
      List.Forall₂ (c.Denoting w) b.params args ∧
      ∃ o, (Eval.offset args b.strides).run w = (.ok o, w) ∧ o < b.size ∧
        ∃ v, (c.snapshot.table kind layer)[b.offset + o]? = some v ∧
          (c.read fluent kind layer args).run w = (.ok v, w)
  | .sameObject l r _ => c.Denoting w l.type l.arg ∧ c.Denoting w r.type r.arg
  | .aggregate _ vars _ => ∀ b ∈ vars, b.slot < w.slots.size ∧ 0 < typeSize c.types b.type
  | _ => True

end Context

/-! ## Scopes -/

/-- The type of a name has objects. -/
def Scope.Inhabited (s : Scope) (name : String) : Prop :=
  ∀ type, s.type? name = some type → 0 < typeSize s.types type

/-- The leading slots of a walk hold the ordinals of the objects that the
variables of a compiled node stand for, and the types of the variables that are
bound in it have objects. -/
inductive Node.InScope (c : Compiler) (limit : Nat) : Node × Walk → Prop
  | intro {bound : List Binding} {e : Expr} {n : Node} {ordinals : List Nat} {env : Environment}
      {w : Walk} (lowers : Lowers c limit bound e n)
      (denotes : Denotes c.scope.types bound ordinals env) (stands : Stands ordinals limit w)
      (inhabited : ∀ p ∈ e.parts, ∀ name ∈ boundTypes p, c.scope.Inhabited name) :
      InScope c limit (n, w)

theorem Local.stands {α : Type} {ordinals : List Nat} {limit : Nat} {x : Eval α} {a : α}
    {w u : Walk} (h : Local ordinals limit x) (hw : Stands ordinals limit w)
    (hrun : x.run w = (.ok a, u)) : Stands ordinals limit u := by
  obtain ⟨_, _, hbeside⟩ := h.run_ok ⟨hw, hw, rfl⟩ hrun
  exact hbeside.left

section Scopes

variable {c : Compiler} {limit : Nat} {context : Context}

/-- The step of a loop is taken with the ordinals of the variables in their
slots. -/
theorem Context.Iterates.exists_denotes {α : Type} {step : α → Eval (ForInStep α)} {s : Scope}
    (htypes : context.types = s.types) {bound bound' : List Binding} {vars : List TypedVar}
    {binders : List Binder} (hbinds : Binds s bound vars binders bound')
    (hlimit : bound'.length ≤ limit)
    (hstep : ∀ ks : List Nat, ks.length = bound'.length → ∀ a, Local ks limit (step a))
    {ordinals : List Nat} {env : Environment} (henv : Denotes s.types bound ordinals env)
    {p q : α × Walk} (hstands : Stands ordinals limit p.2)
    (h : context.Iterates step binders p q) :
    ∃ ordinals' env', Denotes s.types bound' ordinals' env' ∧ Stands ordinals' limit q.2 := by
  induction hbinds generalizing ordinals env p with
  | nil =>
      cases h
      exact ⟨ordinals, env, henv, hstands⟩
  | @cons bound bound' v vs type binders head tail ih =>
      have hlen := henv.length_eq
      have hroom : ordinals.length < limit := by
        have hbound := tail.length_eq
        rw [List.length_cons] at hbound
        omega
      cases h with
      | @inner _ _ t k a a' w w' w'' _ htype hlt earlier write later =>
          rw [← hlen] at earlier write
          have hloop : Local ordinals limit (Eval.overOrdinals ordinals.length
              (context.overBindings step binders) (List.range k) a) := by
            refine (framed_beside limit).overOrdinals hroom (fun k a => ?_) _ a
            exact (framed_beside limit).overBindings tail hlimit hstep
              (by rw [List.length_cons, List.length_cons, hlen]) a
          obtain ⟨u, hwrite, hstands', _⟩ :=
            (hloop.stands hstands earlier).run_setSlot hroom k
          obtain rfl : w'' = u := (Prod.mk.inj (write.symm.trans hwrite)).2
          have htype' : s.types[type]? = some t := htypes ▸ htype
          exact ih hlimit hstep (henv.cons htype' (List.getElem?_eq_getElem hlt)) hstands' later

/-- An operand in a list is compiled from one of the expressions, and the operands
before it leave the ordinals in scope as they are. -/
theorem exists_lowers_of_zip {bound : List Binding} {es : List Expr} {before after : List Node}
    {a : Node} (hlength : es.length = (before ++ a :: after).length)
    (hargs : ∀ p ∈ es.zip (before ++ a :: after), Lowers c limit bound p.1 p.2)
    (context : Context) {ordinals : List Nat} (hlen : ordinals.length = bound.length) :
    (∃ e ∈ es, Lowers c limit bound e a) ∧
      ∀ n ∈ before, Local ordinals limit (n.value context) := by
  obtain ⟨e, he⟩ := exists_mem_zip hlength (List.mem_append_right before List.mem_cons_self)
  have hlocal := forall_mem_of_zip_right (P := fun n => Local ordinals limit (n.value context))
    hlength fun p hp => (hargs p hp).local context hlen
  exact ⟨⟨e, (List.of_mem_zip he).1, hargs _ he⟩,
    fun n hn => hlocal n (List.mem_append_left _ hn)⟩

/-- What a node in scope enters is in scope. -/
theorem Node.Enters.inScope (htypes : context.types = c.scope.types) {p q : Node × Walk}
    (h : Node.Enters context p q) (hp : Node.InScope c limit p) : Node.InScope c limit q := by
  rcases hp with @⟨bound, e, n, ordinals, env, w, hlowers, henv, hstands, hinhabited⟩
  have hlen := henv.length_eq
  have hinto : ∀ {a : Expr} {n' : Node} {u : Walk}, a ∈ e.operands →
      Lowers c limit bound a n' → Stands ordinals limit u → Node.InScope c limit (n', u) :=
    fun ha hlowers hstands => ⟨hlowers, henv, hstands, fun p hp =>
      hinhabited p (Expr.mem_parts_iff.mpr (.inr ⟨_, ha, hp⟩))⟩
  -- The step tells the form of the node, and with it the rule that compiled it.  Only the body of
  -- an aggregate has variables of its own; all other operands see the same ordinals.
  cases h with
  | not =>
      cases hlowers with
      | not arg => exact hinto (by simp [Expr.operands]) arg hstands
  | @and before after a _ u earlier =>
      cases hlowers with
      | and length args =>
          obtain ⟨⟨e', he', ha⟩, hbefore⟩ := exists_lowers_of_zip length args context hlen
          have hall : Local ordinals limit (allTrue context before) := Respects.allTrue hbefore
          exact hinto he' ha (hall.stands hstands earlier)
  | @or before after a _ u earlier =>
      cases hlowers with
      | or length args =>
          obtain ⟨⟨e', he', ha⟩, hbefore⟩ := exists_lowers_of_zip length args context hlen
          have hsome : Local ordinals limit (someTrue context before) := Respects.someTrue hbefore
          exact hinto he' ha (hsome.stands hstands earlier)
  | impliesLeft =>
      cases hlowers with
      | implies left _ => exact hinto (by simp [Expr.operands]) left hstands
  | impliesRight hrun =>
      cases hlowers with
      | implies left right =>
          exact hinto (by simp [Expr.operands]) right
            (Local.stands (left.local context hlen).truth hstands hrun)
  | equivLeft =>
      cases hlowers with
      | equiv left _ => exact hinto (by simp [Expr.operands]) left hstands
  | equivRight hrun =>
      cases hlowers with
      | equiv left right =>
          exact hinto (by simp [Expr.operands]) right
            (Local.stands (left.local context hlen).truth hstands hrun)
  | compareLeft =>
      cases hlowers with
      | compare left _ => exact hinto (by simp [Expr.operands]) left hstands
  | compareRight hrun =>
      cases hlowers with
      | compare left right =>
          exact hinto (by simp [Expr.operands]) right
            ((left.local context hlen).stands hstands hrun)
  | arithLeft =>
      cases hlowers with
      | arith left _ => exact hinto (by simp [Expr.operands]) left hstands
  | arithRight hrun =>
      cases hlowers with
      | arith left right =>
          exact hinto (by simp [Expr.operands]) right
            ((left.local context hlen).stands hstands hrun)
  | neg =>
      cases hlowers with
      | neg arg => exact hinto (by simp [Expr.operands]) arg hstands
  | condition =>
      cases hlowers with
      | ite condition _ _ => exact hinto (by simp [Expr.operands]) condition hstands
  | thenBranch hrun =>
      cases hlowers with
      | ite condition thenBranch _ =>
          exact hinto (by simp [Expr.operands]) thenBranch
            (Local.stands (condition.local context hlen).truth hstands hrun)
  | elseBranch hrun =>
      cases hlowers with
      | ite condition _ elseBranch =>
          exact hinto (by simp [Expr.operands]) elseBranch
            (Local.stands (condition.local context hlen).truth hstands hrun)
  | body iterates =>
      cases hlowers with
      | aggregate _ binds within body =>
          obtain ⟨ordinals', env', henv', hstands'⟩ := iterates.exists_denotes htypes binds within
            (fun ks hks acc => (body.local context hks).combine _ acc) henv hstands
          exact ⟨body, henv', hstands', fun p hp =>
            hinhabited p (Expr.mem_parts_iff.mpr (.inr ⟨_, by simp [Expr.operands], hp⟩))⟩
  | kronDelta =>
      cases hlowers with
      | kronDelta arg => exact hinto (by simp [Expr.operands]) arg hstands
  | diracDelta =>
      cases hlowers with
      | diracDelta arg => exact hinto (by simp [Expr.operands]) arg hstands
  | bernoulli =>
      cases hlowers with
      | bernoulli arg => exact hinto (by simp [Expr.operands]) arg hstands
  | low =>
      cases hlowers with
      | uniform low _ => exact hinto (by simp [Expr.operands]) low hstands
  | high hrun =>
      cases hlowers with
      | uniform low high =>
          exact hinto (by simp [Expr.operands]) high
            (Local.stands (low.local context hlen).real hstands hrun)

/-- Every node that is visited from a node in scope is in scope. -/
theorem Node.Visits.inScope (htypes : context.types = c.scope.types) {p q : Node × Walk}
    (h : Node.Visits context p q) (hp : Node.InScope c limit p) : Node.InScope c limit q := by
  induction h with
  | refl => exact hp
  | tail _ henters ih => exact henters.inScope htypes ih

end Scopes

/-! ## Scopes keep everything in bounds -/

theorem Walk.ordinal?_of_run {w : Walk} {a : Arg} {k : Nat}
    (h : (Eval.ordinal a).run w = (.ok k, w)) : w.ordinal? a = some k := by
  cases a with
  | object o =>
      cases h
      rfl
  | slot s =>
      rw [Eval.ordinal, Eval.slot,
        run_bind_of_ok (rfl : (get : Eval Walk).run w = (.ok w, w))] at h
      rcases hs : w.slots[s]? with _ | o
      · rw [hs] at h
        cases h
      · rw [hs] at h
        cases h
        exact hs

section Bounds

variable {d : Domain} {i : Instance} {m : Model} {c : Compiler} {s : Snapshot} {label : String}
  {bound : List Binding} {ordinals : List Nat} {env : Environment} {limit : Nat} {w : Walk}

theorem denoting_of_argFor (henv : Denotes m.types bound ordinals env)
    (hw : Stands ordinals limit w) {type : Nat} {t : Term} {a : Arg}
    (harg : ArgFor m.scope bound type t a) : (m.context s label).Denoting w type a := by
  obtain ⟨k, decl, o, hdecl, ho, hk, _⟩ := run_object henv hw harg w.sampler
  refine ⟨k, Walk.ordinal?_of_run hk, ?_⟩
  have hsize : typeSize (m.context s label).types type = decl.size := Model.typeSize_eq hdecl
  rw [hsize]
  exact (List.getElem?_eq_some_iff.mp ho).1

theorem forall₂_denoting (henv : Denotes m.types bound ordinals env)
    (hw : Stands ordinals limit w) {types : List Nat} {terms : List Term} {args : List Arg}
    (hargs : ArgsFor m.scope bound types terms args) :
    List.Forall₂ ((m.context s label).Denoting w) types args := by
  induction hargs with
  | nil => exact .nil
  | cons head _ ih => exact .cons (denoting_of_argFor henv hw head) ih

/-- Nothing that a node in scope reads or writes is out of bounds, on tables that
fit. -/
theorem Node.InScope.inBounds (h : Grounded d i m) (hscope : c.scope = m.scope)
    (hfits : s.FitsSite m c.site) {p : Node × Walk} (hp : Node.InScope c limit p) :
    (m.context s label).InBounds p.2 p.1 := by
  rcases hp with ⟨hlowers, henv, hstands, hinhabited⟩
  rw [hscope] at henv hinhabited
  cases hlowers with
  | @read bound name terms args next fluent b layer _ block readable arguments =>
      rw [hscope] at block arguments
      have hblock : b ∈ m.blocks := Array.mem_of_getElem? block
      obtain ⟨ks, names, v, hordinals, hoffset, _, hentry, hvalue⟩ :=
        run_read h hfits henv hstands block readable arguments label (Sampler.ofSeed 0)
      exact ⟨b, block, rfl, forall₂_denoting henv hstands arguments, _, hoffset,
        h.distance_lt_size hblock hordinals, v, hentry, hvalue⟩
  | same left right =>
      rw [hscope] at left right
      exact ⟨denoting_of_argFor henv hstands left.argFor,
        denoting_of_argFor henv hstands right.argFor⟩
  | differ left right =>
      rw [hscope] at left right
      exact ⟨denoting_of_argFor henv hstands left.argFor,
        denoting_of_argFor henv hstands right.argFor⟩
  | @aggregate bound bound' op vars binders e n _ binds within _ =>
      rw [hscope] at binds
      intro b hb
      have hslot : b.slot < limit := Nat.lt_of_lt_of_le (binds.slot_lt b hb) within
      refine ⟨Nat.lt_of_lt_of_le hslot hstands.room, ?_⟩
      obtain ⟨v, hv, htype⟩ := exists_of_mem_of_forall₂ binds.forall₂.flip hb
      exact hinhabited _ (Expr.mem_parts_iff.mpr (.inl rfl)) v.typeName
        (List.mem_map_of_mem hv) b.type htype
  | _ => exact trivial

end Bounds
end LiftedPomdp
