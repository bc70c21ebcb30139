import LiftedPomdp.Proofs.Eval.Reads
import LiftedPomdp.Proofs.Run.Drawing
import LiftedPomdp.Proofs.Run.Typing

/-!
# The evaluations of a step

A step evaluates the constraints, the functions at the places of their blocks
and the reward, one after the other for as long as nothing fails.
`Work.StepEvaluates` lists these evaluations, each with the tables and the walk
that it starts from.

Nothing else in a step depends on the defaults of the fluents.  So if all of its
evaluations have the same outcome with other defaults, the step has.
-/

namespace LiftedPomdp

open Effects

/-! ## Evaluations -/

/-- An expression that is evaluated on some tables from a walk, after its
parameters have been bound to some ordinals. -/
structure Evaluation where
  snapshot : Snapshot
  body : Compiled
  ordinals : List Nat
  walk : Walk

namespace Work

/-- A step that goes through functions, place by place, comes to a drawing. -/
def ComesTo (m : Model) (step : FluentBlock → Compiled → Nat → Work Unit) (cpfs : List Cpf)
    (w : Workspace) (x : Drawing) (u : Workspace) : Prop :=
  ∃ before after v, cpfs = before ++ x.cpf :: after ∧ m.blocks[x.cpf.target]? = some x.block ∧
    x.place < x.block.size ∧ (before.forM (stepBlock m step)).run w = (.ok (), v) ∧
      ((List.range x.place).forM (step x.block x.cpf.body)).run v = (.ok (), u)

/-- The evaluations of a step after its constraints. -/
inductive AdvanceEvaluates (m : Model) (state action : Table) (w : Workspace) : Evaluation → Prop
  | state {x : Drawing} {u u' : Workspace}
      (comes : ComesTo m (stepState m (.current m.nonFluents state action)) m.stateCpfs w x u)
      (bound : (bind 0 (x.block.ordinals x.place)).run u = (.ok (), u')) :
      AdvanceEvaluates m state action w
        { snapshot := .current m.nonFluents state action, body := x.cpf.body
          ordinals := x.block.ordinals x.place, walk := u'.walk }
  | observation {v : Workspace} {x : Drawing} {u u' : Workspace}
      (states : (m.stateCpfs.forM (stepBlock m
        (stepState m (.current m.nonFluents state action)))).run w = (.ok (), v))
      (comes : ComesTo m (stepObservation m v.next action) m.observationCpfs v x u)
      (bound : (bind 0 (x.block.ordinals x.place)).run u = (.ok (), u')) :
      AdvanceEvaluates m state action w
        { snapshot := .observing m.nonFluents v.next action u.observed, body := x.cpf.body
          ordinals := x.block.ordinals x.place, walk := u'.walk }
  | reward {v u : Workspace}
      (states : (m.stateCpfs.forM (stepBlock m
        (stepState m (.current m.nonFluents state action)))).run w = (.ok (), v))
      (observations : (m.observationCpfs.forM (stepBlock m
        (stepObservation m v.next action))).run v = (.ok (), u)) :
      AdvanceEvaluates m state action w
        { snapshot := .current m.nonFluents state action, body := m.reward, ordinals := []
          walk := u.walk }

/-- The evaluations of a step. -/
inductive StepEvaluates (m : Model) (check : Bool) (state action : Table) (w : Workspace) :
    Evaluation → Prop
  | constraint {before after : List Compiled} {body : Compiled} {u : Workspace}
      (checks : check = true) (split : m.constraints = before ++ body :: after)
      (earlier : (enforce m (.current m.nonFluents state action) 0 before).run w =
        (.ok (), u)) :
      StepEvaluates m check state action w
        { snapshot := .current m.nonFluents state action, body, ordinals := [], walk := u.walk }
  | unchecked {x : Evaluation} (checks : check = false)
      (advance : AdvanceEvaluates m state action w x) : StepEvaluates m check state action w x
  | enforced {u : Workspace} {x : Evaluation} (checks : check = true)
      (enforced : (enforce m (.current m.nonFluents state action) 0 m.constraints).run w =
        (.ok (), u))
      (advance : AdvanceEvaluates m state action u x) : StepEvaluates m check state action w x

end Work

/-- An engine that is asked for a step with an action makes an evaluation. -/
def Engine.Evaluates (e : Engine) (a : Action) (x : Evaluation) : Prop :=
  e.phase = .ready ∧ ∃ table, a.resolve e.model = .ok table ∧
    Work.StepEvaluates e.model e.checkConstraints e.current table e.workspace x

/-! ## Other defaults -/

/-- An evaluation has the same outcome, as a value and as a distribution, whatever
the fluents have for defaults. -/
def Evaluation.IgnoresDefaults (m : Model) (x : Evaluation) : Prop :=
  ∀ default, let c := m.context x.snapshot x.body.label
    (x.body.node.value c).run x.walk = (x.body.node.value (c.withDefaults default)).run x.walk ∧
      (x.body.node.distribution c).run x.walk =
        (x.body.node.distribution (c.withDefaults default)).run x.walk

/-- A model whose fluents have other defaults, and which is otherwise the same. -/
def Model.withDefaults (m : Model) (default : FluentBlock → Value) : Model :=
  { m with blocks := m.blocks.map fun b => b.withDefault (default b) }

namespace Work

variable {m : Model} {default : FluentBlock → Value} {w : Workspace}

theorem run_eval_congr {α : Type} {x y : Eval α} (h : x.run w.walk = y.run w.walk) :
    (eval x).run w = (eval y).run w := by
  rcases hrun : x.run w.walk with ⟨r, u⟩
  rw [run_eval hrun, run_eval (h.symm.trans hrun)]

/-- A draw depends on the defaults through its evaluation only. -/
theorem run_sampleGround_withDefaults {s : Snapshot} {b : FluentBlock} {body : Compiled}
    {place : Nat} (h : ∀ u, (bind 0 (b.ordinals place)).run w = (.ok (), u) →
      Evaluation.IgnoresDefaults m
        { snapshot := s, body, ordinals := b.ordinals place, walk := u.walk }) :
    (sampleGround m s b body place).run w =
      (sampleGround (m.withDefaults default) s (b.withDefault (default b)) body place).run w := by
  refine run_bind_congr rfl fun _ u hbound => ?_
  have hdistribution := (h u hbound default).2
  refine run_bind_congr ?_ fun _ _ _ => rfl
  exact run_eval_congr (run_bind_congr hdistribution fun _ _ _ => rfl)

/-- Two steps that go through the same functions run alike when they do so at every
drawing that they come to. -/
theorem run_stepBlocks_withDefaults {step step' : FluentBlock → Compiled → Nat → Work Unit}
    {cpfs : List Cpf} (h : ∀ x u, ComesTo m step cpfs w x u →
      (step x.block x.cpf.body x.place).run u =
        (step' (x.block.withDefault (default x.block)) x.cpf.body x.place).run u) :
    (cpfs.forM (stepBlock m step)).run w =
      (cpfs.forM (stepBlock (m.withDefaults default) step')).run w := by
  refine run_forM_congr fun before cpf after v hsplit hbefore => ?_
  have hblock : (m.withDefaults default).blocks[cpf.target]? =
      (m.blocks[cpf.target]?).map fun b => b.withDefault (default b) :=
    Array.getElem?_map ..
  rw [stepBlock, stepBlock, hblock]
  rcases hb : m.blocks[cpf.target]? with _ | b
  · rfl
  · refine run_forM_range_congr fun place hplace u hearlier => ?_
    exact h { cpf, block := b, place } u ⟨before, after, v, hsplit, hb, hplace, hbefore, hearlier⟩

theorem run_enforce_withDefaults {s : Snapshot} {n : Nat} {constraints : List Compiled}
    (h : ∀ before body after u, constraints = before ++ body :: after →
      (enforce m s n before).run w = (.ok (), u) → Evaluation.IgnoresDefaults m
        { snapshot := s, body, ordinals := [], walk := u.walk }) :
    (enforce m s n constraints).run w =
      (enforce (m.withDefaults default) s n constraints).run w := by
  induction constraints generalizing n w with
  | nil => rfl
  | cons body constraints ih =>
      have hvalue := (h [] body constraints w rfl rfl default).1
      refine run_bind_congr (run_eval_congr (Node.run_truth_congr hvalue)) fun holds u hfirst => ?_
      rcases holds
      · rfl
      · refine ih fun before body' after v hsplit hearlier => ?_
        have hbefore : (enforce m s n (body :: before)).run w = (.ok (), v) :=
          (run_bind_of_ok hfirst).trans hearlier
        exact h (body :: before) body' after v (by rw [hsplit]; rfl) hbefore

variable {state action : Table}

theorem run_advance_withDefaults
    (h : ∀ x, AdvanceEvaluates m state action w x → x.IgnoresDefaults m) :
    (advance m state action).run w = (advance (m.withDefaults default) state action).run w := by
  refine run_bind_congr (run_stepBlocks_withDefaults fun x u hcomes => ?_) fun _ v hstates => ?_
  · refine run_bind_congr ?_ fun _ _ _ => rfl
    exact run_sampleGround_withDefaults fun u' hbound => h _ (.state hcomes hbound)
  · refine run_bind_congr rfl fun _ _ hget => ?_
    cases hget
    refine run_bind_congr (run_stepBlocks_withDefaults fun x u hcomes => ?_)
      fun _ u hobservations => ?_
    · refine run_bind_congr rfl fun _ _ hget => ?_
      cases hget
      refine run_bind_congr ?_ fun _ _ _ => rfl
      exact run_sampleGround_withDefaults fun u' hbound => h _ (.observation hstates hcomes hbound)
    · have hvalue := (h _ (.reward hstates hobservations) default).1
      exact run_eval_congr (Node.run_real_congr hvalue)

/-- A step depends on the defaults through its evaluations only. -/
theorem run_step_withDefaults {check : Bool}
    (h : ∀ x, StepEvaluates m check state action w x → x.IgnoresDefaults m) :
    (step m check state action).run w =
      (step (m.withDefaults default) check state action).run w := by
  rcases check
  · exact run_advance_withDefaults fun x hx => h x (.unchecked rfl hx)
  · refine run_bind_congr (run_enforce_withDefaults fun before body after u hsplit hbefore => ?_)
      fun _ u henforced => ?_
    · exact h _ (.constraint rfl hsplit hbefore)
    · exact run_advance_withDefaults fun x hx => h x (.enforced rfl henforced hx)

end Work
end LiftedPomdp
