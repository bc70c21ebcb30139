import LiftedPomdp.Proofs.Ground.Extents
import LiftedPomdp.Proofs.Run.Evaluations
import LiftedPomdp.Proofs.Run.Transition

/-!
# Steps stay in bounds

Whatever has gone before an evaluation of a step, the tables fit, there are slots
for every expression, and the parameters of a function stand for the objects of
its place.  So nothing that the evaluation visits is out of bounds, and no
default ever stands in for a missing entry of a table: with other defaults the
step would be the same.
-/

namespace LiftedPomdp

open Effects Grounding

/-! ## Safe evaluations -/

/-- Nothing is out of bounds in an evaluation: it has all the slots that it asks
for, its parameters have been written to slots, and so it goes on at every node
that is visited. -/
structure Evaluation.Safe (m : Model) (x : Evaluation) : Prop where
  slots : x.body.slots ≤ x.walk.slots.size
  parameters : x.ordinals <+: x.walk.slots.toList
  inBounds : ∀ p, Node.Visits (m.context x.snapshot x.body.label) (x.body.node, x.walk) p →
    (m.context x.snapshot x.body.label).InBounds p.2 p.1

theorem Evaluation.Safe.ignoresDefaults {m : Model} {x : Evaluation} (h : x.Safe m) :
    x.IgnoresDefaults m := by
  intro default
  have hreads := Node.readsAlike_of_inBounds default h.inBounds
  exact ⟨Node.run_value_congr _ _ hreads, Node.run_distribution_congr _ _ hreads⟩

/-! ## Workspaces that fit -/

/-- A workspace with room for all that a step computes. -/
structure Equipped (m : Model) (w : Workspace) : Prop extends Roomy m w where
  observed : w.observed.size = m.groundCount .observation

namespace Work

variable {d : Domain} {i : Instance} {m : Model} {α : Type}

theorem blind_observed : Blind fun w => w.observed.size = m.groundCount .observation :=
  fun _ _ _ hw => hw

/-- What may be run beside itself leaves enough room. -/
theorem keeps_equipped {x : Work α} {Q : α → Prop} (hx : Advances m x 0 0)
    (hobserved : Keeps (fun w => w.observed.size = m.groundCount .observation) x Q) :
    Keeps (Equipped m) x fun _ => True := by
  intro w hw
  refine ⟨?_, fun _ _ => trivial⟩
  obtain ⟨r, u, _, hrun, _, hend⟩ := hx w w ⟨hw.toRoomy, hw.toRoomy, rfl, rfl, fun _ _ => rfl⟩
  have hroomy : Roomy m u := by
    rcases r with f | a
    · exact hend.1
    · exact hend.left
  rw [hrun]
  exact ⟨hroomy, hobserved.after hw.observed hrun⟩

variable (h : Grounded d i m) {cpf : Cpf} {b : FluentBlock} (hb : m.blocks[cpf.target]? = some b)

include h hb

theorem equipped_sampleGround (hcpf : cpf ∈ m.stateCpfs ++ m.observationCpfs) (s : Snapshot)
    (place : Nat) : Keeps (Equipped m) (sampleGround m s b cpf.body place) fun _ => True :=
  keeps_equipped (advances_sampleGround h hcpf hb s place)
    (keeps_sampleGround blind_observed s b cpf.body place)

theorem equipped_stepState (hcpf : cpf ∈ m.stateCpfs) (s : Snapshot) (place : Nat) :
    Keeps (Equipped m) (stepState m s b cpf.body place) fun _ => True :=
  Keeps.bind (equipped_sampleGround h hb (List.mem_append_left _ hcpf) s place) fun _ _ =>
    keeps_modify fun _ hw =>
      { next := (Array.size_setIfInBounds ..).trans hw.next
        slots := hw.slots, observed := hw.observed }

theorem equipped_stepObservation (hcpf : cpf ∈ m.observationCpfs) (nextState action : Table)
    (place : Nat) :
    Keeps (Equipped m) (stepObservation m nextState action b cpf.body place) fun _ => True :=
  Keeps.bind keeps_get fun _ _ =>
    Keeps.bind (equipped_sampleGround h hb (List.mem_append_right _ hcpf) _ place) fun _ _ =>
      keeps_modify fun _ hw =>
        { next := hw.next, slots := hw.slots
          observed := (Array.size_setIfInBounds ..).trans hw.observed }

omit h hb

theorem equipped_enforce (h : Grounded d i m) (s : Snapshot) {constraints : List Compiled}
    (hconstraints : ∀ body ∈ constraints, body ∈ m.constraints) :
    Keeps (Equipped m) (enforce m s 0 constraints) fun _ => True :=
  keeps_equipped (advances_enforce h s 0 hconstraints)
    (keeps_enforce blind_observed s 0 constraints)

theorem equipped_states (h : Grounded d i m) (s : Snapshot) :
    Keeps (Equipped m) (m.stateCpfs.forM (stepBlock m (stepState m s))) fun _ => True :=
  Keeps.forM fun _ hcpf => keeps_stepBlock fun _ hb place _ =>
    equipped_stepState h hb hcpf s place

theorem equipped_observations (h : Grounded d i m) (nextState action : Table) :
    Keeps (Equipped m) (m.observationCpfs.forM (stepBlock m (stepObservation m nextState action)))
      fun _ => True :=
  Keeps.forM fun _ hcpf => keeps_stepBlock fun _ hb place _ =>
    equipped_stepObservation h hb hcpf nextState action place

/-- What every place keeps holds when a step comes to a drawing. -/
theorem ComesTo.kept {P : Workspace → Prop} {step : FluentBlock → Compiled → Nat → Work Unit}
    {cpfs : List Cpf} {w u : Workspace} {x : Drawing} (hcomes : ComesTo m step cpfs w x u)
    (hstep : ∀ cpf ∈ cpfs, ∀ b, m.blocks[cpf.target]? = some b → ∀ place,
      Keeps P (step b cpf.body place) fun _ => True) (hw : P w) :
    x ∈ m.drawings cpfs ∧ P u := by
  obtain ⟨before, after, v, rfl, hb, hlt, hfunctions, hplaces⟩ := hcomes
  have hcpf : x.cpf ∈ before ++ x.cpf :: after := List.mem_append_right _ List.mem_cons_self
  refine ⟨Model.mem_drawings.mpr ⟨hcpf, hb, hlt⟩, ?_⟩
  have hbefore : Keeps P (before.forM (stepBlock m step)) fun _ => True :=
    Keeps.forM fun cpf hmem => keeps_stepBlock fun b hb place _ =>
      hstep cpf (List.mem_append_left _ hmem) b hb place
  have hearlier : Keeps P ((List.range x.place).forM (step x.block x.cpf.body)) fun _ => True :=
    Keeps.forM fun place _ => hstep x.cpf hcpf x.block hb place
  exact hearlier.after (hbefore.after hw hfunctions) hplaces

end Work

/-! ## Types with objects -/

theorem rowStrides_pos {sizes : List Nat} (h : ∀ n ∈ sizes, 0 < n) :
    0 < tupleCount sizes ∧ ∀ s ∈ rowStrides sizes, 0 < s := by
  induction sizes with
  | nil => exact ⟨Nat.one_pos, nofun⟩
  | cons n sizes ih =>
      rw [List.forall_mem_cons] at h
      obtain ⟨hcount, hstrides⟩ := ih h.2
      exact ⟨Nat.mul_pos h.1 hcount, List.forall_mem_cons.mpr ⟨hcount, hstrides⟩⟩

namespace Grounded

variable {d : Domain} {i : Instance} {m : Model}

theorem inhabited_of_mem_usedTypes (h : Grounded d i m) {name : String}
    (hused : name ∈ usedTypes d) : m.scope.Inhabited name := by
  intro type htype
  have hsize : typeSize m.types type = (objectsOf i name).length := h.sized name type htype
  change 0 < typeSize m.types type
  rw [hsize]
  exact List.length_pos_iff.mpr (h.objectsOf_ne_nil htype hused)

/-- The variables that the expressions of a domain bind range over types with
objects. -/
theorem inhabited_of_mem_exprs (h : Grounded d i m) {e : Expr} (he : e ∈ d.exprs) :
    ∀ p ∈ e.parts, ∀ name ∈ boundTypes p, m.scope.Inhabited name := by
  intro p hp name hname
  apply h.inhabited_of_mem_usedTypes
  exact List.mem_append_right _
    (List.mem_flatMap.mpr ⟨e, he, List.mem_flatMap.mpr ⟨p, hp, hname⟩⟩)

/-- No stride of a block is zero. -/
theorem strides_pos (h : Grounded d i m) {b : FluentBlock} (hb : b ∈ m.blocks) :
    ∀ s ∈ b.strides, 0 < s := by
  obtain ⟨f, hf, place, hplaced⟩ := h.exists_placed hb
  rw [hplaced.strides]
  refine (rowStrides_pos fun n hn => ?_).2
  obtain ⟨type, htype, rfl⟩ := List.mem_map.mp hn
  obtain ⟨p, hp, hfind⟩ := exists_of_mem_of_forall₂ hplaced.params.flip htype
  exact h.inhabited_of_mem_usedTypes (mem_usedTypes_of_param hf hp) type hfind

end Grounded

/-! ## Evaluations that are safe -/

section Safe

variable {d : Domain} {i : Instance} {m : Model} {s : Snapshot} {u : Workspace}

/-- The function of a fluent stays in bounds at a place of its block. -/
theorem safe_of_drawing (h : Grounded d i m) {x : Drawing}
    (hx : x ∈ m.drawings (m.stateCpfs ++ m.observationCpfs)) (hfits : s.Fits m)
    (hobservations : x.block.kind = .observation →
      s.observations.size = m.groundCount .observation) {u' : Workspace} (hu : Roomy m u)
    (hbound : (Work.bind 0 (x.block.ordinals x.place)).run u = (.ok (), u')) :
    Evaluation.Safe m { snapshot := s, body := x.cpf.body
                        ordinals := x.block.ordinals x.place, walk := u'.walk } := by
  -- the walk on which the function is evaluated is the one with its parameters written to slots
  obtain ⟨slots, hbind, hstands⟩ := Work.exists_bound h hx hu.slots
  obtain rfl : u' = { u with slots } := (Prod.mk.inj (hbound.symm.trans hbind)).2
  obtain ⟨hcpf, hb, hplace⟩ := Model.mem_drawings.mp hx
  obtain ⟨c, hc, b, e, hcompiled, hbody⟩ := h.exists_decl hcpf
  rw [← hbody] at hb hcpf ⊢
  obtain rfl := Option.some.inj (hb.symm.trans hcompiled.block)
  obtain ⟨compiler, bound, hscope, hsite, hlowers, henv⟩ := h.exists_lowers hcompiled hcpf hplace
  have hfits' : s.FitsSite m compiler.site :=
    { hfits with observations := fun target htarget => hobservations (hsite target htarget) }
  have hexpr : c.expr ∈ d.exprs := List.mem_append_left _ (List.mem_map_of_mem hc)
  have hslots := Model.slots_cpf_le_maxSlots hcpf
  have hleading := hstands.leading
  rw [List.reverse_reverse] at hleading
  refine ⟨Nat.le_trans hslots hstands.room, hleading, fun p hp => ?_⟩
  have hscoped : Node.InScope compiler m.maxSlots (e.cpf.body.node, _) :=
    ⟨hlowers, by rw [hscope]; exact henv, hstands,
      by rw [hscope]; exact h.inhabited_of_mem_exprs hexpr⟩
  exact (Node.Visits.inScope (by rw [hscope]; rfl) hp hscoped).inBounds h hscope hfits'

/-- An expression without parameters that may not read observations stays in
bounds. -/
theorem safe_of_compile (h : Grounded d i m) {c : Compiler} (hscope : c.scope = m.scope)
    (hsite : ∀ target, c.site ≠ .observationCpf target) {e : Expr} (he : e ∈ d.exprs)
    {body : Compiled} {reads : List Nat} (hcompile : c.compile [] e = .ok (body, reads))
    (hbody : body ∈ m.expressions) (hfits : s.Fits m) (hu : Roomy m u) :
    Evaluation.Safe m { snapshot := s, body, ordinals := [], walk := u.walk } := by
  have hslots := Model.slots_le_maxSlots hbody
  have hlowers := (Compiler.compile_spec hcompile).2 m.maxSlots hslots
  have hfits' : s.FitsSite m c.site :=
    { hfits with observations := fun target htarget => absurd htarget (hsite target) }
  refine ⟨Nat.le_trans hslots hu.slots, List.nil_prefix, fun p hp => ?_⟩
  have hscoped : Node.InScope c m.maxSlots (body.node, u.walk) :=
    ⟨hlowers, .nil, ⟨List.nil_prefix, hu.slots⟩, hscope ▸ h.inhabited_of_mem_exprs he⟩
  exact (Node.Visits.inScope (by rw [hscope]; rfl) hp hscoped).inBounds h hscope hfits'

namespace Work

variable {state action : Table} {w : Workspace} {x : Evaluation}

theorem AdvanceEvaluates.safe (h : Grounded d i m) (hstate : state.size = m.groundCount .state)
    (haction : action.size = m.groundCount .action) (hw : Equipped m w)
    (hx : AdvanceEvaluates m state action w x) : x.Safe m := by
  have hfits := h.fits_current hstate haction
  cases hx with
  | @state x u u' comes bound =>
      obtain ⟨hdrawing, hu⟩ := comes.kept
        (fun cpf hcpf b hb place => equipped_stepState h hb hcpf _ place) hw
      obtain ⟨hcpf, hb, hplace⟩ := Model.mem_drawings.mp hdrawing
      refine safe_of_drawing h (Model.mem_drawings.mpr ⟨List.mem_append_left _ hcpf, hb, hplace⟩)
        hfits (fun hkind => ?_) hu.toRoomy bound
      have hstate := (Grounded.mem_blocksOf.mp (h.mem_blocksOf_of_stateCpf hcpf hb)).2
      rw [hkind] at hstate
      cases hstate
  | @observation v x u u' states comes bound =>
      have hv := (equipped_states h _).after hw states
      obtain ⟨hdrawing, hu⟩ := comes.kept
        (fun cpf hcpf b hb place => equipped_stepObservation h hb hcpf _ _ place) hv
      obtain ⟨hcpf, hb, hplace⟩ := Model.mem_drawings.mp hdrawing
      exact safe_of_drawing h (Model.mem_drawings.mpr ⟨List.mem_append_right _ hcpf, hb, hplace⟩)
        (h.fits_observing hv.next haction u.observed) (fun _ => hu.observed) hu.toRoomy bound
  | reward states observations =>
      have hv := (equipped_states h _).after hw states
      have hu := (equipped_observations h _ _).after hv observations
      obtain ⟨reads, hreward⟩ := h.reward
      exact safe_of_compile h rfl (by simp) (List.mem_append_right _ List.mem_cons_self) hreward
        (List.mem_append_right _ List.mem_cons_self) hfits hu.toRoomy

theorem StepEvaluates.safe (h : Grounded d i m) {check : Bool}
    (hstate : state.size = m.groundCount .state) (haction : action.size = m.groundCount .action)
    (hw : Equipped m w) (hx : StepEvaluates m check state action w x) : x.Safe m := by
  cases hx with
  | @constraint before after body u _ split earlier =>
      have hbody : body ∈ m.constraints := by
        rw [split]
        exact List.mem_append_right _ List.mem_cons_self
      have hbefore : ∀ other ∈ before, other ∈ m.constraints := by
        rw [split]
        exact fun other hother => List.mem_append_left _ hother
      have hu := (equipped_enforce h _ hbefore).after hw earlier
      obtain ⟨e, he, label, reads, hcompile⟩ :=
        exists_of_mem_of_forall₂ (compileConstraints_eq_ok h.constraints).flip hbody
      exact safe_of_compile h rfl (by simp)
        (List.mem_append_right _ (List.mem_cons_of_mem _ he)) hcompile
        (List.mem_append_right _ (List.mem_cons_of_mem _ hbody))
        (h.fits_current hstate haction) hu.toRoomy
  | unchecked _ advance => exact advance.safe h hstate haction hw
  | enforced _ enforced advance =>
      exact advance.safe h hstate haction
        ((equipped_enforce h _ fun _ hbody => hbody).after hw enforced)

end Work
end Safe

/-! ## Engines -/

theorem Work.run_of_isOk {x : Work Unit} {w : Workspace} (h : (x.run w).1.isOk = true) :
    x.run w = (.ok (), (x.run w).2) := by
  rcases hrun : x.run w with ⟨f | _, u⟩
  · rw [hrun] at h
    cases h
  · rfl

namespace Lamps

/-- A new engine. -/
def engine : Engine :=
  resultOf (Engine.create model .standard) (by decide +kernel)

/-- What is seen of the last room is drawn. -/
def lastRoom : Drawing where
  cpf := model.observationCpfs.head (List.ne_nil_of_length_pos (by decide +kernel))
  block := model.blocks[4]?.get (by decide +kernel)
  place := 2

/-- What is seen of the other rooms is drawn. -/
def otherRooms (next : Table) : Work Unit :=
  (List.range 2).forM
    (Work.stepObservation model next model.defaultAction lastRoom.block lastRoom.cpf.body)

theorem comesTo_lastRoom {v u : Workspace} (h : (otherRooms v.next).run v = (.ok (), u)) :
    Work.ComesTo model (Work.stepObservation model v.next model.defaultAction)
      model.observationCpfs v lastRoom u := by
  have htarget : lastRoom.cpf.target = 4 := by decide +kernel
  have hblock : model.blocks[lastRoom.cpf.target]? = some lastRoom.block := by
    rw [htarget]
    exact (Option.some_get _).symm
  exact ⟨[], model.observationCpfs.tail, v, (List.cons_head_tail _).symm, hblock,
    by decide +kernel, rfl, h⟩

end Lamps

namespace Model

variable {d : Domain} {i : Instance} {m : Model}

/-- No evaluation of a step of a reachable engine is ever out of bounds, and with
other defaults of the fluents the step computes the same.  No stride of a block is
zero, and what is made of a place with them are ordinals of objects of the types
of the parameters. -/
theorem evaluations_inBounds (h : Model.ground d i = .ok m) :
    (∀ b ∈ m.blocks, (∀ s ∈ b.strides, 0 < s) ∧
      ∀ place < b.size, FluentBlock.InRange (b.ordinals place) (m.sizesOf b)) ∧
      ∀ (c : EngineConfig) (e : Engine), Engine.Reachable m c e → ∀ a : Action,
        (∀ x, e.Evaluates a x → x.Safe m) ∧
          ∀ table, a.resolve m = .ok table → ∀ default,
            (Work.step m e.checkConstraints e.current table).run e.workspace =
              (Work.step (m.withDefaults default) e.checkConstraints e.current table).run
                e.workspace := by
  have hg := grounded_of_ground h
  constructor
  · intro b hb
    refine ⟨hg.strides_pos hb, fun place hplace => ?_⟩
    rw [hg.size_eq hb] at hplace
    rw [hg.ordinals_eq hb]
    exact FluentBlock.ordinalsAt_inRange hplace
  · intro c e he a
    obtain ⟨hroomy, hobserved, hcurrent, haction⟩ := Engine.roomy_of_reachable hg he
    obtain rfl := (Engine.typed_of_reachable hg he).model
    have hsafe : ∀ table, a.resolve e.model = .ok table → ∀ x,
        Work.StepEvaluates e.model e.checkConstraints e.current table e.workspace x →
          x.Safe e.model :=
      fun table hresolve x hx =>
        hx.safe hg hcurrent (haction a table hresolve) { hroomy with observed := hobserved }
    constructor
    · rintro x ⟨_, table, hresolve, hx⟩
      exact hsafe table hresolve x hx
    · intro table hresolve default
      exact Work.run_step_withDefaults fun x hx => (hsafe table hresolve x hx).ignoresDefaults

/-- What is seen of the last room is evaluated after the constraints, the new state
and what is seen of the rooms before it, and the step would be the same if fluents
were one by default. -/
theorem evaluations_inBounds_lamps :
    ∃ x : Evaluation, Engine.Reachable Lamps.model .standard Lamps.engine ∧
      Lamps.engine.Evaluates Action.noop x ∧ x.ordinals = [2] ∧ x.Safe Lamps.model ∧
        (Work.step Lamps.model true Lamps.engine.current Lamps.model.defaultAction).run
            Lamps.engine.workspace =
          (Work.step (Lamps.model.withDefaults fun _ => .int 1) true Lamps.engine.current
            Lamps.model.defaultAction).run Lamps.engine.workspace := by
  have he : Engine.Reachable Lamps.model .standard Lamps.engine :=
    .create (Lamps.eq_ok_resultOf (by decide +kernel))
  have hnoop : Action.noop.resolve Lamps.model = .ok Lamps.model.defaultAction := by
    decide +kernel
  have heval : Lamps.engine.Evaluates Action.noop _ :=
    ⟨by decide +kernel, Lamps.model.defaultAction, hnoop,
      .enforced (by decide +kernel) (Work.run_of_isOk (by decide +kernel))
        (.observation (Work.run_of_isOk (by decide +kernel))
          (Lamps.comesTo_lastRoom (Work.run_of_isOk (by decide +kernel)))
          (Work.run_of_isOk (by decide +kernel)))⟩
  obtain ⟨hsafe, hstep⟩ := (evaluations_inBounds Lamps.ground_eq).2 _ _ he Action.noop
  exact ⟨_, he, heval, by decide +kernel, hsafe _ heval, hstep _ hnoop _⟩

end Model
end LiftedPomdp
