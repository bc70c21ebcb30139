import LiftedPomdp.Proofs.Eval.Steady
import LiftedPomdp.Proofs.Run.Reset
import LiftedPomdp.Proofs.Run.StatePhase

/-!
# Constraints only filter

A constraint in which no distribution occurs says the same of a state and an
action whatever the slots hold and wherever the random stream stands, and leaves
the stream where it is.  So an engine that checks such constraints goes on like one
that does not, or refuses the step over the first constraint that does not hold.
-/

namespace LiftedPomdp

open Effects Grounding

/-! ## Verdicts -/

/-- A closed evaluation of a steady meaning has one result, whatever the slots hold,
and leaves the random stream where it is. -/
theorem Refines.run_of_steady {α : Type} {limit : Nat} {x : Eval α} {y : Meaning α}
    {r : Except (Fault DomainError) α} (hrefines : Refines [] limit x y)
    (hlocal : Local [] limit x) (hsteady : ∀ s, y.run s = (r, s)) {walk : Walk}
    (hroom : limit ≤ walk.slots.size) :
    ∃ slots : Array Nat, limit ≤ slots.size ∧ x.run walk = (r, { walk with slots }) := by
  have hstands : Stands [] limit walk := ⟨List.nil_prefix, hroom⟩
  obtain ⟨r', after, sampler, hvalue, hmeaning, hend⟩ := hrefines walk walk.sampler ⟨hstands, rfl⟩
  obtain ⟨rfl, rfl⟩ := Prod.mk.inj (hmeaning.symm.trans (hsteady walk.sampler))
  have hsampler : after.sampler = walk.sampler := by
    cases r' with
    | error f => exact hend
    | ok a => exact hend.2
  obtain ⟨r'', left, right, hleft, -, hbeside⟩ := hlocal walk walk ⟨hstands, hstands, rfl⟩
  obtain ⟨rfl, rfl⟩ := Prod.mk.inj (hvalue.symm.trans hleft)
  have hafter : Beside [] limit after right := by
    cases r' with
    | error f => exact hbeside
    | ok a => exact hbeside
  refine ⟨after.slots, hafter.left.room, ?_⟩
  rw [hvalue, ← hsampler]

namespace Model

/-- What a compiled constraint says of a state and an action, evaluated on blank
slots from the start of a random stream. -/
def verdict (m : Model) (state action : Table) (body : Compiled) :
    Except (Fault DomainError) Bool :=
  ((m.truth (Snapshot.current m.nonFluents state action) body).run
    { slots := Array.replicate m.maxSlots 0, sampler := Sampler.ofSeed 0 }).1

/-- Whether the verdict of a compiled constraint is the one that a constraint of the
domain means, from everywhere and whatever the slots hold, at no cost to the random
stream. -/
def Judges (m : Model) (state action : Table) (e : Expr) (body : Compiled) : Prop :=
  let s := Snapshot.current m.nonFluents state action
  let w := m.world s body.label
  ∀ walk : Walk, m.maxSlots ≤ walk.slots.size →
    (∃ slots : Array Nat, m.maxSlots ≤ slots.size ∧
      (m.truth s body).run walk = (m.verdict state action body, { walk with slots })) ∧
      (w.truth (e.meaning w [])).run walk.sampler =
        (m.verdict state action body, walk.sampler)

end Model

namespace Grounded

variable {d : Domain} {i : Instance} {m : Model} {state action : Table}

/-- A constraint without distributions has one verdict. -/
theorem judges_of_compile (h : Grounded d i m) {e : Expr} {body : Compiled} {label : String}
    {reads : List Nat}
    (hcompile : Compiler.compile { scope := m.scope, site := .constraint, label } [] e =
      .ok (body, reads))
    (hbody : body ∈ m.constraints) (hpure : e.hasDistribution = false)
    (hstate : state.size = m.groundCount .state)
    (haction : action.size = m.groundCount .action) : m.Judges state action e body := by
  unfold Model.Judges
  intro s w
  have hslots : body.slots ≤ m.maxSlots :=
    Model.slots_le_maxSlots (List.mem_append_right _ (List.mem_cons_of_mem _ hbody))
  have hfits : s.FitsSite m .constraint :=
    { h.fits_current hstate haction with observations := fun _ htarget => by cases htarget }
  have hlowers := (Compiler.compile_spec hcompile).2 m.maxSlots hslots
  have hrefines : Refines [] m.maxSlots (m.truth s body) (w.truth (e.meaning w [])) :=
    (hlowers.refines h rfl hfits .nil).truth rfl
  have hlocal : Local [] m.maxSlots (m.truth s body) := (h.local_constraint hbody s).truth
  obtain ⟨r, hsteady⟩ : (w.truth (e.meaning w [])).Steady :=
    (Expr.meaning_steady w [] e (Expr.steady_of_hasDistribution hpure)).truth
  have hrun : ∀ walk : Walk, m.maxSlots ≤ walk.slots.size →
      ∃ slots : Array Nat, m.maxSlots ≤ slots.size ∧
        (m.truth s body).run walk = (r, { walk with slots }) :=
    fun walk hroom => hrefines.run_of_steady hlocal hsteady hroom
  obtain ⟨blank, -, hblank⟩ := hrun
    { slots := Array.replicate m.maxSlots 0, sampler := Sampler.ofSeed 0 }
    Array.size_replicate.ge
  have hverdict : m.verdict state action body = r := congrArg Prod.fst hblank
  intro walk hroom
  rw [hverdict]
  exact ⟨hrun walk hroom, hsteady walk.sampler⟩

/-- The constraints of a domain in which no distribution occurs have one verdict
each. -/
theorem judges (h : Grounded d i m) (hpure : ∀ e ∈ d.constraints, e.hasDistribution = false)
    (hstate : state.size = m.groundCount .state)
    (haction : action.size = m.groundCount .action) :
    List.Forall₂ (m.Judges state action) d.constraints m.constraints := by
  obtain ⟨hlength, hcompiled⟩ := List.forall₂_iff_zip.mp (compileConstraints_eq_ok h.constraints)
  refine List.forall₂_iff_zip.mpr ⟨hlength, ?_⟩
  intro e body hmem
  obtain ⟨he, hbody⟩ := List.of_mem_zip hmem
  obtain ⟨label, reads, hcompile⟩ := hcompiled hmem
  exact h.judges_of_compile hcompile hbody (hpure e he) hstate haction

end Grounded

/-! ## Checking the constraints -/

namespace Work

variable {m : Model} {state action : Table}

/-- What a constraint says does not depend on the workspace, and leaves no trace in
it but in the slots. -/
theorem run_truth {e : Expr} {body : Compiled} (hjudges : m.Judges state action e body)
    {w : Workspace} (hw : m.maxSlots ≤ w.slots.size) :
    ∃ slots : Array Nat, m.maxSlots ≤ slots.size ∧
      (eval (m.truth (Snapshot.current m.nonFluents state action) body)).run w =
        ((m.verdict state action body).mapError (·.map SimError.domain), { w with slots }) := by
  obtain ⟨⟨slots, hroom, hrun⟩, -⟩ := hjudges w.walk hw
  exact ⟨slots, hroom, run_eval hrun⟩

/-- Constraints that all hold leave no trace but in the slots. -/
theorem run_enforce_append {es : List Expr} {bodies : List Compiled}
    (hjudges : List.Forall₂ (m.Judges state action) es bodies)
    (htrue : ∀ body ∈ bodies, m.verdict state action body = .ok true) (rest : List Compiled)
    (n : Nat) {w : Workspace} (hw : m.maxSlots ≤ w.slots.size) :
    ∃ slots : Array Nat, m.maxSlots ≤ slots.size ∧
      (enforce m (Snapshot.current m.nonFluents state action) n (bodies ++ rest)).run w =
        (enforce m (Snapshot.current m.nonFluents state action) (n + bodies.length) rest).run
          { w with slots } := by
  induction hjudges generalizing n w with
  | nil => exact ⟨w.slots, hw, rfl⟩
  | @cons e body es bodies hbody _ ih =>
      rw [List.forall_mem_cons] at htrue
      obtain ⟨slots, hroom, hrun⟩ := run_truth hbody hw
      rw [htrue.1] at hrun
      obtain ⟨slots', hroom', hrest⟩ := ih htrue.2 (n + 1) (w := { w with slots }) hroom
      have hnumber : n + 1 + bodies.length = n + (bodies.length + 1) := by omega
      refine ⟨slots', hroom', ?_⟩
      rw [List.cons_append, enforce, run_bind_of_ok hrun, if_pos rfl, hrest, List.length_cons,
        hnumber]

/-- Constraints that all hold are passed. -/
theorem run_enforce_of_true {es : List Expr} {bodies : List Compiled}
    (hjudges : List.Forall₂ (m.Judges state action) es bodies)
    (htrue : ∀ body ∈ bodies, m.verdict state action body = .ok true) {w : Workspace}
    (hw : m.maxSlots ≤ w.slots.size) :
    ∃ slots : Array Nat, m.maxSlots ≤ slots.size ∧
      (enforce m (Snapshot.current m.nonFluents state action) 0 bodies).run w =
        (.ok (), { w with slots }) := by
  obtain ⟨slots, hroom, hrun⟩ := run_enforce_append hjudges htrue [] 0 hw
  rw [List.append_nil] at hrun
  exact ⟨slots, hroom, hrun⟩

/-- What the first constraint that does not hold makes of a step. -/
def refusal (n : Nat) : Except (Fault DomainError) Bool → Fault SimError
  | .ok _ => .error (.action (.constraintViolated n))
  | .error f => f.map SimError.domain

/-- The first constraint that does not hold ends the check. -/
theorem run_enforce_of_first {es : List Expr} {bodies : List Compiled}
    (hjudges : List.Forall₂ (m.Judges state action) es bodies) {n : Nat} {body : Compiled}
    (hbody : bodies[n]? = some body)
    (hbefore : ∀ b ∈ bodies.take n, m.verdict state action b = .ok true)
    (hfails : m.verdict state action body ≠ .ok true) {w : Workspace}
    (hw : m.maxSlots ≤ w.slots.size) :
    ∃ w', (enforce m (Snapshot.current m.nonFluents state action) 0 bodies).run w =
      (.error (refusal n (m.verdict state action body)), w') := by
  obtain ⟨hn, rfl⟩ := List.getElem?_eq_some_iff.mp hbody
  have hsplit : bodies.take n ++ bodies[n] :: bodies.drop (n + 1) = bodies := by
    rw [← List.drop_eq_getElem_cons hn, List.take_append_drop]
  have htaken : List.Forall₂ (m.Judges state action) (es.take n) (bodies.take n) :=
    List.forall₂_take n hjudges
  have hown : ∃ e, m.Judges state action e bodies[n] := by
    obtain ⟨e, -, he⟩ := exists_of_mem_of_forall₂ hjudges.flip (List.getElem_mem hn)
    exact ⟨e, he⟩
  obtain ⟨e, he⟩ := hown
  obtain ⟨slots, hroom, hrun⟩ :=
    run_enforce_append htaken hbefore (bodies[n] :: bodies.drop (n + 1)) 0 hw
  obtain ⟨slots', -, hfirst⟩ := run_truth he (w := { w with slots }) hroom
  have hlength : 0 + (bodies.take n).length = n := by
    rw [List.length_take]
    omega
  rw [hsplit, hlength, enforce] at hrun
  refine ⟨{ w with slots := slots' }, ?_⟩
  rw [hrun]
  cases hverdict : m.verdict state action bodies[n] with
  | error f =>
      rw [hverdict] at hfirst
      exact run_bind_of_error hfirst
  | ok b =>
      cases b with
      | true => exact absurd hverdict hfails
      | false =>
          rw [hverdict] at hfirst
          rw [run_bind_of_ok hfirst]
          rfl

end Work

/-! ## Engines that check and engines that do not -/

namespace Engine

/-- Two engines in the same place of an episode, whether they check constraints or
not and whatever they observed last. -/
structure SamePlace (e e' : Engine) : Prop where
  current : e.current = e'.current
  stepCount : e.stepCount = e'.stepCount
  horizon : e.horizon = e'.horizon
  sampler : e.sampler = e'.sampler
  phase : e.phase = e'.phase

variable {d : Domain} {i : Instance} {m : Model} {e e' : Engine} {table : Table}

/-- After a check that leaves no trace but in the slots, a step goes on as one
without a check. -/
theorem stepTable_of_enforced (h : Grounded d i m) (he : Fits m e) (he' : Fits m e')
    (hcheck : e.checkConstraints = true) (hskip : e'.checkConstraints = false)
    (hplace : e.SamePlace e') {slots : Array Nat} (hroom : m.maxSlots ≤ slots.size)
    (hpassed : (Work.enforce m (Snapshot.current m.nonFluents e.current table) 0
      m.constraints).run e.workspace = (.ok (), { e.workspace with slots })) :
    (e.stepTable table).1 = (e'.stepTable table).1 ∧
      (e.stepTable table).2.SamePlace (e'.stepTable table).2 := by
  obtain ⟨rfl, hcurrent, hnext, -⟩ := he
  obtain ⟨hmodel, -, hnext', hslots'⟩ := he'
  have halong : Alongside e.model 0 { e.workspace with slots } e'.workspace :=
    { left := ⟨hnext, hroom⟩
      right := ⟨hnext', hslots'⟩
      observed := by rw [workspace, workspace, hmodel]
      sampler := hplace.sampler
      written := fun n hn => absurd hn (Nat.not_lt_zero n) }
  obtain ⟨r, w, w', hrun, hrun', hend⟩ :=
    Work.advances_step h false e.current table _ _ halong
  have hstep : (Work.step e.model e.checkConstraints e.current table).run e.workspace = (r, w) := by
    rw [hcheck, Work.step, if_pos rfl, run_bind_of_ok hpassed]
    exact hrun
  have hstep' : (Work.step e'.model e'.checkConstraints e'.current table).run e'.workspace =
      (r, w') := by
    rw [hmodel, hskip, ← hplace.current]
    exact hrun'
  cases r with
  | error f =>
      rw [stepTable_of_error hstep, stepTable_of_error hstep']
      exact ⟨rfl, hplace.current, hplace.stepCount, hplace.horizon, hplace.sampler, rfl⟩
  | ok reward =>
      have hphase : (e.commit w).phase = (e'.commit w').phase := by
        simp only [commit, hplace.horizon, hplace.stepCount]
      have hobservation : (e.commit w).observation = (e'.commit w').observation := by
        simp only [observation, commit, hmodel, hend.observed]
      rw [stepTable_of_ok hstep, stepTable_of_ok hstep', hphase, hobservation]
      refine ⟨rfl, hend.next_eq, ?_, hplace.horizon, hend.sampler, hphase⟩
      exact congrArg (· + 1) hplace.stepCount

/-- A check that fails ends the step and leaves no trace but in the scratch
space. -/
theorem stepTable_of_refused (he : e.model = m) (hcheck : e.checkConstraints = true)
    (hready : e.phase = .ready) {f : Fault SimError} {w : Workspace}
    (hrefused : (Work.enforce m (Snapshot.current m.nonFluents e.current table) 0
      m.constraints).run e.workspace = (.error f, w)) :
    (e.stepTable table).1 = .error f ∧ (e.stepTable table).2.observable = e.observable := by
  subst he
  have hstep : (Work.step e.model e.checkConstraints e.current table).run e.workspace =
      (.error f, w) := by
    rw [hcheck, Work.step, if_pos rfl]
    exact run_bind_of_error hrefused
  rw [stepTable_of_error hstep]
  refine ⟨rfl, ?_⟩
  rw [observable, observable, rollBack, ← hready]

end Engine

/-! ## A sample without a limit on actions -/

namespace Lamps

/-- The house where any number of lamps may be toggled at once. -/
def openHouse : Instance :=
  { house with maxNonDefaultActions := none }

/-- The sample with the open house, grounded. -/
def openModel : Model :=
  { model with
    maxNonDefaultActions := none
    fingerprint := Grounding.fingerprint domain openHouse }

theorem ground_open : Model.ground domain openHouse = .ok openModel :=
  ground_of_grounded { grounded with
    instanceValid := by decide +kernel
    functions := by
      obtain ⟨entries, h⟩ := grounded.functions
      exact ⟨entries, h.compiled, h.complete, h.observations, h.states⟩
    maxNonDefaultActions := rfl
    fingerprint := by dsimp only [openModel] }

end Lamps

namespace Model

variable {d : Domain} {i : Instance} {m : Model} {c c' : EngineConfig} {e e' : Engine}
  {a : Action} {table : Table}

/-- Where no distribution occurs in the constraints of a domain, checking them is a
pure filter.  Every constraint has a verdict on a state and an action, the one that
it means, whatever the slots hold and wherever the random stream stands.  Of two
ready engines in the same place, one that checks and one that does not, both give
the same result for an action that can be resolved, and are in the same place
afterwards, if all verdicts are that the constraint holds.  Otherwise the engine
that checks refuses the step over the first other verdict, with the number of the
constraint if it does not hold and with its error if it has none, and looks as
before. -/
theorem constraints_filter (h : Model.ground d i = .ok m)
    (hpure : ∀ x ∈ d.constraints, x.hasDistribution = false)
    (he : Engine.Reachable m c e) (he' : Engine.Reachable m c' e')
    (hcheck : e.checkConstraints = true) (hskip : e'.checkConstraints = false)
    (hready : e.phase = .ready) (hplace : e.SamePlace e') (ha : a.resolve m = .ok table) :
    let verdict := m.verdict e.current table
    List.Forall₂ (m.Judges e.current table) d.constraints m.constraints ∧
      ((∀ body ∈ m.constraints, verdict body = .ok true) →
        (e.step a).1 = (e'.step a).1 ∧ (e.step a).2.SamePlace (e'.step a).2) ∧
      ∀ n body, m.constraints[n]? = some body →
        (∀ b ∈ m.constraints.take n, verdict b = .ok true) →
          (verdict body = .ok false →
            (e.step a).1 = .error (.error (.action (.constraintViolated n))) ∧
              (e.step a).2.observable = e.observable) ∧
            ∀ f, verdict body = .error f →
              (e.step a).1 = .error (f.map SimError.domain) ∧
                (e.step a).2.observable = e.observable := by
  have hg := grounded_of_ground h
  have hfits := (Engine.configured_of_reachable hg he).fits
  have hfits' := (Engine.configured_of_reachable hg he').fits
  have hroom : m.maxSlots ≤ e.workspace.slots.size := hfits.slots
  have hjudges := hg.judges hpure hfits.current (Action.typed_of_resolve hg ha).size_eq
  have hstep : ∀ {x : Engine}, x.model = m → x.phase = .ready → x.step a = x.stepTable table := by
    intro x hmodel hphase
    unfold Engine.step
    rw [hphase, hmodel, ha]
  rw [hstep hfits.model hready, hstep hfits'.model (hplace.phase.symm.trans hready)]
  intro verdict
  refine ⟨hjudges, ?_, ?_⟩
  · intro htrue
    obtain ⟨slots, hslots, hpassed⟩ := Work.run_enforce_of_true hjudges htrue hroom
    exact Engine.stepTable_of_enforced hg hfits hfits' hcheck hskip hplace hslots hpassed
  · intro n body hbody hbefore
    have hrefused : verdict body ≠ .ok true →
        (e.stepTable table).1 = .error (Work.refusal n (verdict body)) ∧
          (e.stepTable table).2.observable = e.observable := by
      intro hfails
      obtain ⟨w, hrun⟩ := Work.run_enforce_of_first hjudges hbody hbefore hfails hroom
      exact Engine.stepTable_of_refused hfits.model hcheck hready hrun
    constructor
    · intro hfalse
      rw [hfalse] at hrefused
      exact hrefused nofun
    · intro f hf
      rw [hf] at hrefused
      exact hrefused nofun

/-- Both lamps may not be toggled at once, and toggling one of them is not
affected by the check. -/
theorem constraints_filter_lamps :
    let one := Action.noop.set "toggle" ["l1"] (.bool true)
    let both := one.set "toggle" ["l0"] (.bool true)
    let unchecked := { EngineConfig.standard with checkConstraints := false }
    (∀ x ∈ Lamps.domain.constraints, x.hasDistribution = false) ∧
      ∃ e e', Engine.create Lamps.openModel .standard = .ok e ∧
        Engine.create Lamps.openModel unchecked = .ok e' ∧ e.SamePlace e' ∧
          (e.step one).1 = (e'.step one).1 ∧
            (e.step both).1 = .error (.error (.action (.constraintViolated 0))) := by
  intro one both unchecked
  have hpure : ∀ x ∈ Lamps.domain.constraints, x.hasDistribution = false := by decide +kernel
  have hc : EngineConfig.standard.validate = .ok () := by decide +kernel
  have hc' : unchecked.validate = .ok () := by decide +kernel
  obtain ⟨e, he⟩ := Engine.exists_create Lamps.openModel hc
  obtain ⟨e', he'⟩ := Engine.exists_create Lamps.openModel hc'
  obtain ⟨hcheck, hready, hcurrent⟩ : e.checkConstraints = true ∧ e.phase = .ready ∧
      e.current = Lamps.openModel.initialState := by
    rw [Engine.create, hc] at he
    cases he
    exact ⟨rfl, rfl, rfl⟩
  have hskip : e'.checkConstraints = false := by
    rw [Engine.create, hc'] at he'
    cases he'
    rfl
  have hplace : e.SamePlace e' := by
    rw [Engine.create, hc] at he
    rw [Engine.create, hc'] at he'
    cases he
    cases he'
    exact ⟨rfl, rfl, rfl, rfl, rfl⟩
  have hone : one.resolve Lamps.openModel = .ok #[.bool false, .bool true] := by decide +kernel
  have hboth : both.resolve Lamps.openModel = .ok #[.bool true, .bool true] := by decide +kernel
  have hholds : ∀ body ∈ Lamps.openModel.constraints,
      Lamps.openModel.verdict Lamps.openModel.initialState #[.bool false, .bool true] body =
        .ok true := by
    decide +kernel
  have hviolates : Lamps.openModel.constraints[0]?.map
      (Lamps.openModel.verdict Lamps.openModel.initialState #[.bool true, .bool true]) =
        some (.ok false) := by
    decide +kernel
  obtain ⟨body, hbody, hfails⟩ := Option.map_eq_some_iff.mp hviolates
  rw [← hcurrent] at hholds hfails
  obtain ⟨-, hpasses, -⟩ := constraints_filter Lamps.ground_open hpure (.create he) (.create he')
    hcheck hskip hready hplace hone
  obtain ⟨-, -, hrefuses⟩ := constraints_filter Lamps.ground_open hpure (.create he)
    (.create he') hcheck hskip hready hplace hboth
  obtain ⟨hviolated, -⟩ := (hrefuses 0 body hbody (fun _ h => nomatch h)).1 hfails
  exact ⟨hpure, e, e', he, he', hplace, (hpasses hholds).1, hviolated⟩

end Model
end LiftedPomdp
