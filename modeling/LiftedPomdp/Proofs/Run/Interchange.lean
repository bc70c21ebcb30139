import LiftedPomdp.Proofs.Ground.Lowering
import LiftedPomdp.Proofs.Run.Reset

/-!
# Interchangeable models

An engine uses a model for the layout of its tables, the tables that an episode
starts with, and the steps that it computes.  Two models that agree in these are
interchangeable: an engine over one of them that is put over the other answers
all calls as before, and so does an episode.
-/

namespace LiftedPomdp

open Effects

/-- Two models that agree in all that runs depend on. -/
structure Model.Interchangeable (m m' : Model) : Prop where
  types : m'.types = m.types
  blocks : m'.blocks = m.blocks
  initialState : m'.initialState = m.initialState
  defaultAction : m'.defaultAction = m.defaultAction
  defaultObservation : m'.defaultObservation = m.defaultObservation
  horizon : m'.horizon = m.horizon
  discount : m'.discount = m.discount
  maxNonDefaultActions : m'.maxNonDefaultActions = m.maxNonDefaultActions
  maxSlots : m'.maxSlots = m.maxSlots
  step : ∀ check state action, Work.step m' check state action = Work.step m check state action

namespace Model.Interchangeable

variable {m m' : Model}

theorem objectNames_eq (h : m.Interchangeable m') (types ordinals : List Nat) :
    m'.objectNames types ordinals = m.objectNames types ordinals := by
  induction types generalizing ordinals with
  | nil => cases ordinals <;> rfl
  | cons type types ih =>
      cases ordinals with
      | nil => rfl
      | cons o ordinals => rw [objectNames, objectNames, ih, h.types]

theorem describe_eq (h : m.Interchangeable m') (kind : FluentKind) (table : Table) :
    m'.describe kind table = m.describe kind table := by
  have hfluent : m'.groundFluent = m.groundFluent := by
    funext b place
    rw [groundFluent, groundFluent, h.objectNames_eq]
  have hfluents : m'.groundFluentsOf = m.groundFluentsOf := by
    funext b
    rw [groundFluentsOf, groundFluentsOf, hfluent]
  rw [describe, describe, groundFluents, groundFluents, hfluents, blocksOf, blocksOf, h.blocks]

theorem resolve_eq (h : m.Interchangeable m') (a : Action) : a.resolve m' = a.resolve m := by
  have hone : Action.resolveOne m' = Action.resolveOne m := by
    funext x
    rw [Action.resolveOne, Action.resolveOne, block?, block?, h.blocks, h.types]
  have hall : ∀ (as : List ActionAssignment) (seen : List Nat) (table : Table),
      Action.resolveAll m' seen table as = Action.resolveAll m seen table as := by
    intro as
    induction as with
    | nil => exact fun seen table => rfl
    | cons a as ih =>
        intro seen table
        rw [Action.resolveAll, Action.resolveAll, hone]
        simp only [ih]
  have hcount : Action.nonDefaults m' = Action.nonDefaults m := by
    funext table
    rw [Action.nonDefaults, Action.nonDefaults, h.defaultAction]
  rw [Action.resolve, Action.resolve, hall, hcount, h.defaultAction, h.maxNonDefaultActions]

end Model.Interchangeable

/-! ## Functions with the same values -/

/-- Two compiled expressions have the same value in every context. -/
def Node.SameValue (n n' : Node) : Prop :=
  ∀ c, n'.value c = n.value c

/-- Two functions of one fluent have the same values. -/
structure Cpf.Alike (f f' : Cpf) : Prop where
  target : f'.target = f.target
  body : f.body.Alike Node.SameValue f'.body

theorem Cpf.alike_self (f : Cpf) : f.Alike f :=
  ⟨rfl, fun _ => rfl, rfl, rfl⟩

namespace Model

variable (m : Model)

/-- A model with other functions of its fluents, and another fingerprint. -/
def withFunctions (stateCpfs observationCpfs : List Cpf) (fingerprint : List UInt8) : Model :=
  { m with stateCpfs, observationCpfs, fingerprint }

variable {m} {states observations : List Cpf} {fingerprint : List UInt8}

theorem maxSlots_withFunctions (hstates : List.Forall₂ Cpf.Alike m.stateCpfs states)
    (hobservations : List.Forall₂ Cpf.Alike m.observationCpfs observations) :
    (m.withFunctions states observations fingerprint).maxSlots = m.maxSlots := by
  have hslots : ∀ {fs gs : List Cpf}, List.Forall₂ Cpf.Alike fs gs →
      gs.map (·.body.slots) = fs.map (·.body.slots) := by
    intro fs gs h
    induction h with
    | nil => rfl
    | cons hfirst _ ih => rw [List.map_cons, List.map_cons, hfirst.body.slots, ih]
  have hstate := hslots hstates
  have hobservation := hslots hobservations
  simp only [withFunctions, maxSlots, expressions, List.map_append, List.map_map,
    Function.comp_def]
  rw [hstate, hobservation]

end Model

namespace Work

variable {m : Model} {states observations : List Cpf} {fingerprint : List UInt8}

/-- What is drawn for a ground fluent depends on the value of its function
only. -/
theorem sampleGround_withFunctions {body body' : Compiled} (h : body.Alike Node.SameValue body')
    (s : Snapshot) (b : FluentBlock) (place : Nat) :
    sampleGround (m.withFunctions states observations fingerprint) s b body' place =
      sampleGround m s b body place := by
  have hdraw : (m.withFunctions states observations fingerprint).distribution s body' >>=
      Eval.draw = m.distribution s body >>= Eval.draw := by
    rw [Model.distribution, Model.distribution, Node.distribution_bind_draw,
      Node.distribution_bind_draw, ← h.label]
    exact h.node (m.context s body.label)
  rw [sampleGround, sampleGround, hdraw, h.label]

theorem forM_stepBlock_withFunctions {step step' : FluentBlock → Compiled → Nat → Work Unit}
    (hstep : ∀ b body body' place, body.Alike Node.SameValue body' →
      step' b body' place = step b body place)
    {fs gs : List Cpf} (h : List.Forall₂ Cpf.Alike fs gs) :
    gs.forM (stepBlock (m.withFunctions states observations fingerprint) step') =
      fs.forM (stepBlock m step) := by
  refine forM_congr_of_forall₂ h fun f g halike => ?_
  have hbody : ∀ b, step' b g.body = step b f.body :=
    fun b => funext fun place => hstep b f.body g.body place halike.body
  simp only [stepBlock, halike.target, hbody]
  rfl

theorem enforce_withFunctions (cs : List Compiled) (s : Snapshot) (n : Nat) :
    enforce (m.withFunctions states observations fingerprint) s n cs = enforce m s n cs := by
  induction cs generalizing n with
  | nil => rfl
  | cons c cs ih =>
      simp only [enforce, ih]
      rfl

theorem advance_withFunctions (hstates : List.Forall₂ Cpf.Alike m.stateCpfs states)
    (hobservations : List.Forall₂ Cpf.Alike m.observationCpfs observations)
    (state action : Table) :
    advance (m.withFunctions states observations fingerprint) state action =
      advance m state action := by
  have hstate : ∀ s, (m.withFunctions states observations fingerprint).stateCpfs.forM
      (stepBlock (m.withFunctions states observations fingerprint)
        (stepState (m.withFunctions states observations fingerprint) s)) =
          m.stateCpfs.forM (stepBlock m (stepState m s)) := by
    intro s
    refine forM_stepBlock_withFunctions (fun b body body' place hbody => ?_) hstates
    rw [stepState, stepState, sampleGround_withFunctions hbody]
  have hobservation : ∀ next,
      (m.withFunctions states observations fingerprint).observationCpfs.forM
        (stepBlock (m.withFunctions states observations fingerprint)
          (stepObservation (m.withFunctions states observations fingerprint) next action)) =
            m.observationCpfs.forM (stepBlock m (stepObservation m next action)) := by
    intro next
    refine forM_stepBlock_withFunctions (fun b body body' place hbody => ?_) hobservations
    simp only [stepObservation, sampleGround_withFunctions hbody]
    rfl
  simp only [advance, hstate, hobservation]
  rfl

theorem step_withFunctions (hstates : List.Forall₂ Cpf.Alike m.stateCpfs states)
    (hobservations : List.Forall₂ Cpf.Alike m.observationCpfs observations) (check : Bool)
    (state action : Table) :
    step (m.withFunctions states observations fingerprint) check state action =
      step m check state action := by
  rw [step, step, enforce_withFunctions, advance_withFunctions hstates hobservations]
  rfl

end Work

/-- Functions with the same values may be exchanged. -/
theorem Model.interchangeable_withFunctions {m : Model} {states observations : List Cpf}
    (hstates : List.Forall₂ Cpf.Alike m.stateCpfs states)
    (hobservations : List.Forall₂ Cpf.Alike m.observationCpfs observations)
    (fingerprint : List UInt8) :
    m.Interchangeable (m.withFunctions states observations fingerprint) where
  types := rfl
  blocks := rfl
  initialState := rfl
  defaultAction := rfl
  defaultObservation := rfl
  horizon := rfl
  discount := rfl
  maxNonDefaultActions := rfl
  maxSlots := maxSlots_withFunctions hstates hobservations
  step := Work.step_withFunctions hstates hobservations

/-! ## Engines -/

namespace Engine

/-- An engine put over another model. -/
def withModel (e : Engine) (m : Model) : Engine :=
  { e with model := m }

variable {m : Model} {e : Engine}

theorem stepTable_model (e : Engine) (table : Table) : (e.stepTable table).2.model = e.model := by
  unfold stepTable
  split
  split
  · rfl
  · rfl

theorem call_model (e : Engine) (k : Call) : (e.call k).2.model = e.model := by
  cases k with
  | reset seed => rfl
  | step a =>
      rw [call, step]
      split
      · rfl
      · rfl
      · rfl
      · split
        · rfl
        · exact e.stepTable_model _

theorem model_of_create {c : EngineConfig} (h : create m c = .ok e) : e.model = m := by
  unfold create at h
  split at h
  · cases h
  · cases h
    rfl

theorem create_withModel {m' : Model} (h : m.Interchangeable m') (c : EngineConfig) :
    create m' c = (create m c).map (·.withModel m') := by
  unfold create
  cases c.validate with
  | error x => rfl
  | ok u =>
      simp only [h.horizon, h.maxSlots]
      exact congrArg Except.ok (by rw [reset, reset, h.initialState, h.defaultObservation]; rfl)

theorem observation_withModel (h : e.model.Interchangeable m) :
    (e.withModel m).observation = e.observation :=
  h.describe_eq .observation e.observed

theorem sight_withModel (h : e.model.Interchangeable m) : (e.withModel m).sight = e.sight := by
  have hstate : (e.withModel m).state = e.state := h.describe_eq .state e.current
  rw [sight, sight, hstate, observation_withModel h]
  rfl

theorem reset_withModel (h : e.model.Interchangeable m) (seed : UInt64) :
    (e.withModel m).reset seed = (e.reset seed).withModel m := by
  have hinitial : (e.withModel m).model.initialState = e.model.initialState := h.initialState
  have hdefault : (e.withModel m).model.defaultObservation = e.model.defaultObservation :=
    h.defaultObservation
  rw [reset, reset, hinitial, hdefault]
  rfl

theorem stepTable_withModel (h : e.model.Interchangeable m) (table : Table) :
    (e.withModel m).stepTable table =
      ((e.stepTable table).1, (e.stepTable table).2.withModel m) := by
  have hworkspace : (e.withModel m).workspace = e.workspace := by
    rw [workspace, workspace, withModel, h.defaultObservation]
  obtain ⟨r, w, hrun⟩ : ∃ r w,
      (Work.step e.model e.checkConstraints e.current table).run e.workspace = (r, w) :=
    ⟨_, _, rfl⟩
  have hrun' : (Work.step (e.withModel m).model (e.withModel m).checkConstraints
      (e.withModel m).current table).run (e.withModel m).workspace = (r, w) := by
    rw [hworkspace, ← hrun]
    exact congrArg (fun x => x.run e.workspace) (h.step _ _ _)
  cases r with
  | error f =>
      rw [stepTable_of_error hrun, stepTable_of_error hrun']
      rfl
  | ok reward =>
      have hcommit : (e.withModel m).commit w = (e.commit w).withModel m := rfl
      have hmodel : (e.commit w).model = e.model := rfl
      rw [stepTable_of_ok hrun, stepTable_of_ok hrun', hcommit,
        observation_withModel (hmodel.symm ▸ h)]
      rfl

theorem step_withModel (h : e.model.Interchangeable m) (a : Action) :
    (e.withModel m).step a = ((e.step a).1, (e.step a).2.withModel m) := by
  have hresolve : a.resolve (e.withModel m).model = a.resolve e.model := h.resolve_eq a
  have hphase : (e.withModel m).phase = e.phase := rfl
  rw [step, step, hphase, hresolve]
  cases e.phase with
  | initialized => rfl
  | stepping => rfl
  | terminated => rfl
  | ready =>
      cases a.resolve e.model with
      | error f => rfl
      | ok table => exact stepTable_withModel h table

/-- An engine answers a call over either of two interchangeable models, and
becomes the same engine but for the model. -/
theorem call_withModel (h : e.model.Interchangeable m) (k : Call) :
    (e.withModel m).call k = ((e.call k).1, (e.call k).2.withModel m) := by
  cases k with
  | reset seed =>
      have hmodel : (e.reset seed).model = e.model := rfl
      rw [call, call, reset_withModel h, observation_withModel (hmodel.symm ▸ h)]
  | step a => rw [call, call, step_withModel h]

theorem sightings_withModel {ω : Type} {look : Engine → ω} {m' : Model}
    (h : m.Interchangeable m') (hlook : ∀ e, e.model = m → look (e.withModel m') = look e)
    (he : e.model = m) (calls : List Call) :
    sightings call look (e.withModel m') calls = sightings call look e calls := by
  refine sightings_eq_of_alike (fun x y => y.model = m ∧ x = y.withModel m') ?_ ?_ ⟨he, rfl⟩
    calls
  · rintro _ y k ⟨rfl, rfl⟩
    rw [call_withModel h]
    exact ⟨rfl, y.call_model k, rfl⟩
  · rintro _ y ⟨hy, rfl⟩
    exact hlook y hy

/-- Engines over two interchangeable models cannot be told apart by looks that
do not tell the models apart. -/
theorem matching_create {ω : Type} {look : Engine → ω} {m' : Model} (h : m.Interchangeable m')
    (hlook : ∀ e, e.model = m → look (e.withModel m') = look e) (c : EngineConfig) :
    Matching (fun e e' => look e' = look e ∧ ∀ calls : List Call,
      sightings call look e' calls = sightings call look e calls)
      (create m c) (create m' c) := by
  rw [create_withModel h]
  cases he : create m c with
  | error x => exact .error x
  | ok e =>
      have hmodel := model_of_create he
      exact .ok ⟨hlook e hmodel, sightings_withModel h hlook hmodel⟩

end Engine

/-! ## Episodes -/

namespace Episode

/-- An episode put over another model. -/
def withModel (e : Episode) (m : Model) : Episode :=
  { e with engine := e.engine.withModel m }

variable {m : Model} {e : Episode}

theorem model_of_create {c : EngineConfig} (h : create m c = .ok e) : e.engine.model = m := by
  rw [create, bind_eq_ok_iff] at h
  obtain ⟨engine, hengine, h⟩ := h
  rw [pure_eq_ok_iff] at h
  subst h
  exact Engine.model_of_create hengine

theorem create_withModel {m' : Model} (h : m.Interchangeable m') (c : EngineConfig) :
    create m' c = (create m c).map (·.withModel m') := by
  rw [create, create, Engine.create_withModel h, h.discount]
  cases Engine.create m c with
  | error x => rfl
  | ok engine => rfl

theorem call_model (e : Episode) (k : Call) : (e.call k).2.engine.model = e.engine.model := by
  cases k with
  | reset => rfl
  | resetWithSeed seed => rfl
  | step a =>
      rw [call]
      obtain hseed | ⟨seed, hseed⟩ := Option.eq_none_or_eq_some e.seed
      · rw [step_of_none hseed]
      · obtain ⟨⟨r, engine⟩, hstep⟩ : ∃ o, e.engine.step a = o := ⟨_, rfl⟩
        have hmodel : engine.model = e.engine.model := by
          have hcall := e.engine.call_model (.step a)
          rwa [Engine.call, hstep] at hcall
        cases r with
        | error f => rw [step_of_error hseed hstep, ← hmodel]
        | ok t =>
            rw [step_of_ok hseed hstep, ← hmodel]
            rfl

theorem step_withModel (h : e.engine.model.Interchangeable m) (a : Action) :
    (e.withModel m).step a = ((e.step a).1, (e.step a).2.withModel m) := by
  obtain hseed | ⟨seed, hseed⟩ := Option.eq_none_or_eq_some e.seed
  · have hseed' : (e.withModel m).seed = none := hseed
    rw [step_of_none hseed, step_of_none hseed']
  · have hseed' : (e.withModel m).seed = some seed := hseed
    obtain ⟨⟨r, engine⟩, hstep⟩ : ∃ o, e.engine.step a = o := ⟨_, rfl⟩
    have hstep' := Engine.step_withModel h a
    rw [hstep] at hstep'
    cases r with
    | error f =>
        rw [step_of_error hseed hstep, step_of_error hseed' hstep']
        rfl
    | ok t =>
        rw [step_of_ok hseed hstep, step_of_ok hseed' hstep']
        rfl

/-- An episode answers a call over either of two interchangeable models, and
becomes the same episode but for the model. -/
theorem call_withModel (h : e.engine.model.Interchangeable m) (k : Call) :
    (e.withModel m).call k = ((e.call k).1, (e.call k).2.withModel m) := by
  cases k with
  | reset =>
      have hobservation : (e.reset.withModel m).observation = e.reset.observation :=
        Engine.observation_withModel (e := e.reset.engine) h
      have hreset : (e.withModel m).reset = e.reset.withModel m := by
        simp only [reset, resetWithSeed, withModel, Engine.reset_withModel h]
      rw [call, call, hreset, hobservation]
  | resetWithSeed seed =>
      have hobservation : ((e.resetWithSeed seed).withModel m).observation =
          (e.resetWithSeed seed).observation :=
        Engine.observation_withModel (e := (e.resetWithSeed seed).engine) h
      have hreset : (e.withModel m).resetWithSeed seed = (e.resetWithSeed seed).withModel m := by
        simp only [resetWithSeed, withModel, Engine.reset_withModel h]
      rw [call, call, hreset, hobservation]
  | step a => rw [call, call, step_withModel h]

theorem sightings_withModel {ω : Type} {look : Episode → ω} {m' : Model}
    (h : m.Interchangeable m') (hlook : ∀ e, e.engine.model = m → look (e.withModel m') = look e)
    (he : e.engine.model = m) (calls : List Call) :
    sightings call look (e.withModel m') calls = sightings call look e calls := by
  refine sightings_eq_of_alike (fun x y => y.engine.model = m ∧ x = y.withModel m') ?_ ?_
    ⟨he, rfl⟩ calls
  · rintro _ y k ⟨rfl, rfl⟩
    rw [call_withModel h]
    exact ⟨rfl, y.call_model k, rfl⟩
  · rintro _ y ⟨hy, rfl⟩
    exact hlook y hy

theorem matching_create {ω : Type} {look : Episode → ω} {m' : Model} (h : m.Interchangeable m')
    (hlook : ∀ e, e.engine.model = m → look (e.withModel m') = look e) (c : EngineConfig) :
    Matching (fun e e' => look e' = look e ∧ ∀ calls : List Call,
      sightings call look e' calls = sightings call look e calls)
      (create m c) (create m' c) := by
  rw [create_withModel h]
  cases he : create m c with
  | error x => exact .error x
  | ok e =>
      have hmodel := model_of_create he
      exact .ok ⟨hlook e hmodel, sightings_withModel h hlook hmodel⟩

end Episode
end LiftedPomdp
