import LiftedPomdp.Eval.Evaluator
import LiftedPomdp.Run.Action
import LiftedPomdp.Run.Config

/-!
# The transition engine

An engine holds the state of one episode.  A step computes the next state from the current one,
then the observations from the next state, then the reward from the current state and the action,
and commits only when all of it succeeds.  A step that fails leaves the state and the random stream
as they were; only the scratch space, which no later step reads, may differ.
-/

namespace LiftedPomdp

/-- The phases in the life of an engine. -/
inductive Phase where
  /-- The initial state is not loaded yet. -/
  | initialized
  /-- The engine takes a step. -/
  | ready
  /-- A step is under way. -/
  | stepping
  /-- All steps have been taken. -/
  | terminated
  deriving DecidableEq, Repr

/-- What a committed step yields. -/
structure Transition where
  /-- The observations of the new state. -/
  observation : Valuation
  reward : Float
  /-- Whether it was the last step. -/
  done : Bool
  deriving DecidableEq, Repr

/-- Space that steps write before they read it. -/
structure Scratch where
  /-- The state that a step computes. -/
  next : Table
  /-- The ordinals of the objects that variables stand for. -/
  slots : Array Nat
  deriving DecidableEq, Repr

/-- The engine of one episode. -/
structure Engine where
  model : Model
  /-- Whether constraints are checked before a step. -/
  checkConstraints : Bool
  /-- The number of steps of an episode. -/
  horizon : Nat
  /-- The random stream. -/
  sampler : Sampler
  /-- The committed state. -/
  current : Table
  /-- The observations of the last step. -/
  observed : Table
  /-- Space for the next step. -/
  scratch : Scratch
  /-- The number of committed steps. -/
  stepCount : Nat
  phase : Phase

/-- What a step changes before it is committed. -/
structure Workspace where
  /-- The state that the step computes. -/
  next : Table
  /-- The observations that the step computes. -/
  observed : Table
  /-- The ordinals of the objects that variables stand for. -/
  slots : Array Nat
  /-- The random stream. -/
  sampler : Sampler

/-- A part of a step: it fails or has a result, and leaves a workspace behind in either case. -/
abbrev Work := ExceptT (Fault SimError) (StateM Workspace)

namespace Work

/-- Ends a step with an error. -/
def fail {α : Type} (e : SimError) : Work α :=
  throw (.error e)

/-- An evaluation as a part of a step. -/
def eval {α : Type} (e : Eval α) : Work α := do
  let w ← get
  let (r, walk) := e.run { slots := w.slots, sampler := w.sampler }
  set { w with slots := walk.slots, sampler := walk.sampler }
  match r with
  | .ok a => pure a
  | .error f => throw (f.map SimError.domain)

/-- Writes ordinals into the leading slots, from slot `s` on. -/
def bind (s : Nat) : List Nat → Work Unit
  | [] => pure ()
  | o :: os => do
    modify fun w => { w with slots := w.slots.setIfInBounds s o }
    bind (s + 1) os

/-- Writes a value of the state that the step computes. -/
def writeNext (place : Nat) (v : Value) : Work Unit :=
  modify fun w => { w with next := w.next.setIfInBounds place v }

/-- Writes a value of the observations that the step computes. -/
def writeObserved (place : Nat) (v : Value) : Work Unit :=
  modify fun w => { w with observed := w.observed.setIfInBounds place v }

/-- A sampled value brought into the range of its fluent. -/
def checked (b : FluentBlock) (label : String) (v : Value) : Work Value :=
  match v.coerce b.range with
  | some v => pure v
  | none => fail (.domain (.typeMismatch b.range v.range label))

/-- Draws a value for the ground fluent at a place of a block, counted from its start. -/
def sampleGround (m : Model) (s : Snapshot) (b : FluentBlock) (body : Compiled) (place : Nat) :
    Work Value := do
  bind 0 (b.ordinals place)
  let v ← eval (m.distribution s body >>= Eval.draw)
  checked b body.label v

/-- Draws the next value of the state fluent at a place of a block. -/
def stepState (m : Model) (s : Snapshot) (b : FluentBlock) (body : Compiled) (place : Nat) :
    Work Unit := do
  let v ← sampleGround m s b body place
  writeNext (b.offset + place) v

/-- Draws the observation at a place of a block, which may read those drawn before. -/
def stepObservation (m : Model) (nextState action : Table) (b : FluentBlock) (body : Compiled)
    (place : Nat) : Work Unit := do
  let w ← get
  let s := Snapshot.observing m.nonFluents nextState action w.observed
  let v ← sampleGround m s b body place
  writeObserved (b.offset + place) v

/-- Draws all values of one function. -/
def stepBlock (m : Model) (step : FluentBlock → Compiled → Nat → Work Unit) (cpf : Cpf) :
    Work Unit :=
  match m.blocks[cpf.target]? with
  | none => throw (.abort (.outOfRange cpf.target))
  | some b => (List.range b.size).forM (step b cpf.body)

/-- Checks constraints, which are numbered from `n` on. -/
def enforce (m : Model) (s : Snapshot) (n : Nat) : List Compiled → Work Unit
  | [] => pure ()
  | c :: cs => do
    let holds ← eval (m.truth s c)
    if holds then enforce m s (n + 1) cs
    else fail (.action (.constraintViolated n))

/-- Computes the next state, the observations and the reward. -/
def advance (m : Model) (state action : Table) : Work Float := do
  let s := Snapshot.current m.nonFluents state action
  m.stateCpfs.forM (stepBlock m (stepState m s))
  let w ← get
  m.observationCpfs.forM (stepBlock m (stepObservation m w.next action))
  eval (m.real s m.reward)

/-- A whole step up to its commitment: the constraints, where they are checked, and the
transition. -/
def step (m : Model) (check : Bool) (state action : Table) : Work Float := do
  if check then enforce m (Snapshot.current m.nonFluents state action) 0 m.constraints
  advance m state action

end Work

namespace Engine

/-- Loads the initial state and starts the random stream of a seed. -/
def reset (e : Engine) (seed : UInt64) : Engine :=
  { e with
    current := e.model.initialState
    observed := e.model.defaultObservation
    scratch := { e.scratch with next := e.model.initialState }
    sampler := Sampler.ofSeed seed
    stepCount := 0
    phase := .ready }

/-- An engine at the start of an episode. -/
def create (m : Model) (c : EngineConfig) : Except SimError Engine :=
  match c.validate with
  | .error e => .error (.config e)
  | .ok () =>
    let e : Engine :=
      { model := m
        checkConstraints := c.checkConstraints
        horizon := (c.horizon.getD m.horizon).toNat
        sampler := Sampler.ofSeed c.seed
        current := m.initialState
        observed := m.defaultObservation
        scratch := { next := m.initialState, slots := Array.replicate m.maxSlots 0 }
        stepCount := 0
        phase := .initialized }
    .ok (e.reset c.seed)

/-- The committed state. -/
def state (e : Engine) : Valuation :=
  e.model.describe .state e.current

/-- The observations of the last step, the defaults before the first. -/
def observation (e : Engine) : Valuation :=
  e.model.describe .observation e.observed

/-- The committed value of a ground state fluent. -/
def stateValue? (e : Engine) (name : String) (args : List String) : Option Value :=
  e.model.lookup? .state e.current name args

/-- The number of draws since the last reset. -/
def draws (e : Engine) : Nat :=
  e.sampler.draws

/-- The workspace that a step starts with. -/
def workspace (e : Engine) : Workspace :=
  { next := e.scratch.next, observed := e.model.defaultObservation, slots := e.scratch.slots
    sampler := e.sampler }

/-- Makes the results of a step the state of the engine. -/
def commit (e : Engine) (w : Workspace) : Engine :=
  { e with
    current := w.next
    observed := w.observed
    scratch := { next := e.current, slots := w.slots }
    sampler := w.sampler
    stepCount := e.stepCount + 1
    phase := if e.horizon ≤ e.stepCount + 1 then .terminated else .ready }

/-- Keeps the state of the engine after a step that failed. -/
def rollBack (e : Engine) (w : Workspace) : Engine :=
  { e with scratch := { next := w.next, slots := w.slots }, phase := .ready }

/-- Takes a step with a table of action fluents. -/
def stepTable (e : Engine) (action : Table) : Except (Fault SimError) Transition × Engine :=
  let (r, w) := (Work.step e.model e.checkConstraints e.current action).run e.workspace
  match r with
  | .error f => (.error f, e.rollBack w)
  | .ok reward =>
    let e' := e.commit w
    (.ok { observation := e'.observation, reward, done := decide (e'.phase = .terminated) }, e')

/-- Takes a step, unless all have been taken. -/
def step (e : Engine) (a : Action) : Except (Fault SimError) Transition × Engine :=
  match e.phase with
  | .initialized => (.error (.error (.episodeEnded .notStarted)), e)
  | .stepping => (.error (.error (.internal .reentered)), e)
  | .terminated => (.error (.error (.episodeEnded (.horizonReached e.horizon))), e)
  | .ready =>
    match a.resolve e.model with
    | .error f => (.error (f.map SimError.action), e)
    | .ok table => e.stepTable table

end Engine
end LiftedPomdp
