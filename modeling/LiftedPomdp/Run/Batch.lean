import LiftedPomdp.Run.Episode
import LiftedPomdp.Run.Host

/-!
# Batches of episodes

A batch plays a policy in many episodes of one model.  The seed of an episode depends on the base
seed of the batch and the index of the episode only.

Some workers share the episodes.  Each worker has an episode of its own, which it resets for every
index that it takes, and is lost to the batch when the policy or the engine has no answer.  A *turn*
says which worker takes which index, and the turns together make up the schedule.  The reports of
all turns are gathered in the order in which they arrive.  A batch is over when every worker is, so
that an episode that goes on for ever leaves it without an answer.
-/

namespace LiftedPomdp

/-- The discounted returns of a batch. -/
structure BatchSummary where
  /-- The return of each episode. -/
  returns : List Float
  mean : Float
  deriving DecidableEq, Repr

namespace BatchSummary

/-- The mean of some returns, zero where there are none. -/
def meanOf (returns : List Float) : Float :=
  match returns with
  | [] => 0.0
  | rs => rs.foldl (· + ·) 0.0 / Float.ofNat rs.length

/-- The summary of some returns. -/
def ofReturns (returns : List Float) : BatchSummary :=
  { returns, mean := meanOf returns }

end BatchSummary

/-- The seed of an episode of a batch. -/
def episodeSeed (base index : UInt64) : UInt64 :=
  (RandomStream.ofSeedStream base index).next.1

/-- What a worker reports of an episode. -/
structure Report where
  /-- The index of the episode. -/
  index : Nat
  /-- The discounted return, or the error that ended the episode. -/
  result : Except SimError Float

/-- A worker takes an episode. -/
structure Turn where
  /-- The place of the worker among those that are not lost. -/
  worker : Nat
  /-- The index of the episode. -/
  index : Nat
  deriving DecidableEq, Repr

/-- What comes of the turns of a schedule. -/
structure Round where
  /-- The reports of the episodes that have an answer. -/
  reports : List Report
  /-- Why the other episodes have none. -/
  aborts : List Abort
  /-- The workers that are not lost. -/
  crew : List Episode

/-- The reports gathered so far. -/
structure Gathering where
  /-- The returns by index. -/
  returns : Array (Option Float)
  /-- The error of the lowest index that has one. -/
  firstError : Option (Nat × SimError)

namespace Gathering

/-- Nothing is gathered for a number of episodes. -/
def empty (episodes : Nat) : Gathering :=
  { returns := Array.replicate episodes none, firstError := none }

/-- Whether an error at an index comes before another one. -/
def comesFirst (index : Nat) : Option (Nat × SimError) → Bool
  | none => true
  | some (i, _) => decide (index < i)

/-- Adds a report. -/
def add (g : Gathering) (r : Report) : Gathering :=
  match r.result with
  | .ok x => { g with returns := g.returns.setIfInBounds r.index (some x) }
  | .error e =>
    if comesFirst r.index g.firstError then { g with firstError := some (r.index, e) } else g

/-- The summary of a batch that has lost some workers. -/
def summary (g : Gathering) (lost : Nat) : Except SimError BatchSummary :=
  match g.firstError with
  | some (_, e) => .error e
  | none =>
    if 0 < lost then .error (.internal (.workersLost lost))
    else
      match g.returns.toList.findIdx? Option.isNone with
      | some i => .error (.internal (.noResult i))
      | none => .ok (BatchSummary.ofReturns (g.returns.toList.filterMap id))

end Gathering

/-- A batch, ready to be played. -/
structure Batch where
  /-- The episode that every worker starts with. -/
  fresh : Episode
  /-- The settings. -/
  config : BatchConfig

namespace Batch

/-- A batch of episodes of a model. -/
def create (m : Model) (engine : EngineConfig) (config : BatchConfig) : Except SimError Batch := do
  let fresh ← Episode.create m engine
  match config.validate with
  | .ok () => return { fresh, config }
  | .error e => throw (.config e)

/-- How many workers share a number of episodes; there is always one. -/
def workers (b : Batch) (episodes : Nat) : Nat :=
  min b.config.workers.toNat (max episodes 1)

/-- Asks a host for the memory and the threads of a batch. -/
def prepare (b : Batch) (host : Host) (episodes : Nat) : Except (Fault SimError) Unit := do
  host.reserve .waiting b.config.queueCapacity.toNat
  host.reserve .reports b.config.queueCapacity.toNat
  host.reserve .threads (b.workers episodes)
  host.startWorkers (b.workers episodes)
  host.feed
  host.reserve .returns episodes
  host.reserve .marks episodes

/-- The workers before the first turn. -/
def crew (b : Batch) (episodes : Nat) : List Episode :=
  List.replicate (b.workers episodes) b.fresh

/-- Takes a turn.  An episode without an answer is not reported, and its worker is lost. -/
def takeTurn {σ : Type} (p : Policy σ) (base : UInt64) (crew : List Episode) (t : Turn) : Round :=
  match crew[t.worker]? with
  | none => { reports := [], aborts := [], crew }
  | some e =>
    let played := e.run p (episodeSeed base (UInt64.ofNat t.index))
    match played.result with
    | .ok x =>
      { reports := [{ index := t.index, result := .ok x }], aborts := []
        crew := crew.set t.worker played.episode }
    | .error (.error f) =>
      { reports := [{ index := t.index, result := .error f }], aborts := []
        crew := crew.set t.worker played.episode }
    | .error (.abort a) => { reports := [], aborts := [a], crew := crew.eraseIdx t.worker }

/-- Takes some turns one after the other. -/
def takeTurns {σ : Type} (p : Policy σ) (base : UInt64) : List Turn → List Episode → Round
  | [], crew => { reports := [], aborts := [], crew }
  | t :: ts, crew =>
    let first := takeTurn p base crew t
    let rest := takeTurns p base ts first.crew
    { rest with reports := first.reports ++ rest.reports, aborts := first.aborts ++ rest.aborts }

/-- The schedule in which the first worker takes all episodes in order; when it is lost, the next
one goes on. -/
def inOrder (episodes : Nat) : List Turn :=
  (List.range episodes).map fun index => { worker := 0, index }

/-- Gathers reports in the order of their arrival. -/
def gather (episodes : Nat) (reports : List Report) : Gathering :=
  reports.foldl Gathering.add (Gathering.empty episodes)

/-- Plays a policy in a number of episodes by a schedule, with the reports arriving in some
order. -/
def playBy {σ : Type} (b : Batch) (episodes : Nat) (p : Policy σ) (turns : List Turn)
    (arrival : List Report → List Report) : Except (Fault SimError) BatchSummary :=
  let round := takeTurns p b.config.baseSeed turns (b.crew episodes)
  match round.aborts.find? Abort.isEndless with
  | some a => .error (.abort a)
  | none =>
    let gathering := gather episodes (arrival round.reports)
    (gathering.summary (b.workers episodes - round.crew.length)).mapError .error

/-- Asks a host for what a batch needs and then plays a policy by a schedule. -/
def evaluateBy {σ : Type} (b : Batch) (host : Host) (episodes : Nat) (p : Policy σ)
    (turns : List Turn) (arrival : List Report → List Report) :
    Except (Fault SimError) BatchSummary := do
  b.prepare host episodes
  b.playBy episodes p turns arrival

/-- Plays a policy in a number of episodes, in order, on an ample host. -/
def evaluate {σ : Type} (b : Batch) (episodes : Nat) (p : Policy σ) :
    Except (Fault SimError) BatchSummary :=
  b.evaluateBy .ample episodes p (inOrder episodes) id

end Batch
end LiftedPomdp
