import LiftedPomdp.Definition.Validation

/-!
# Configurations

The settings of an engine and of a batch of episodes.
-/

namespace LiftedPomdp

/-- The settings of an engine. -/
structure EngineConfig where
  /-- The seed of the first episode, and of the seeds of later ones. -/
  seed : UInt64
  /-- Whether constraints are checked before a step. -/
  checkConstraints : Bool
  /-- The number of steps of an episode, in place of that of the instance. -/
  horizon : Option UInt32
  /-- The discount, in place of that of the instance. -/
  discount : Option Float
  deriving DecidableEq, Repr

namespace EngineConfig

/-- The usual settings. -/
def standard : EngineConfig :=
  { seed := 0, checkConstraints := true, horizon := none, discount := none }

/-- An episode has at least one step, and the discount is a finite number in the unit interval. -/
def validate (c : EngineConfig) : Except ConfigError Unit := do
  if c.horizon = some 0 then throw (.notPositive "horizon_override")
  match c.discount with
  | none => pure ()
  | some d =>
    if d.isFinite && inUnitInterval d then pure ()
    else throw (.outsideUnit "discount_override" d)

end EngineConfig

/-- The settings of a batch of episodes. -/
structure BatchConfig where
  /-- How many workers run episodes. -/
  workers : UInt64
  /-- How many episodes wait for a worker at most. -/
  queueCapacity : UInt64
  /-- The seed that the seeds of all episodes come from. -/
  baseSeed : UInt64
  deriving DecidableEq, Repr

namespace BatchConfig

/-- The usual settings. -/
def standard : BatchConfig :=
  { workers := 2, queueCapacity := 64, baseSeed := 0 }

/-- There is a worker, and room for an episode. -/
def validate (c : BatchConfig) : Except ConfigError Unit := do
  if c.workers = 0 then throw (.notPositive "workers")
  if c.queueCapacity = 0 then throw (.notPositive "queue_capacity")

end BatchConfig
end LiftedPomdp
