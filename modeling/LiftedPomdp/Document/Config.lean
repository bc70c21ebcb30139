import LiftedPomdp.Json.Record
import LiftedPomdp.Run.Config

/-!
# Configurations in documents

A configuration is written as a record.  What takes the place of a number of the instance is
written as `null` where there is nothing, and may then be left out.
-/

namespace LiftedPomdp

namespace EngineConfig

/-- The settings of an engine are written as a record. -/
def toJson (c : EngineConfig) : Json :=
  .obj [("seed", .int c.seed.toNat), ("check_constraints", .bool c.checkConstraints),
    ("horizon_override", Json.ofOption (fun n => .int n.toNat) c.horizon),
    ("discount_override", Json.ofOption .real c.discount)]

/-- Reads the settings of an engine. -/
def ofJson? (j : Json) : Option EngineConfig := do
  let fields ← j.record ["seed", "check_constraints", "horizon_override", "discount_override"] 4
  let seed ← Json.field fields "seed" Json.uint64?
  let checkConstraints ← Json.field fields "check_constraints" Json.bool?
  let horizon ← Json.fieldOr fields "horizon_override" none (Json.nullable Json.uint32?)
  let discount ← Json.fieldOr fields "discount_override" none (Json.nullable Json.real?)
  return { seed, checkConstraints, horizon, discount }

end EngineConfig

namespace BatchConfig

/-- The settings of a batch are written as a record. -/
def toJson (c : BatchConfig) : Json :=
  .obj [("workers", .int c.workers.toNat), ("queue_capacity", .int c.queueCapacity.toNat),
    ("base_seed", .int c.baseSeed.toNat)]

/-- Reads the settings of a batch. -/
def ofJson? (j : Json) : Option BatchConfig := do
  let fields ← j.record ["workers", "queue_capacity", "base_seed"] 3
  let workers ← Json.field fields "workers" Json.uint64?
  let queueCapacity ← Json.field fields "queue_capacity" Json.uint64?
  let baseSeed ← Json.field fields "base_seed" Json.uint64?
  return { workers, queueCapacity, baseSeed }

end BatchConfig
end LiftedPomdp
