import LiftedPomdp.Ground.Fluent
import LiftedPomdp.Run.Action

/-!
# Policies

A policy chooses an action from the last observation and the number of steps taken.  It may keep a
memory of its own from step to step, and it may give no action at all, which ends the episode
without an answer.
-/

namespace LiftedPomdp

/-- A policy with a memory of type `σ`. -/
structure Policy (σ : Type) where
  /-- The memory before the first step. -/
  start : σ
  /-- The action for an observation and a number of steps taken, and the memory after it. -/
  act : σ → Valuation → Nat → Option (Action × σ)

/-- An action to take when a ground fluent is observed to be true. -/
structure Policy.Rule where
  condition : GroundFluent
  action : Action
  deriving DecidableEq, Repr

namespace Policy

/-- A policy without memory. -/
def memoryless (choose : Valuation → Nat → Option Action) : Policy Unit :=
  { start := (), act := fun _ observation step => (choose observation step).map fun a => (a, ()) }

/-- Always the same action. -/
def constant (a : Action) : Policy Unit :=
  memoryless fun _ _ => some a

/-- Some actions in turn, over and over; no actions at all give none. -/
def cycle (actions : List Action) : Policy Unit :=
  memoryless fun _ step => actions[step % actions.length]?

/-- Whether the condition of a rule is observed to be true. -/
def Rule.applies (observation : Valuation) (r : Rule) : Bool :=
  observation.isTrue? r.condition.name r.condition.args == some true

/-- The action of the first rule that applies, and another action where none does. -/
def byRules (rules : List Rule) (otherwise : Action) : Policy Unit :=
  memoryless fun observation _ =>
    match rules.find? (Rule.applies observation) with
    | some r => some r.action
    | none => some otherwise

/-- A policy that gives no action once a certain number of steps has been taken. -/
def failingAt {σ : Type} (step : Nat) (p : Policy σ) : Policy σ :=
  { p with act := fun s observation n => if n = step then none else p.act s observation n }

end Policy
end LiftedPomdp
