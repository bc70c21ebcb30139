import LiftedPomdp.Definition.Validation

/-!
# Distributions

What the conditional probability function of a fluent denotes: a point mass, a biased coin, or a
uniform real.  The constructors `Distribution.coin` and `Distribution.interval` check parameters.
-/

namespace LiftedPomdp

/-- A distribution over values. -/
inductive Distribution where
  /-- The point mass on a value. -/
  | kronDelta (value : Value)
  /-- The point mass on a real. -/
  | diracDelta (value : Float)
  /-- True with probability `p`. -/
  | bernoulli (p : Float)
  /-- A real from `low` up to but not including `high`. -/
  | uniform (low high : Float)
  deriving DecidableEq, Repr

namespace Distribution

/-- A biased coin, whose probability must be a finite number in the unit interval. -/
def coin (context : String) (p : Float) : Except DomainError Distribution :=
  if p.isFinite && inUnitInterval p then .ok (.bernoulli p)
  else .error (.probabilityOutOfRange p context)

/-- A uniform real, whose bounds must be finite and in order. -/
def interval (context : String) (low high : Float) : Except DomainError Distribution :=
  if !low.isFinite || !high.isFinite || decide (high ≤ low) then
    .error (.invalidBounds low high context)
  else .ok (.uniform low high)

/-- Whether sampling takes nothing from the random stream. -/
def isDeterministic : Distribution → Bool
  | .kronDelta _ | .diracDelta _ => true
  | .bernoulli _ | .uniform _ _ => false

end Distribution
end LiftedPomdp
