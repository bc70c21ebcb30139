import LiftedPomdp.Hash.Blake3
import LiftedPomdp.Run.Engine
import LiftedPomdp.Run.Policy

/-!
# Episodes

An episode drives an engine from a reset to the horizon.  It discounts the rewards, adds them up
and keeps a record of every committed step, and the digest of the episode is the hash of the
fingerprint of the model, the seed and these records.  A step that fails changes nothing of this.

`Episode.run` plays a policy from a fresh reset.  It ends because every step that it takes brings
the episode nearer to the horizon (`Episode.remaining_lt`).
-/

namespace LiftedPomdp

namespace Engine

/-- The number of steps up to the horizon. -/
def remaining (e : Engine) : Nat :=
  e.horizon - e.stepCount

/-- A step that succeeds and is not the last one brings an engine nearer to the horizon. -/
theorem remaining_lt {e e' : Engine} {a : Action} {t : Transition}
    (h : e.step a = (.ok t, e')) (more : t.done = false) : e'.remaining < e.remaining := by
  unfold step at h
  split at h
  · simp at h
  · simp at h
  · simp at h
  · split at h
    · simp at h
    · unfold stepTable at h
      split at h
      split at h
      · simp at h
      · simp only [Prod.mk.injEq, Except.ok.injEq] at h
        obtain ⟨rfl, rfl⟩ := h
        simp only [commit] at more
        simp only [remaining, commit]
        split at more
        · simp at more
        · omega

end Engine

/-- What the digest of an episode takes from a committed step. -/
structure StepRecord where
  /-- The number of the step, counted from one. -/
  step : Nat
  reward : Float
  /-- The values of all observations. -/
  observation : List Value
  deriving DecidableEq, Repr

namespace StepRecord

/-- The bytes of a record: the step, the reward and the observations. -/
def bytes (r : StepRecord) : List UInt8 :=
  Bytes.littleEndian 4 r.step ++
    (Bytes.littleEndian 8 r.reward.toBits.toNat ++ r.observation.flatMap Value.bytes)

end StepRecord

/-- What a committed step of an episode yields. -/
structure StepOutcome where
  /-- The observations of the new state. -/
  observation : Valuation
  reward : Float
  discountedReward : Float
  /-- The sum of the discounted rewards since the reset. -/
  cumulativeReturn : Float
  /-- The number of steps taken. -/
  step : Nat
  /-- Whether it was the last step. -/
  done : Bool
  deriving DecidableEq, Repr

/-- An episode. -/
structure Episode where
  engine : Engine
  discount : Float
  /-- The stream that resets take their seeds from. -/
  seeds : RandomStream
  /-- The seed of the last reset. -/
  seed : Option UInt64
  /-- The factor of the next reward. -/
  factor : Float
  /-- The sum of the discounted rewards since the reset. -/
  cumulativeReturn : Float
  /-- The steps since the reset, the last one first. -/
  records : List StepRecord

namespace Episode

/-- An episode that has not been reset yet. -/
def create (m : Model) (c : EngineConfig) : Except SimError Episode := do
  let engine ← Engine.create m c
  return {
    engine
    discount := c.discount.getD m.discount
    seeds := RandomStream.ofSeed c.seed
    seed := none
    factor := 1.0
    cumulativeReturn := 0.0
    records := [] }

/-- Starts again with a seed. -/
def resetWithSeed (e : Episode) (seed : UInt64) : Episode :=
  { e with
    engine := e.engine.reset seed
    seed := some seed
    factor := 1.0
    cumulativeReturn := 0.0
    records := [] }

/-- Starts again with the next seed. -/
def reset (e : Episode) : Episode :=
  let (seed, seeds) := e.seeds.next
  { e.resetWithSeed seed with seeds }

/-- The observations of the last step, the defaults before the first. -/
def observation (e : Episode) : Valuation :=
  e.engine.observation

/-- Whether all steps have been taken. -/
def isDone (e : Episode) : Bool :=
  decide (e.engine.phase = .terminated)

/-- Enters a committed step of the engine. -/
def enter (e : Episode) (engine : Engine) (t : Transition) : Episode :=
  { e with
    engine
    factor := e.factor * e.discount
    cumulativeReturn := e.cumulativeReturn + t.reward * e.factor
    records :=
      { step := engine.stepCount, reward := t.reward
        observation := t.observation.entries.map (·.2) } :: e.records }

/-- Takes a step. -/
def step (e : Episode) (a : Action) : Except (Fault SimError) StepOutcome × Episode :=
  match e.seed with
  | none => (.error (.error (.episodeEnded .notStarted)), e)
  | some _ =>
    match e.engine.step a with
    | (.error f, engine) => (.error f, { e with engine })
    | (.ok t, engine) =>
      let e' := e.enter engine t
      (.ok {
        observation := t.observation
        reward := t.reward
        discountedReward := t.reward * e.factor
        cumulativeReturn := e'.cumulativeReturn
        step := engine.stepCount
        done := t.done }, e')

/-- All bytes that the digest of an episode is the hash of. -/
def transcript (e : Episode) : List UInt8 :=
  match e.seed with
  | none => []
  | some seed =>
    e.engine.model.fingerprint ++
      (Bytes.littleEndian 8 seed.toNat ++ e.records.reverse.flatMap StepRecord.bytes)

/-- The digest of what has happened since the reset. -/
def digest (e : Episode) : List UInt8 :=
  Blake3.hash e.transcript

/-- A step that succeeds and is not the last one brings an episode nearer to the horizon. -/
theorem remaining_lt {e e' : Episode} {a : Action} {o : StepOutcome}
    (h : e.step a = (.ok o, e')) (more : o.done = false) :
    e'.engine.remaining < e.engine.remaining := by
  unfold step at h
  split at h
  · simp at h
  · split at h
    · simp at h
    · rename_i t engine hstep
      simp only [Prod.mk.injEq, Except.ok.injEq] at h
      obtain ⟨rfl, rfl⟩ := h
      exact Engine.remaining_lt hstep more

end Episode

/-- What is left when a policy has been played. -/
structure Playthrough (σ : Type) where
  /-- The discounted return, or what ended the episode early. -/
  result : Except (Fault SimError) Float
  /-- The memory of the policy. -/
  memory : σ
  episode : Episode

namespace Episode

/-- Plays a policy from the present state to the horizon. -/
def playOn {σ : Type} (p : Policy σ) (memory : σ) (observation : Valuation) (e : Episode) :
    Playthrough σ :=
  match p.act memory observation e.engine.stepCount with
  | none => { result := .error (.abort .policyFailed), memory, episode := e }
  | some (a, memory) =>
    match _h : e.step a with
    | (.error f, e') => { result := .error f, memory, episode := e' }
    | (.ok o, e') =>
      if _more : o.done = false then playOn p memory o.observation e'
      else { result := .ok o.cumulativeReturn, memory, episode := e' }
termination_by e.engine.remaining
decreasing_by exact remaining_lt _h _more

/-- Plays a policy from a reset with a seed to the horizon. -/
def run {σ : Type} (p : Policy σ) (seed : UInt64) (e : Episode) : Playthrough σ :=
  let e := e.resetWithSeed seed
  e.playOn p p.start e.observation

end Episode
end LiftedPomdp
