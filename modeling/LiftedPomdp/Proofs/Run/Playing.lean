import LiftedPomdp.Proofs.Ground.Overrides
import LiftedPomdp.Proofs.Run.Ledger
import LiftedPomdp.Proofs.Run.Schedule

/-!
# Playing a policy

A run resets an episode and plays a policy up to the horizon.  A policy that notes
all its choices is played like the policy itself, and its notes show how it is
called: before each step once, with the number of steps taken and the observation
of the last one, until a step is the last one or fails.
-/

namespace LiftedPomdp

open Effects Grounding

/-! ## Policies that take notes -/

namespace Policy

variable {σ : Type}

/-- What a policy is told in a call, and the action that it chooses. -/
structure Choice where
  observation : Valuation
  /-- The number of steps taken. -/
  step : Nat
  action : Action

/-- The step that a choice leads to. -/
def Choice.call (k : Choice) : Episode.Call :=
  .step k.action

/-- A policy that always chooses an action. -/
def deciding (start : σ) (choose : σ → Valuation → Nat → Action × σ) : Policy σ where
  start := start
  act := fun memory observation step => some (choose memory observation step)

/-- A policy that notes its choices beside its memory, in order. -/
def recorded (p : Policy σ) : Policy (σ × List Choice) where
  start := (p.start, [])
  act := fun memory observation step =>
    (p.act memory.1 observation step).map fun answer =>
      (answer.1, (answer.2, memory.2 ++ [⟨observation, step, answer.1⟩]))

variable {p : Policy σ} {observation : Valuation} {step : Nat} {memory : σ × List Choice}
  {action : Action}

theorem recorded_act (p : Policy σ) (memory : σ × List Choice) (observation : Valuation)
    (step : Nat) :
    p.recorded.act memory observation step =
      (p.act memory.1 observation step).map fun answer =>
        (answer.1, (answer.2, memory.2 ++ [⟨observation, step, answer.1⟩])) :=
  rfl

/-- The notes after a call are those before it and its choice. -/
theorem choices_of_recorded {memory' : σ × List Choice}
    (h : p.recorded.act memory observation step = some (action, memory')) :
    memory'.2 = memory.2 ++ [⟨observation, step, action⟩] := by
  rw [recorded_act, Option.map_eq_some_iff] at h
  obtain ⟨⟨action', next⟩, -, heq⟩ := h
  cases heq
  rfl

end Policy

/-- A playthrough without the notes of its policy. -/
def Playthrough.plain {σ : Type} (r : Playthrough (σ × List Policy.Choice)) : Playthrough σ where
  result := r.result
  memory := r.memory.1
  episode := r.episode

namespace Episode

variable {σ : Type}

/-- The answers to the steps that some choices lead to. -/
def answersTo (s : Episode) (choices : List Policy.Choice) : List (Answer StepOutcome) :=
  (history call s (choices.map Policy.Choice.call)).map (·.2)

theorem answersTo_concat (s : Episode) (choices : List Policy.Choice) (k : Policy.Choice) :
    s.answersTo (choices ++ [k]) =
      s.answersTo choices ++
        [.step ((LiftedPomdp.outcome call s (choices.map Policy.Choice.call)).step k.action).1] := by
  rw [answersTo, List.map_append, history_append, List.map_append]
  rfl

/-- An episode on the way from its start `s` to a horizon of `n` steps.  A policy has been called
before each committed step, with the number of the step and the observation before it, and is to
be shown `observation` next. -/
structure Underway (n : Nat) (seed : UInt64) (s : Episode) (choices : List Policy.Choice)
    (outcomes : List StepOutcome) (observation : Valuation) (e : Episode) : Prop where
  running : ∃ steps, Engine.Lives n e.engine steps ∧ Booked (some seed) steps outcomes e
  discount : e.discount = s.discount
  reached : e = LiftedPomdp.outcome call s (choices.map Policy.Choice.call)
  answers : s.answersTo choices = outcomes.map fun o => .step (.ok o)
  numbered : choices.map (·.step) = List.range outcomes.length
  shown : choices.map (·.observation) ++ [observation] =
    s.observation :: outcomes.map (·.observation)

namespace Underway

variable {n : Nat} {seed : UInt64} {s e e' : Episode} {choices : List Policy.Choice}
  {outcomes : List StepOutcome} {observation : Valuation} {a : Action}

theorem length_choices (h : Underway n seed s choices outcomes observation e) :
    choices.length = outcomes.length := by
  rw [← List.length_map, h.numbered, List.length_range]

theorem stepCount (h : Underway n seed s choices outcomes observation e) :
    e.engine.stepCount = outcomes.length := by
  obtain ⟨steps, -, hbooked⟩ := h.running
  rw [hbooked.stepCount, hbooked.length]

/-- What a policy is told in its next call. -/
theorem next (h : Underway n seed s choices outcomes observation e) (a : Action) :
    let k : Policy.Choice := ⟨observation, e.engine.stepCount, a⟩
    (choices ++ [k]).map (·.step) = List.range (outcomes.length + 1) ∧
      (choices ++ [k]).map (·.observation) = s.observation :: outcomes.map (·.observation) ∧
      (e.step a).2 = LiftedPomdp.outcome call s ((choices ++ [k]).map Policy.Choice.call) ∧
      s.answersTo (choices ++ [k]) =
        (outcomes.map fun o => .step (.ok o)) ++ [.step (e.step a).1] := by
  intro k
  refine ⟨?_, ?_, ?_, ?_⟩
  · rw [List.map_append, h.numbered, List.range_succ, ← h.stepCount]
    rfl
  · rw [List.map_append]
    exact h.shown
  · rw [List.map_append, outcome_append, ← h.reached]
    rfl
  · rw [answersTo_concat, h.answers, ← h.reached]

/-- A step that is committed brings an episode further on its way, and it is the last one when it
reaches the horizon. -/
theorem step_ok (h : Underway n seed s choices outcomes observation e) {o : StepOutcome}
    (hstep : e.step a = (.ok o, e')) :
    Underway n seed s (choices ++ [⟨observation, e.engine.stepCount, a⟩]) (outcomes ++ [o])
        o.observation e' ∧
      (o.done = true ↔ outcomes.length + 1 = n) ∧
        o.cumulativeReturn = e'.cumulativeReturn := by
  obtain ⟨hnumbered, hshown, hreached, hanswers⟩ := h.next a
  rw [hstep] at hreached hanswers
  obtain ⟨steps, hlives, hbooked⟩ := h.running
  obtain ⟨⟨r, engine⟩, hengine⟩ : ∃ x, e.engine.step a = x := ⟨_, rfl⟩
  cases r with
  | error f =>
      rw [step_of_error hbooked.seed hengine] at hstep
      cases hstep
  | ok t =>
      obtain ⟨w, hcommit, _⟩ := Engine.exists_commit (congrArg Prod.fst hengine)
      have hlives' := hlives.step a
      rw [hengine] at hcommit hlives'
      have hcount : engine.stepCount = e.engine.stepCount + 1 :=
        congrArg Engine.stepCount hcommit
      have hbooked' := hbooked.enter t hcount
      rw [← hbooked.outcome_eq t hcount] at hbooked'
      rw [step_of_ok hbooked.seed hengine] at hstep
      cases hstep
      refine ⟨⟨⟨steps ++ [t], hlives', hbooked'⟩, h.discount, hreached, ?_, ?_, ?_⟩, ?_, rfl⟩
      · rw [hanswers, List.map_append]
        rfl
      · rw [hnumbered, List.length_append, List.length_singleton]
      · rw [hshown, List.map_append, List.cons_append]
        rfl
      · rw [hbooked.length]
        exact hlives.done_iff (congrArg Prod.fst hengine)

/-- A step that fails is not counted. -/
theorem stepCount_of_error (h : Underway n seed s choices outcomes observation e)
    {f : Fault SimError} (hstep : e.step a = (.error f, e')) :
    e'.engine.stepCount = outcomes.length := by
  obtain ⟨steps, -, hbooked⟩ := h.running
  obtain ⟨⟨r, engine⟩, hengine⟩ : ∃ x, e.engine.step a = x := ⟨_, rfl⟩
  cases r with
  | error f' =>
      obtain ⟨scratch, hscratch⟩ := Engine.step_eq_of_error (congrArg Prod.fst hengine)
      rw [hengine] at hscratch
      obtain rfl : engine = { e.engine with scratch } := hscratch
      rw [step_of_error hbooked.seed hengine] at hstep
      cases hstep
      exact h.stepCount
  | ok t =>
      rw [step_of_ok hbooked.seed hengine] at hstep
      cases hstep

/-- The rewards of the committed steps make up the return. -/
theorem cumulativeReturn (h : Underway n seed s choices outcomes observation e) :
    e.cumulativeReturn = discountedReturn s.discount (outcomes.map (·.reward)) := by
  obtain ⟨steps, -, hbooked⟩ := h.running
  have hrewards : outcomes.map (·.reward) = steps.map (·.reward) := by
    apply List.ext_getElem?
    intro k
    rw [List.getElem?_map, List.getElem?_map, hbooked.outcome k, Option.map_map]
    rfl
  rw [hbooked.cumulativeReturn, hrewards, h.discount]

theorem isDone_iff (h : Underway n seed s choices outcomes observation e) :
    e.isDone = true ↔ outcomes.length = n := by
  obtain ⟨steps, hlives, hbooked⟩ := h.running
  rw [isDone, decide_eq_true_iff, hlives.terminated_iff, hbooked.length]

end Underway

end Episode

/-! ## Whole episodes -/

namespace Playthrough

variable {σ : Type}

/-- A playthrough from `s` by a policy that takes notes consists of the steps that it chose, and
the policy was told their numbers, the first observation, and then the observation of each of the
committed steps. -/
structure Follows (s : Episode) (outcomes : List StepOutcome)
    (r : Playthrough (σ × List Policy.Choice)) : Prop where
  episode : r.episode = outcome Episode.call s (r.memory.2.map Policy.Choice.call)
  numbered : r.memory.2.map (·.step) = List.range r.memory.2.length
  shown : r.memory.2.map (·.observation) =
    (s.observation :: outcomes.map (·.observation)).take r.memory.2.length

/-- All of `n` steps are committed, and the result is their discounted return. -/
structure Completes (n : Nat) (s : Episode) (outcomes : List StepOutcome)
    (r : Playthrough (σ × List Policy.Choice)) : Prop where
  answers : s.answersTo r.memory.2 = outcomes.map fun o => .step (.ok o)
  calls : r.memory.2.length = n
  committed : outcomes.length = n
  done : r.episode.isDone = true
  result : r.result = .ok r.episode.cumulativeReturn
  earned : r.episode.cumulativeReturn =
    discountedReturn s.discount (outcomes.map (·.reward))

/-- The first step that fails is the last one, before the horizon of `n` steps, and the result is
its error. -/
structure Stops (n : Nat) (s : Episode) (outcomes : List StepOutcome) (f : Fault SimError)
    (r : Playthrough (σ × List Policy.Choice)) : Prop where
  answers : s.answersTo r.memory.2 =
    (outcomes.map fun o => .step (.ok o)) ++ [.step (.error f)]
  calls : r.memory.2.length = outcomes.length + 1
  committed : r.episode.engine.stepCount = outcomes.length
  early : outcomes.length < n
  result : r.result = .error f

end Playthrough

namespace Episode

variable {σ : Type} {start : σ} {choose : σ → Valuation → Nat → Action × σ} {n : Nat}
  {seed : UInt64} {s e : Episode} {outcomes : List StepOutcome} {observation : Valuation}
  {memory : σ × List Policy.Choice}

/-- An episode under way that has not reached its horizon is played to its end. -/
theorem Underway.playOn (h : Underway n seed s memory.2 outcomes observation e)
    (hmore : outcomes.length < n) :
    let r := e.playOn (Policy.deciding start choose).recorded memory observation
    ∃ outcomes, r.Follows s outcomes ∧
      (r.Completes n s outcomes ∨ ∃ f, r.Stops n s outcomes f) := by
  fun_induction Episode.playOn (Policy.deciding start choose).recorded memory observation e
    generalizing outcomes with
  | case1 memory observation e hp => cases hp
  | case2 memory observation e a memory' hp f e' hstep =>
      obtain ⟨hnumbered, hshown, hreached, hanswers⟩ := h.next a
      rw [← Policy.choices_of_recorded hp, hstep] at hreached hanswers
      rw [← Policy.choices_of_recorded hp] at hnumbered hshown
      have hcalls : memory'.2.length = outcomes.length + 1 := by
        rw [← List.length_map, hnumbered, List.length_range]
      refine ⟨outcomes, ⟨hreached, hcalls ▸ hnumbered, ?_⟩, .inr ⟨f, ?_⟩⟩
      · rw [hshown, List.take_of_length_le]
        rw [hcalls, List.length_cons, List.length_map]
      · exact ⟨hanswers, hcalls, h.stepCount_of_error hstep, hmore, rfl⟩
  | case3 memory observation e a memory' hp o e' hstep hopen ih =>
      obtain ⟨hnext, hdone, _⟩ := h.step_ok hstep
      rw [← Policy.choices_of_recorded hp] at hnext
      refine ih hnext ?_
      have hnot : outcomes.length + 1 ≠ n := fun heq => by
        rw [hdone.mpr heq] at hopen
        cases hopen
      rw [List.length_append, List.length_singleton]
      omega
  | case4 memory observation e a memory' hp o e' hstep hclosed =>
      obtain ⟨hnext, hdone, hreturn⟩ := h.step_ok hstep
      rw [← Policy.choices_of_recorded hp] at hnext
      have hlast : (outcomes ++ [o]).length = n := by
        rw [List.length_append, List.length_singleton]
        exact hdone.mp (eq_true_of_ne_false hclosed)
      have hcalls := hnext.length_choices
      refine ⟨outcomes ++ [o], ⟨hnext.reached, ?_, ?_⟩, .inl ?_⟩
      · rw [hcalls]
        exact hnext.numbered
      · rw [← hnext.shown, ← List.length_map (f := Policy.Choice.observation),
          List.take_left]
      · exact ⟨hnext.answers, hcalls.trans hlast, hlast, hnext.isDone_iff.mpr hlast,
          congrArg Except.ok hreturn, hnext.cumulativeReturn⟩

end Episode

namespace Model

variable {d : Domain} {i : Instance} {m : Model} {c : EngineConfig} {e : Episode} {σ : Type}

end Model
end LiftedPomdp
