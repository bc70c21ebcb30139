import LiftedPomdp.Proofs.Run.Simulation
import LiftedPomdp.Run.Episode

/-!
# Failed steps are invisible

Engines that differ in nothing but their scratch space give the same answers
for good, and a step that fails changes nothing but the scratch space.  So the
failed steps of a history may be left out: all other calls are answered as
before, and what can be observed at the end is the same.  The same holds of
episodes.
-/

namespace LiftedPomdp

open Effects Grounding

/-! ## Histories -/

/-- The answer to a reset is the observation after it, and the answer to a step
is its result. -/
inductive Answer (β : Type) where
  | reset (observation : Valuation)
  | step (result : Except (Fault SimError) β)

/-- Whether an answer is the error of a step. -/
def Answer.isError {β : Type} : Answer β → Bool
  | .step (.error (.error _)) => true
  | _ => false

section Histories

variable {σ κ β ω : Type}

/-- Calls made one after the other, each with its answer. -/
def history (call : σ → κ → Answer β × σ) : σ → List κ → List (κ × Answer β)
  | _, [] => []
  | s, k :: ks => (k, (call s k).1) :: history call (call s k).2 ks

/-- What calls made one after the other lead to. -/
def outcome (call : σ → κ → Answer β × σ) : σ → List κ → σ
  | s, [] => s
  | s, k :: ks => outcome call (call s k).2 ks

/-- The calls that did not fail are answered as before when they are made
without the failed ones, and what can be observed at the end is the same. -/
def FailuresInvisible (call : σ → κ → Answer β × σ) (observe : σ → ω) (s : σ) : Prop :=
  ∀ calls : List κ,
    let kept := (history call s calls).filter fun p => !p.2.isError
    history call s (kept.map (·.1)) = kept ∧
      observe (outcome call s (kept.map (·.1))) = observe (outcome call s calls)

/-- A relation that answers and successors respect, and that a failed call
leaves on one side only. -/
structure Simulates (call : σ → κ → Answer β × σ) (alike : σ → σ → Prop) : Prop where
  answer : ∀ s s' k, alike s s' → (call s k).1 = (call s' k).1
  next : ∀ s s' k, alike s s' → alike (call s k).2 (call s' k).2
  failed : ∀ s s' k, alike s s' → (call s k).1.isError = true → alike (call s k).2 s'

variable {call : σ → κ → Answer β × σ} {observe : σ → ω} {alike : σ → σ → Prop} {s s' : σ}

/-- Failed calls may be left out on one side. -/
theorem Simulates.history_filter (h : Simulates call alike) (hs : alike s s') (ks : List κ) :
    let kept := (history call s ks).filter fun p => !p.2.isError
    history call s' (kept.map (·.1)) = kept ∧
      alike (outcome call s ks) (outcome call s' (kept.map (·.1))) := by
  induction ks generalizing s s' with
  | nil => exact ⟨rfl, hs⟩
  | cons k ks ih =>
      by_cases hfail : (call s k).1.isError = true
      · -- The failed call is made on the left only.
        have hrest := ih (h.failed s s' k hs hfail)
        rw [history, List.filter_cons_of_neg (by simpa using hfail)]
        exact hrest
      · obtain ⟨hhistory, houtcome⟩ := ih (h.next s s' k hs)
        rw [history, List.filter_cons_of_pos (by simpa using hfail)]
        refine ⟨?_, houtcome⟩
        rw [List.map_cons, history, hhistory, ← h.answer s s' k hs]

theorem Simulates.failuresInvisible (h : Simulates call alike) (hs : alike s s)
    (hobserve : ∀ s s', alike s s' → observe s = observe s') :
    FailuresInvisible call observe s := by
  intro calls
  obtain ⟨hkept, halike⟩ := h.history_filter hs calls
  exact ⟨hkept, (hobserve _ _ halike).symm⟩

end Histories

/-! ## Engines -/

namespace Engine

/-- A use of an engine. -/
inductive Call where
  | reset (seed : UInt64)
  | step (a : Action)

/-- The answer to a call, and the engine after it. -/
def call (e : Engine) : Call → Answer Transition × Engine
  | .reset seed => (.reset (e.reset seed).observation, e.reset seed)
  | .step a => (.step (e.step a).1, (e.step a).2)

/-- What can be observed of an engine: all but the scratch space. -/
def observable (e : Engine) : Engine :=
  { e with scratch := { next := #[], slots := #[] } }

/-- An engine of a model whose tables and slots have the sizes that steps
need. -/
structure Fits (m : Model) (e : Engine) : Prop where
  model : e.model = m
  current : e.current.size = m.groundCount .state
  next : e.scratch.next.size = m.groundCount .state
  slots : m.maxSlots ≤ e.scratch.slots.size

/-- Engines that differ at most in their scratch space. -/
structure Alike (m : Model) (e e' : Engine) : Prop where
  left : Fits m e
  right : Fits m e'
  same : ∃ scratch, e' = { e with scratch }

variable {d : Domain} {i : Instance} {m : Model} {c : EngineConfig} {e e' : Engine}

theorem Alike.observable_eq (h : Alike m e e') : e.observable = e'.observable := by
  obtain ⟨_, _, scratch, rfl⟩ := h
  rfl

theorem Alike.phase_eq (h : Alike m e e') : e'.phase = e.phase := by
  obtain ⟨_, _, scratch, rfl⟩ := h
  rfl

theorem Alike.horizon_eq (h : Alike m e e') : e'.horizon = e.horizon := by
  obtain ⟨_, _, scratch, rfl⟩ := h
  rfl

theorem Alike.observation_eq (h : Alike m e e') : e.observation = e'.observation := by
  obtain ⟨_, _, scratch, rfl⟩ := h
  rfl

theorem Alike.refl (h : Fits m e) : Alike m e e :=
  ⟨h, h, e.scratch, rfl⟩

theorem fits_create (h : Grounded d i m) (he : Engine.create m c = .ok e) : Fits m e := by
  have hsize := h.typed_initialState.size_eq
  unfold create at he
  split at he
  · cases he
  · cases he
    exact ⟨rfl, hsize, hsize, Nat.le_of_eq Array.size_replicate.symm⟩

theorem alike_reset (h : Grounded d i m) (halike : Alike m e e') (seed : UInt64) :
    Alike m (e.reset seed) (e'.reset seed) := by
  obtain ⟨⟨rfl, _, _, hslots⟩, ⟨_, _, _, hslots'⟩, scratch, rfl⟩ := halike
  have hsize := h.typed_initialState.size_eq
  exact ⟨⟨rfl, hsize, hsize, hslots⟩, ⟨rfl, hsize, hsize, hslots'⟩, _, rfl⟩

theorem alike_stepTable (h : Grounded d i m) (halike : Alike m e e') (table : Table) :
    (e.stepTable table).1 = (e'.stepTable table).1 ∧
      Alike m (e.stepTable table).2 (e'.stepTable table).2 := by
  obtain ⟨⟨rfl, hcurrent, hnext, hslots⟩, ⟨_, _, hnext', hslots'⟩, scratch, rfl⟩ := halike
  have halong : Alongside e.model 0 e.workspace ({ e with scratch } : Engine).workspace :=
    { left := ⟨hnext, hslots⟩
      right := ⟨hnext', hslots'⟩
      observed := rfl
      sampler := rfl
      written := fun n hn => absurd hn (Nat.not_lt_zero n) }
  obtain ⟨r, w, w', hrun, hrun', hend⟩ :=
    Work.advances_step h e.checkConstraints e.current table _ _ halong
  cases r with
  | error f =>
      rw [stepTable_of_error hrun, stepTable_of_error hrun']
      obtain ⟨hleft, hright⟩ := hend
      exact ⟨rfl, ⟨rfl, hcurrent, hleft.next, hleft.slots⟩,
        ⟨rfl, hcurrent, hright.next, hright.slots⟩, _, rfl⟩
  | ok reward =>
      have hcommit : ({ e with scratch } : Engine).commit w' =
          { e.commit w with scratch := { next := e.current, slots := w'.slots } } := by
        simp only [commit, hend.next_eq, hend.observed, hend.sampler]
      rw [stepTable_of_ok hrun, stepTable_of_ok hrun', hcommit]
      exact ⟨rfl, ⟨rfl, hend.left.next, hcurrent, hend.left.slots⟩,
        ⟨rfl, hend.left.next, hcurrent, hend.right.slots⟩, _, rfl⟩

/-- Engines alike answer a step in the same way and stay alike. -/
theorem alike_step (h : Grounded d i m) (halike : Alike m e e') (a : Action) :
    (e.step a).1 = (e'.step a).1 ∧ Alike m (e.step a).2 (e'.step a).2 := by
  unfold step
  rw [halike.phase_eq, halike.horizon_eq, halike.left.model, halike.right.model]
  cases e.phase with
  | initialized => exact ⟨rfl, halike⟩
  | stepping => exact ⟨rfl, halike⟩
  | terminated => exact ⟨rfl, halike⟩
  | ready =>
      cases a.resolve m with
      | error f => exact ⟨rfl, halike⟩
      | ok table => exact alike_stepTable h halike table

theorem stepTable_eq_of_error {table : Table} {f : Fault SimError} (hready : e.phase = .ready)
    (hstep : (e.stepTable table).1 = .error f) :
    ∃ scratch, (e.stepTable table).2 = { e with scratch } := by
  obtain ⟨⟨r, w⟩, hrun⟩ : ∃ o,
      (Work.step e.model e.checkConstraints e.current table).run e.workspace = o := ⟨_, rfl⟩
  cases r with
  | error f' =>
      rw [stepTable_of_error hrun, rollBack, ← hready]
      exact ⟨_, rfl⟩
  | ok reward =>
      rw [stepTable_of_ok hrun] at hstep
      cases hstep

/-- A step that fails changes at most the scratch space. -/
theorem step_eq_of_error {a : Action} {f : Fault SimError} (hstep : (e.step a).1 = .error f) :
    ∃ scratch, (e.step a).2 = { e with scratch } := by
  unfold step at hstep ⊢
  split
  case h_4 hready =>
    rw [hready] at hstep
    cases hresolve : a.resolve e.model with
    | error f' => exact ⟨e.scratch, rfl⟩
    | ok table =>
        simp only [hresolve] at hstep ⊢
        exact stepTable_eq_of_error hready hstep
  all_goals exact ⟨e.scratch, rfl⟩

/-- An engine after a step that failed is like all that it was like before. -/
theorem alike_of_error (h : Grounded d i m) (halike : Alike m e e') {a : Action}
    {f : Fault SimError} (hstep : (e.step a).1 = .error f) : Alike m (e.step a).2 e' := by
  have hleft := (alike_step h halike a).2.left
  obtain ⟨scratch, hfailed⟩ := step_eq_of_error hstep
  obtain ⟨scratch', hsame⟩ := halike.same
  refine ⟨hleft, halike.right, scratch', ?_⟩
  rw [hsame, hfailed]

theorem alike_call (h : Grounded d i m) (halike : Alike m e e') (k : Call) :
    (e.call k).1 = (e'.call k).1 ∧ Alike m (e.call k).2 (e'.call k).2 := by
  cases k with
  | reset seed =>
      have hreset := alike_reset h halike seed
      exact ⟨congrArg Answer.reset hreset.observation_eq, hreset⟩
  | step a =>
      obtain ⟨hanswer, hstep⟩ := alike_step h halike a
      exact ⟨congrArg Answer.step hanswer, hstep⟩

theorem alike_of_isError (h : Grounded d i m) (halike : Alike m e e') {k : Call}
    (hfailed : (e.call k).1.isError = true) : Alike m (e.call k).2 e' := by
  cases k with
  | reset seed => cases hfailed
  | step a =>
      cases hstep : (e.step a).1 with
      | error f => exact alike_of_error h halike hstep
      | ok t =>
          rw [call, hstep] at hfailed
          cases hfailed

theorem simulates_alike (h : Grounded d i m) : Simulates call (Alike m) where
  answer := fun _ _ k halike => (alike_call h halike k).1
  next := fun _ _ k halike => (alike_call h halike k).2
  failed := fun _ _ _ halike hfailed => alike_of_isError h halike hfailed

end Engine

/-! ## Episodes -/

namespace Episode

/-- A use of an episode. -/
inductive Call where
  | reset
  | resetWithSeed (seed : UInt64)
  | step (a : Action)

/-- The answer to a call, and the episode after it. -/
def call (e : Episode) : Call → Answer StepOutcome × Episode
  | .reset => (.reset e.reset.observation, e.reset)
  | .resetWithSeed seed => (.reset (e.resetWithSeed seed).observation, e.resetWithSeed seed)
  | .step a => (.step (e.step a).1, (e.step a).2)

/-- What can be observed of an episode: all but the scratch space of its
engine. -/
def observable (e : Episode) : Episode :=
  { e with engine := e.engine.observable }

/-- Episodes that differ at most in the scratch space of their engines. -/
def Alike (m : Model) (e e' : Episode) : Prop :=
  ∃ engine, Engine.Alike m e.engine engine ∧ e' = { e with engine }

variable {d : Domain} {i : Instance} {m : Model} {c : EngineConfig} {e e' : Episode}

theorem Alike.observable_eq (h : Alike m e e') : e.observable = e'.observable := by
  obtain ⟨engine, hengine, rfl⟩ := h
  rw [observable, observable, hengine.observable_eq]

theorem Alike.observation_eq (h : Alike m e e') : e.observation = e'.observation := by
  obtain ⟨engine, hengine, rfl⟩ := h
  exact hengine.observation_eq

theorem Alike.digest_eq (h : Alike m e e') : e.digest = e'.digest := by
  obtain ⟨engine, hengine, rfl⟩ := h
  simp only [digest, transcript, hengine.left.model, hengine.right.model]

theorem Alike.refl (h : Engine.Fits m e.engine) : Alike m e e :=
  ⟨e.engine, .refl h, rfl⟩

theorem fits_create (h : Grounded d i m) (he : Episode.create m c = .ok e) :
    Engine.Fits m e.engine := by
  obtain ⟨engine, hengine, hcreate⟩ := bind_eq_ok_iff.mp he
  cases hcreate
  exact Engine.fits_create h hengine

theorem exists_create (m : Model) (hc : c.validate = .ok ()) :
    ∃ e, Episode.create m c = .ok e := by
  obtain ⟨engine, hengine⟩ := Engine.exists_create m hc
  unfold create
  rw [hengine]
  exact ⟨_, rfl⟩

theorem alike_resetWithSeed (h : Grounded d i m) (halike : Alike m e e') (seed : UInt64) :
    Alike m (e.resetWithSeed seed) (e'.resetWithSeed seed) := by
  obtain ⟨engine, hengine, rfl⟩ := halike
  exact ⟨_, Engine.alike_reset h hengine seed, rfl⟩

theorem alike_reset (h : Grounded d i m) (halike : Alike m e e') : Alike m e.reset e'.reset := by
  obtain ⟨engine, hengine, rfl⟩ := halike
  exact ⟨_, Engine.alike_reset h hengine e.seeds.next.1, rfl⟩

theorem step_of_none {a : Action} (hseed : e.seed = none) :
    e.step a = (.error (.error (.episodeEnded .notStarted)), e) := by
  unfold step
  rw [hseed]

theorem step_of_error {a : Action} {seed : UInt64} {f : Fault SimError} {engine : Engine}
    (hseed : e.seed = some seed) (h : e.engine.step a = (.error f, engine)) :
    e.step a = (.error f, { e with engine }) := by
  unfold step
  simp only [hseed, h]

theorem step_of_ok {a : Action} {seed : UInt64} {t : Transition} {engine : Engine}
    (hseed : e.seed = some seed) (h : e.engine.step a = (.ok t, engine)) :
    e.step a =
      (.ok { observation := t.observation, reward := t.reward
             discountedReward := t.reward * e.factor
             cumulativeReturn := (e.enter engine t).cumulativeReturn
             step := engine.stepCount, done := t.done }, e.enter engine t) := by
  unfold step
  simp only [hseed, h]

/-- Episodes alike answer a step in the same way and stay alike. -/
theorem alike_step (h : Grounded d i m) (halike : Alike m e e') (a : Action) :
    (e.step a).1 = (e'.step a).1 ∧ Alike m (e.step a).2 (e'.step a).2 := by
  obtain ⟨engine', hengine, rfl⟩ := halike
  obtain hseed | ⟨seed, hseed⟩ := Option.eq_none_or_eq_some e.seed
  · rw [step_of_none hseed, step_of_none (e := { e with engine := engine' }) hseed]
    exact ⟨rfl, engine', hengine, rfl⟩
  · obtain ⟨hanswer, hafter⟩ := Engine.alike_step h hengine a
    obtain ⟨⟨r, after⟩, hstep⟩ : ∃ o, e.engine.step a = o := ⟨_, rfl⟩
    obtain ⟨⟨r', after'⟩, hstep'⟩ : ∃ o, engine'.step a = o := ⟨_, rfl⟩
    rw [hstep, hstep'] at hanswer hafter
    obtain rfl : r = r' := hanswer
    cases r with
    | error f =>
        rw [step_of_error hseed hstep,
          step_of_error (e := { e with engine := engine' }) hseed hstep']
        exact ⟨rfl, after', hafter, rfl⟩
    | ok t =>
        rw [step_of_ok hseed hstep, step_of_ok (e := { e with engine := engine' }) hseed hstep']
        obtain ⟨scratch, rfl⟩ := hafter.same
        exact ⟨rfl, _, hafter, rfl⟩

/-- An episode after a step that failed is like all that it was like before. -/
theorem alike_of_error (h : Grounded d i m) (halike : Alike m e e') {a : Action}
    {f : Fault SimError} (hfailed : (e.step a).1 = .error f) : Alike m (e.step a).2 e' := by
  cases hseed : e.seed with
  | none =>
      rw [step_of_none hseed]
      exact halike
  | some seed =>
      obtain ⟨⟨r, after⟩, hstep⟩ : ∃ o, e.engine.step a = o := ⟨_, rfl⟩
      obtain ⟨engine', hengine, rfl⟩ := halike
      cases r with
      | error f' =>
          have hafter := Engine.alike_of_error h hengine (congrArg Prod.fst hstep)
          rw [hstep] at hafter
          rw [step_of_error hseed hstep]
          exact ⟨engine', hafter, rfl⟩
      | ok t =>
          rw [step_of_ok hseed hstep] at hfailed
          cases hfailed

theorem alike_call (h : Grounded d i m) (halike : Alike m e e') (k : Call) :
    (e.call k).1 = (e'.call k).1 ∧ Alike m (e.call k).2 (e'.call k).2 := by
  cases k with
  | reset =>
      have hreset := alike_reset h halike
      exact ⟨congrArg Answer.reset hreset.observation_eq, hreset⟩
  | resetWithSeed seed =>
      have hreset := alike_resetWithSeed h halike seed
      exact ⟨congrArg Answer.reset hreset.observation_eq, hreset⟩
  | step a =>
      obtain ⟨hanswer, hstep⟩ := alike_step h halike a
      exact ⟨congrArg Answer.step hanswer, hstep⟩

theorem alike_of_isError (h : Grounded d i m) (halike : Alike m e e') {k : Call}
    (hfailed : (e.call k).1.isError = true) : Alike m (e.call k).2 e' := by
  cases k with
  | reset => cases hfailed
  | resetWithSeed seed => cases hfailed
  | step a =>
      cases hstep : (e.step a).1 with
      | error f => exact alike_of_error h halike hstep
      | ok t =>
          rw [call, hstep] at hfailed
          cases hfailed

theorem simulates_alike (h : Grounded d i m) : Simulates call (Alike m) where
  answer := fun _ _ k halike => (alike_call h halike k).1
  next := fun _ _ k halike => (alike_call h halike k).2
  failed := fun _ _ _ halike hfailed => alike_of_isError h halike hfailed

end Episode

/-! ## Failed steps -/

namespace Model

variable {d : Domain} {i : Instance} {m : Model} {c : EngineConfig}

/-- Failed steps are invisible: to the engines of a model, up to their scratch
space, and to its episodes and their digests. -/
theorem failed_steps_invisible (h : Model.ground d i = .ok m) (hc : c.validate = .ok ()) :
    (∃ e, Engine.create m c = .ok e ∧ FailuresInvisible Engine.call Engine.observable e) ∧
      ∃ e, Episode.create m c = .ok e ∧
        FailuresInvisible Episode.call (fun e => (e.observable, e.digest)) e := by
  have hg := grounded_of_ground h
  obtain ⟨engine, hengine⟩ := Engine.exists_create m hc
  obtain ⟨episode, hepisode⟩ := Episode.exists_create m hc
  refine ⟨⟨engine, hengine, ?_⟩, ⟨episode, hepisode, ?_⟩⟩
  · exact (Engine.simulates_alike hg).failuresInvisible
      (.refl (Engine.fits_create hg hengine)) fun _ _ halike => halike.observable_eq
  · exact (Episode.simulates_alike hg).failuresInvisible
      (.refl (Episode.fits_create hg hepisode))
      fun _ _ halike => Prod.ext halike.observable_eq halike.digest_eq

/-- A lamp that does not exist cannot be toggled, and the attempt is invisible
to a step after it. -/
theorem failed_steps_invisible_lamps :
    EngineConfig.standard.validate = .ok () ∧
      ∃ e, Engine.create Lamps.model .standard = .ok e ∧
        (e.call (.step (Action.noop.set "toggle" ["l7"] (.bool true)))).1.isError = true ∧
        FailuresInvisible Engine.call Engine.observable e := by
  have hc : EngineConfig.standard.validate = .ok () := by decide +kernel
  obtain ⟨⟨e, he, hinvisible⟩, _⟩ := failed_steps_invisible Lamps.ground_eq hc
  have hcreate := he
  cases hcreate
  refine ⟨hc, _, he, ?_, hinvisible⟩
  decide +kernel

end Model
end LiftedPomdp
