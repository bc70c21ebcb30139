import LiftedPomdp.Proofs.Run.Lifecycle
import LiftedPomdp.Proofs.Run.Reset

/-!
# The ledger of an episode

An episode keeps a factor, a sum and a transcript beside its engine.  All of
them are determined by the steps that the engine has committed since the last
reset, taken in order, and by the seed of that reset: the factor is the power
of the discount, the sum is the discounted return, and the transcript is the
fingerprint and the seed followed by the number, the reward and the
observations of each step.  Steps that fail leave no trace.
-/

namespace LiftedPomdp

open Effects Grounding

/-! ## Calls made one after the other -/

section Histories

variable {σ κ β : Type} {call : σ → κ → Answer β × σ}

theorem outcome_append (s : σ) (ks ks' : List κ) :
    outcome call s (ks ++ ks') = outcome call (outcome call s ks) ks' := by
  induction ks generalizing s with
  | nil => rfl
  | cons k ks ih => exact ih _

theorem history_append (s : σ) (ks ks' : List κ) :
    history call s (ks ++ ks') =
      history call s ks ++ history call (outcome call s ks) ks' := by
  induction ks generalizing s with
  | nil => rfl
  | cons k ks ih => exact congrArg _ (ih _)

end Histories

/-! ## What a ledger holds -/

/-- The factor of the reward of the step with index `i`. -/
def factorAt (discount : Float) : Nat → Float
  | 0 => 1.0
  | i + 1 => factorAt discount i * discount

/-- The discounted return of some rewards, added up from the first on. -/
def discountedReturn (discount : Float) (rewards : List Float) : Float :=
  (rewards.zipIdx).foldl (fun sum r => sum + r.1 * factorAt discount r.2) 0.0

theorem discountedReturn_append (discount : Float) (rewards : List Float) (r : Float) :
    discountedReturn discount (rewards ++ [r]) =
      discountedReturn discount rewards + r * factorAt discount rewards.length := by
  unfold discountedReturn
  rw [List.zipIdx_append, List.foldl_append]
  simp only [List.zipIdx_singleton, List.foldl_cons, List.foldl_nil, Nat.zero_add]

/-- The outcome of the step with index `i` among the steps of an episode. -/
def outcomeAt (discount : Float) (steps : List Transition) (i : Nat) (t : Transition) :
    StepOutcome where
  observation := t.observation
  reward := t.reward
  discountedReward := t.reward * factorAt discount i
  cumulativeReturn := discountedReturn discount ((steps.take (i + 1)).map (·.reward))
  step := i + 1
  done := t.done

/-- The bytes that the step with index `i` adds to the transcript. -/
def stepBytes (i : Nat) (t : Transition) : List UInt8 :=
  Bytes.littleEndian 4 (i + 1) ++
    (Bytes.littleEndian 8 t.reward.toBits.toNat ++
      t.observation.entries.flatMap fun entry => entry.2.bytes)

/-- The transcript of an episode with a fingerprint: nothing before the first
reset, then the fingerprint, the seed and the steps. -/
def transcriptOf (fingerprint : List UInt8) (seed : Option UInt64) (steps : List Transition) :
    List UInt8 :=
  match seed with
  | none => []
  | some s =>
    fingerprint ++ (Bytes.littleEndian 8 s.toNat ++ (steps.mapIdx stepBytes).flatten)

namespace Engine

/-- The seed of the last reset among some calls, `seed` where there is none. -/
def lastSeed (seed : Option UInt64) (calls : List Call) : Option UInt64 :=
  calls.foldl (fun seed k => match k with
    | .reset s => some s
    | .step _ => seed) seed

theorem ready_of_ok {e : Engine} {a : Action} {t : Transition} (h : (e.step a).1 = .ok t) :
    e.phase = .ready := by
  unfold step at h
  split at h
  case h_4 hready => exact hready
  all_goals cases h

/-- A step that succeeds commits what it has computed. -/
theorem exists_commit {e : Engine} {a : Action} {t : Transition} (h : (e.step a).1 = .ok t) :
    ∃ w, (e.step a).2 = e.commit w ∧ t.observation = (e.commit w).observation := by
  rcases step_cases (ready_of_ok h) a with ⟨f, scratch, _, hstep⟩ | ⟨w, reward, hstep⟩
  · rw [hstep] at h
    cases h
  · rw [hstep] at h ⊢
    cases h
    exact ⟨w, rfl, rfl⟩

end Engine

namespace Episode

/-- The calls of its engine that a call of an episode leads to: a reset for a
reset, and a step for a step once the episode has been reset. -/
def passOn (e : Episode) : Call → List Engine.Call
  | .reset => [.reset e.seeds.next.1]
  | .resetWithSeed seed => [.reset seed]
  | .step a =>
    match e.seed with
    | none => []
    | some _ => [.step a]

/-- The calls of its engine that the calls of an episode lead to. -/
def engineCalls : Episode → List Call → List Engine.Call
  | _, [] => []
  | e, k :: ks => e.passOn k ++ engineCalls (e.call k).2 ks

/-- An episode whose engine has committed the given steps since the reset with
the seed `s`, and the outcomes that it gave for them. -/
structure Booked (s : Option UInt64) (steps : List Transition) (outcomes : List StepOutcome)
    (e : Episode) : Prop where
  seed : e.seed = s
  stepCount : e.engine.stepCount = steps.length
  factor : e.factor = factorAt e.discount steps.length
  cumulativeReturn : e.cumulativeReturn = discountedReturn e.discount (steps.map (·.reward))
  length : outcomes.length = steps.length
  outcome : ∀ i, outcomes[i]? = (steps[i]?).map (outcomeAt e.discount steps i)
  records : e.records.reverse.flatMap StepRecord.bytes = (steps.mapIdx stepBytes).flatten

namespace Booked

variable {s : Option UInt64} {steps : List Transition} {outcomes : List StepOutcome}
  {e : Episode}

theorem create {m : Model} {c : EngineConfig} (he : Episode.create m c = .ok e) :
    Booked none [] [] e := by
  obtain ⟨engine, hengine, hcreate⟩ := bind_eq_ok_iff.mp he
  cases hcreate
  have hcount : engine.stepCount = 0 := by
    unfold Engine.create at hengine
    split at hengine
    · cases hengine
    · cases hengine
      rfl
  exact {
    seed := rfl, stepCount := hcount, factor := rfl, cumulativeReturn := rfl, length := rfl
    outcome := fun _ => rfl, records := rfl }

theorem resetWithSeed (e : Episode) (seed : UInt64) :
    Booked (some seed) [] [] (e.resetWithSeed seed) where
  seed := rfl
  stepCount := rfl
  factor := rfl
  cumulativeReturn := rfl
  length := rfl
  outcome := fun _ => rfl
  records := rfl

/-- A step that fails changes at most the scratch space of the engine, which is
in no ledger. -/
theorem of_error (h : Booked s steps outcomes e) {engine : Engine}
    (hcount : engine.stepCount = e.engine.stepCount) :
    Booked s steps outcomes { e with engine } where
  seed := h.seed
  stepCount := hcount.trans h.stepCount
  factor := h.factor
  cumulativeReturn := h.cumulativeReturn
  length := h.length
  outcome := h.outcome
  records := h.records

/-- A step that the engine commits enters the ledger. -/
theorem enter (h : Booked s steps outcomes e) {engine : Engine} (t : Transition)
    (hcount : engine.stepCount = e.engine.stepCount + 1) :
    Booked s (steps ++ [t]) (outcomes ++ [outcomeAt e.discount (steps ++ [t]) steps.length t])
      (e.enter engine t) where
  seed := h.seed
  stepCount := by
    rw [List.length_append, List.length_singleton, ← h.stepCount]
    exact hcount
  factor := by
    rw [List.length_append, List.length_singleton, factorAt]
    simp only [Episode.enter, h.factor]
  cumulativeReturn := by
    rw [List.map_append, List.map_singleton, discountedReturn_append, List.length_map]
    simp only [Episode.enter, h.factor, h.cumulativeReturn]
  length := by
    rw [List.length_append, List.length_append, h.length]
    rfl
  outcome := by
    intro i
    rw [List.getElem?_append, List.getElem?_append, h.length]
    by_cases hi : i < steps.length
    · rw [if_pos hi, if_pos hi, h.outcome i]
      apply congrArg (fun f => (steps[i]?).map f)
      funext t'
      have htake : (steps ++ [t]).take (i + 1) = steps.take (i + 1) :=
        List.take_append_of_le_length hi
      simp only [outcomeAt, htake, Episode.enter]
    · rw [if_neg hi, if_neg hi]
      rcases Nat.eq_zero_or_pos (i - steps.length) with hzero | hpos
      · obtain rfl : i = steps.length := by omega
        rw [Nat.sub_self]
        rfl
      · rw [List.getElem?_eq_none hpos, List.getElem?_eq_none hpos]
        rfl
  records := by
    have hcount' : engine.stepCount = steps.length + 1 := by rw [hcount, h.stepCount]
    simp only [Episode.enter, List.reverse_cons, List.flatMap_append, List.flatMap_singleton,
      List.mapIdx_concat, List.flatten_append, List.flatten_singleton, h.records]
    simp only [StepRecord.bytes, stepBytes, hcount', List.flatMap_map]

/-- The outcome of a step that enters the ledger is the one that the ledger
gives it. -/
theorem outcome_eq (h : Booked s steps outcomes e) {engine : Engine} (t : Transition)
    (hcount : engine.stepCount = e.engine.stepCount + 1) :
    ({ observation := t.observation, reward := t.reward
       discountedReward := t.reward * e.factor
       cumulativeReturn := (e.enter engine t).cumulativeReturn
       step := engine.stepCount, done := t.done } : StepOutcome) =
      outcomeAt e.discount (steps ++ [t]) steps.length t := by
  have hreturn := (h.enter t hcount).cumulativeReturn
  have htake : (steps ++ [t]).take (steps.length + 1) = steps ++ [t] :=
    List.take_of_length_le (by simp)
  rw [outcomeAt, htake, hreturn, hcount, h.stepCount, h.factor]
  rfl

/-- A call of an episode keeps the ledger of what its engine has committed. -/
theorem call (h : Booked s steps outcomes e) (k : Call) :
    Booked (Engine.lastSeed s (e.passOn k))
        ((history Engine.call e.engine (e.passOn k)).foldl (fun steps p => p.2.enter steps) steps)
        ((e.call k).1.enter outcomes) (e.call k).2 ∧
      (e.call k).2.engine = LiftedPomdp.outcome Engine.call e.engine (e.passOn k) := by
  cases k with
  | reset =>
      have hfresh := resetWithSeed e e.seeds.next.1
      exact ⟨⟨hfresh.seed, hfresh.stepCount, hfresh.factor, hfresh.cumulativeReturn, rfl,
        hfresh.outcome, hfresh.records⟩, rfl⟩
  | resetWithSeed seed => exact ⟨resetWithSeed e seed, rfl⟩
  | step a =>
      obtain hseed | ⟨seed, hseed⟩ := Option.eq_none_or_eq_some e.seed
      · have hpass : e.passOn (.step a) = [] := by
          unfold passOn
          simp only [hseed]
        rw [hpass, Episode.call, step_of_none hseed]
        exact ⟨h, rfl⟩
      · have hpass : e.passOn (.step a) = [.step a] := by
          unfold passOn
          simp only [hseed]
        rw [hpass]
        obtain ⟨⟨r, engine⟩, hstep⟩ : ∃ o, e.engine.step a = o := ⟨_, rfl⟩
        simp only [history, LiftedPomdp.outcome, Engine.call, hstep, List.foldl_cons,
          List.foldl_nil]
        cases r with
        | error f =>
            obtain ⟨scratch, hscratch⟩ := Engine.step_eq_of_error (congrArg Prod.fst hstep)
            rw [hstep] at hscratch
            obtain rfl : engine = { e.engine with scratch } := hscratch
            rw [Episode.call, step_of_error hseed hstep]
            exact ⟨h.of_error rfl, rfl⟩
        | ok t =>
            obtain ⟨w, hcommit, _⟩ := Engine.exists_commit (congrArg Prod.fst hstep)
            rw [hstep] at hcommit
            have hcount : engine.stepCount = e.engine.stepCount + 1 :=
              congrArg Engine.stepCount hcommit
            rw [Episode.call, step_of_ok hseed hstep, h.outcome_eq t hcount]
            exact ⟨h.enter t hcount, rfl⟩

/-- Any calls of an episode keep the ledger of what its engine has committed. -/
theorem calls (h : Booked s steps outcomes e) (ks : List Call) :
    Booked (Engine.lastSeed s (e.engineCalls ks))
        ((history Engine.call e.engine (e.engineCalls ks)).foldl
          (fun steps p => p.2.enter steps) steps)
        ((history Episode.call e ks).foldl (fun outcomes p => p.2.enter outcomes) outcomes)
        (LiftedPomdp.outcome Episode.call e ks) ∧
      (LiftedPomdp.outcome Episode.call e ks).engine =
        LiftedPomdp.outcome Engine.call e.engine (e.engineCalls ks) := by
  induction ks generalizing s steps outcomes e with
  | nil => exact ⟨h, rfl⟩
  | cons k ks ih =>
      obtain ⟨hbooked, hengine⟩ := h.call k
      obtain ⟨hrest, hlast⟩ := ih hbooked
      rw [engineCalls, history_append, outcome_append, List.foldl_append, ← hengine,
        Engine.lastSeed, List.foldl_append]
      exact ⟨hrest, hlast⟩

theorem transcript_eq (h : Booked s steps outcomes e) :
    e.transcript = transcriptOf e.engine.model.fingerprint s steps := by
  unfold transcript
  rw [h.seed, h.records]
  cases s with
  | none => rfl
  | some seed => rfl

end Booked

variable {d : Domain} {i : Instance} {m : Model} {c : EngineConfig} {e₀ e : Episode}

theorem reachable_outcome (h : Reachable m c e) (ks : List Call) :
    Reachable m c (LiftedPomdp.outcome call e ks) := by
  induction ks generalizing e with
  | nil => exact h
  | cons k ks ih =>
      apply ih
      cases k with
      | reset => exact h.reset
      | resetWithSeed seed => exact h.resetWithSeed seed
      | step a => exact h.step a

/-- Every use of an episode comes down to resets and steps, that of a policy
included. -/
theorem exists_calls (h₀ : Episode.create m c = .ok e₀) (h : Reachable m c e) :
    ∃ ks, e = LiftedPomdp.outcome call e₀ ks := by
  have hnext : ∀ {e : Episode} (k : Call), (∃ ks, e = LiftedPomdp.outcome call e₀ ks) →
      ∃ ks, (e.call k).2 = LiftedPomdp.outcome call e₀ ks := by
    rintro e k ⟨ks, rfl⟩
    exact ⟨ks ++ [k], (outcome_append _ ks [k]).symm⟩
  induction h with
  | create h' =>
      obtain rfl := Except.ok.inj (h₀.symm.trans h')
      exact ⟨[], rfl⟩
  | reset _ ih => exact hnext .reset ih
  | resetWithSeed _ seed ih => exact hnext (.resetWithSeed seed) ih
  | step _ a ih => exact hnext (.step a) ih
  | run _ p seed ih =>
      exact playOn_preserves (P := fun e => ∃ ks, e = LiftedPomdp.outcome call e₀ ks)
        (fun _ a hcalls => hnext (.step a) hcalls) (hnext (.resetWithSeed seed) ih)

end Episode

/-! ## Observations in canonical order -/

namespace Engine

variable {d : Domain} {i : Instance} {m : Model} {c : EngineConfig} {e : Engine}

/-- The observations of a step are those of all ground observation fluents, in
order. -/
theorem observation_of_ok (h : Grounded d i m) (he : Typed m e) {a : Action} {t : Transition}
    (ht : (e.step a).1 = .ok t) :
    t.observation.entries.map (·.1) = m.groundFluents .observation := by
  obtain ⟨w, hcommit, hobservation⟩ := exists_commit ht
  have htyped := typed_step h he a
  rw [hcommit] at htyped
  have hsize : (m.groundFluents .observation).length = (e.commit w).observed.toList.length := by
    rw [Grounded.length_groundFluents, Array.length_toList, htyped.observed.size_eq]
  rw [hobservation, observation, htyped.model]
  exact List.map_fst_zip hsize.le

/-- Whatever is called, all committed steps carry observations in canonical
order. -/
theorem observations_canonical (h : Grounded d i m) (he : Typed m e) (ks : List Call) :
    ∀ t ∈ committed (history call e ks),
      t.observation.entries.map (·.1) = m.groundFluents .observation := by
  let Canonical := fun steps : List Transition =>
    ∀ t ∈ steps, t.observation.entries.map (·.1) = m.groundFluents .observation
  have hall : Typed m (outcome call e ks) ∧ Canonical (committed (history call e ks)) := by
    apply committed_preserves (P := fun e steps => Typed m e ∧ Canonical steps)
    · rintro e k steps ⟨he, hsteps⟩
      cases k with
      | reset seed => exact ⟨typed_reset h he seed, fun t ht => by cases ht⟩
      | step a =>
          refine ⟨typed_step h he a, ?_⟩
          simp only [call]
          cases hstep : (e.step a).1 with
          | error f => exact hsteps
          | ok t =>
              intro t' ht'
              rcases List.mem_append.mp ht' with hmem | hmem
              · exact hsteps t' hmem
              · rw [List.mem_singleton.mp hmem]
                exact observation_of_ok h he hstep
    · exact ⟨he, fun t ht => by cases ht⟩
  exact hall.2

end Engine

/-! ## The ledger -/

namespace Model

variable {d : Domain} {i : Instance} {m : Model} {c : EngineConfig}

/-- The ledger of an episode is the fold of the steps that its engine has
committed since the last reset, whatever was called before and between, failed
steps included: the factor is that of the next step, the sum is the discounted
return, the outcomes give for every step its reward, its discounted reward, the
sum up to it, its number and its observations, and the transcript holds the
fingerprint, the seed of the last reset, and for every step its number, its
reward and the values of its observations in canonical order.  Every use of an
episode comes down to such calls. -/
theorem ledger_eq_fold (h : Model.ground d i = .ok m) (hc : c.validate = .ok ()) :
    let discount := c.discount.getD m.discount
    ∃ e₀, Episode.create m c = .ok e₀ ∧
      (∀ e, Episode.Reachable m c e → ∃ calls, e = outcome Episode.call e₀ calls) ∧
      ∀ calls : List Episode.Call,
        let e := outcome Episode.call e₀ calls
        let outcomes := committed (history Episode.call e₀ calls)
        let engineCalls := e₀.engineCalls calls
        let steps := committed (history Engine.call e₀.engine engineCalls)
        let seed := Engine.lastSeed none engineCalls
        e.engine = outcome Engine.call e₀.engine engineCalls ∧ e.seed = seed ∧
          e.factor = factorAt discount steps.length ∧
          e.cumulativeReturn = discountedReturn discount (steps.map (·.reward)) ∧
          (∀ i, outcomes[i]? = (steps[i]?).map (outcomeAt discount steps i)) ∧
          e.digest = Blake3.hash (transcriptOf m.fingerprint seed steps) ∧
          ∀ t ∈ steps, t.observation.entries.map (·.1) = m.groundFluents .observation := by
  have hg := grounded_of_ground h
  intro discount
  obtain ⟨e₀, he₀⟩ := Episode.exists_create m hc
  refine ⟨e₀, he₀, fun e he => Episode.exists_calls he₀ he, ?_⟩
  intro calls e outcomes engineCalls steps seed
  have hconfigured : Episode.Configured m c e :=
    Episode.configured_of_reachable hg (Episode.reachable_outcome (.create he₀) calls)
  have hdiscount : e.discount = discount := hconfigured.discount
  obtain ⟨hbooked, hengine⟩ := (Episode.Booked.create he₀).calls calls
  have htyped : Engine.Typed m e₀.engine := by
    obtain ⟨engine, hcreate, he⟩ := bind_eq_ok_iff.mp he₀
    cases he
    exact Engine.typed_create hg hcreate
  refine ⟨hengine, hbooked.seed, ?_, ?_, ?_, ?_, Engine.observations_canonical hg htyped _⟩
  · rw [← hdiscount]
    exact hbooked.factor
  · rw [← hdiscount]
    exact hbooked.cumulativeReturn
  · rw [← hdiscount]
    exact hbooked.outcome
  · have htranscript : e.transcript = transcriptOf e.engine.model.fingerprint seed steps :=
      hbooked.transcript_eq
    rw [Episode.digest, htranscript, hconfigured.engine.fits.model]

/-- A step before the first reset and a toggle of a lamp that does not exist
leave no trace in the ledger of the lamps. -/
theorem ledger_eq_fold_lamps :
    let toggle := fun lamp => Episode.Call.step (Action.noop.set "toggle" [lamp] (.bool true))
    EngineConfig.standard.validate = .ok () ∧
      ∃ e₀, Episode.create Lamps.model .standard = .ok e₀ ∧
        let calls := [toggle "l0", .resetWithSeed 5, toggle "l1", toggle "l7", toggle "l0"]
        let e := outcome Episode.call e₀ calls
        let steps := committed (history Engine.call e₀.engine (e₀.engineCalls calls))
        steps.length = 2 ∧ e.seed = some 5 ∧
          e.factor = factorAt Lamps.model.discount 2 ∧
          e.cumulativeReturn = discountedReturn Lamps.model.discount (steps.map (·.reward)) := by
  intro toggle
  have hc : EngineConfig.standard.validate = .ok () := by decide +kernel
  obtain ⟨e₀, he₀, _, hledger⟩ := ledger_eq_fold Lamps.ground_eq hc
  refine ⟨hc, e₀, he₀, ?_⟩
  intro calls e steps
  obtain ⟨_, _, hfactor, hreturn, _⟩ := hledger calls
  have htwo : steps.length = 2 := by
    have hcreate := he₀
    cases hcreate
    decide +kernel
  have hseed : e.seed = some 5 := by
    have hcreate := he₀
    cases hcreate
    decide +kernel
  rw [htwo] at hfactor
  exact ⟨htwo, hseed, hfactor, hreturn⟩

end Model
end LiftedPomdp
