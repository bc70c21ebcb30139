import LiftedPomdp.Proofs.Run.Replay

/-!
# The life of an engine

An engine that has been created is ready until it has committed as many steps
as an episode has, and then refuses every step until it is reset.  It counts
the steps that it has committed since the last reset, and whatever makes a step
fail is the action or an evaluation.

A configuration and an instance each guarantee that an episode has at least one
step, so that a reset always leaves an engine ready.
-/

namespace LiftedPomdp

open Effects Grounding

/-! ## Committed steps -/

section Committed

variable {σ κ β : Type}

/-- The steps committed since the last reset, after one more answer. -/
def Answer.enter (steps : List β) : Answer β → List β
  | .reset _ => []
  | .step (.ok b) => steps ++ [b]
  | .step (.error _) => steps

/-- The results of the steps committed since the last reset, in order. -/
def committed (log : List (κ × Answer β)) : List β :=
  log.foldl (fun steps p => p.2.enter steps) []

/-- What every call keeps true of a state and the steps committed before it
holds after any sequence of calls. -/
theorem committed_preserves {call : σ → κ → Answer β × σ} {P : σ → List β → Prop}
    (hcall : ∀ s k steps, P s steps → P (call s k).2 ((call s k).1.enter steps))
    {s : σ} (hs : P s []) (ks : List κ) :
    P (outcome call s ks) (committed (history call s ks)) := by
  have hfrom : ∀ (ks : List κ) (s : σ) (steps : List β), P s steps →
      P (outcome call s ks) ((history call s ks).foldl (fun steps p => p.2.enter steps) steps) := by
    intro ks
    induction ks with
    | nil => exact fun _ _ hs => hs
    | cons k ks ih => exact fun s steps hs => ih _ _ (hcall s k steps hs)
  exact hfrom ks s [] hs

end Committed

namespace EngineConfig

theorem horizon_ne_zero {c : EngineConfig} (h : c.validate = .ok ()) {n : UInt32}
    (hn : c.horizon = some n) : n ≠ 0 := by
  rintro rfl
  rw [validate, if_pos hn] at h
  cases h

end EngineConfig

/-! ## The errors of a step -/

namespace Work

/-- A step under way fails over the action or over an evaluation. -/
def IsMishap : Fault SimError → Prop
  | .error e => e.isAction = true ∨ e.isDomain = true
  | .abort _ => True

theorem isMishap_map_domain (f : Fault DomainError) : IsMishap (f.map SimError.domain) := by
  cases f with
  | error e => exact .inr rfl
  | abort a => trivial

theorem raises_eval {α : Type} (e : Eval α) : Raises IsMishap (eval e) := by
  intro w f hf
  rcases hrun : e.run w.walk with ⟨g | a, u⟩
  · rw [run_eval hrun] at hf
    cases hf
    exact isMishap_map_domain g
  · rw [run_eval hrun] at hf
    cases hf

theorem raises_bind (s : Nat) (ordinals : List Nat) : Raises IsMishap (bind s ordinals) := by
  induction ordinals generalizing s with
  | nil => exact Raises.value ()
  | cons o ordinals ih => exact Raises.bind (Raises.modify _) fun _ => ih (s + 1)

variable {m : Model}

theorem raises_sampleGround (s : Snapshot) (b : FluentBlock) (body : Compiled) (place : Nat) :
    Raises IsMishap (sampleGround m s b body place) := by
  refine Raises.bind (raises_bind 0 _) fun _ => Raises.bind (raises_eval _) fun v => ?_
  unfold checked
  split
  · exact Raises.value _
  · exact Raises.error (.inr rfl)

theorem raises_stepBlock {step : FluentBlock → Compiled → Nat → Work Unit}
    (hstep : ∀ b body place, Raises IsMishap (step b body place)) (cpf : Cpf) :
    Raises IsMishap (stepBlock m step cpf) := by
  unfold stepBlock
  split
  · exact Raises.error trivial
  · exact Raises.forM fun place _ => hstep _ _ place

theorem raises_enforce (s : Snapshot) (n : Nat) (constraints : List Compiled) :
    Raises IsMishap (enforce m s n constraints) := by
  induction constraints generalizing n with
  | nil => exact Raises.value ()
  | cons c constraints ih =>
      refine Raises.bind (raises_eval _) fun holds => ?_
      cases holds with
      | true => exact ih (n + 1)
      | false => exact Raises.error (.inl rfl)

theorem raises_advance (state action : Table) : Raises IsMishap (advance m state action) := by
  refine Raises.bind (Raises.forM fun cpf _ => raises_stepBlock ?_ cpf) fun _ =>
    Raises.bind Raises.get fun w =>
      Raises.bind (Raises.forM fun cpf _ => raises_stepBlock ?_ cpf) fun _ => raises_eval _
  · exact fun b body place =>
      Raises.bind (raises_sampleGround _ b body place) fun v => Raises.modify _
  · exact fun b body place => Raises.bind Raises.get fun u =>
      Raises.bind (raises_sampleGround _ b body place) fun v => Raises.modify _

theorem raises_step (check : Bool) (state action : Table) :
    Raises IsMishap (step m check state action) := by
  unfold step
  cases check with
  | false => exact raises_advance state action
  | true => exact Raises.bind (raises_enforce _ 0 _) fun _ => raises_advance state action

end Work

/-! ## What a step can do -/

namespace Engine

variable {d : Domain} {i : Instance} {m : Model} {c : EngineConfig} {e : Engine}

/-- A ready engine fails over the action or an evaluation, and then differs at
most in its scratch space, or commits what the step has computed. -/
theorem step_cases (hready : e.phase = .ready) (a : Action) :
    (∃ f scratch, Work.IsMishap f ∧ e.step a = (.error f, { e with scratch })) ∨
      ∃ w reward, e.step a =
        (.ok { observation := (e.commit w).observation, reward
               done := decide ((e.commit w).phase = .terminated) }, e.commit w) := by
  cases hresolve : a.resolve e.model with
  | error f =>
      left
      have hstep : e.step a = (.error (f.map SimError.action), e) := by
        unfold step
        simp only [hready, hresolve]
      refine ⟨f.map SimError.action, e.scratch, ?_, hstep⟩
      cases f with
      | error x => exact .inl rfl
      | abort x => trivial
  | ok table =>
      have hstep : e.step a = e.stepTable table := by
        unfold step
        simp only [hready, hresolve]
      rw [hstep]
      rcases hrun : (Work.step e.model e.checkConstraints e.current table).run e.workspace
        with ⟨f | reward, w⟩
      · left
        have hmishap := Work.raises_step e.checkConstraints e.current table e.workspace f
          (congrArg Prod.fst hrun)
        rw [stepTable_of_error hrun, rollBack, ← hready]
        exact ⟨f, _, hmishap, rfl⟩
      · right
        exact ⟨w, reward, stepTable_of_ok hrun⟩

theorem step_of_terminated (h : e.phase = .terminated) (a : Action) :
    e.step a = (.error (.error (.episodeEnded (.horizonReached e.horizon))), e) := by
  unfold step
  simp only [h]

/-- An engine in the course of an episode of `n` steps, of which the given ones
have been committed. -/
structure Lives (n : Nat) (e : Engine) (steps : List Transition) : Prop where
  horizon : e.horizon = n
  positive : 0 < n
  stepCount : e.stepCount = steps.length
  bounded : steps.length ≤ n
  phase : e.phase = if steps.length = n then .terminated else .ready

namespace Lives

variable {n : Nat} {steps : List Transition}

theorem terminated_iff (h : Lives n e steps) : e.phase = .terminated ↔ steps.length = n := by
  rw [h.phase]
  split
  next heq => simp [heq]
  next hne => simp [hne]

theorem ready_iff (h : Lives n e steps) : e.phase = .ready ↔ steps.length ≠ n := by
  rw [h.phase]
  split
  next heq => simp [heq]
  next hne => simp [hne]

/-- A ready engine that has not taken a step is at the start of an episode. -/
theorem fresh (hhorizon : e.horizon = n) (hpositive : 0 < n) (hcount : e.stepCount = 0)
    (hready : e.phase = .ready) : Lives n e [] where
  horizon := hhorizon
  positive := hpositive
  stepCount := hcount
  bounded := Nat.zero_le n
  phase := by rw [if_neg (by simpa using hpositive.ne), hready]

theorem reset (h : Lives n e steps) (seed : UInt64) : Lives n (e.reset seed) [] :=
  .fresh h.horizon h.positive rfl rfl

theorem commit (h : Lives n e steps) (hmore : steps.length ≠ n) (w : Workspace)
    (t : Transition) : Lives n (e.commit w) (steps ++ [t]) where
  horizon := h.horizon
  positive := h.positive
  stepCount := by
    rw [List.length_append, ← h.stepCount]
    rfl
  bounded := by
    have hbounded := h.bounded
    rw [List.length_append, List.length_singleton]
    omega
  phase := by
    have hbounded := h.bounded
    have hlast : n ≤ steps.length + 1 ↔ (steps ++ [t]).length = n := by
      rw [List.length_append, List.length_singleton]
      omega
    simp only [Engine.commit, h.horizon, h.stepCount, hlast]

/-- In the course of an episode a step is refused at the end, and fails or is
committed before. -/
theorem step_cases (h : Lives n e steps) (a : Action) :
    (steps.length = n ∧
        e.step a = (.error (.error (.episodeEnded (.horizonReached n))), e)) ∨
      (steps.length ≠ n ∧ ∃ f scratch, Work.IsMishap f ∧
        e.step a = (.error f, { e with scratch })) ∨
      (steps.length ≠ n ∧ ∃ w reward, e.step a =
        (.ok { observation := (e.commit w).observation, reward
               done := decide (steps.length + 1 = n) }, e.commit w)) := by
  by_cases hend : steps.length = n
  · left
    rw [step_of_terminated (h.terminated_iff.mpr hend), h.horizon]
    exact ⟨hend, rfl⟩
  · right
    rcases Engine.step_cases (h.ready_iff.mpr hend) a with hfailed | ⟨w, reward, hstep⟩
    · exact .inl ⟨hend, hfailed⟩
    · right
      have hlast : (e.commit w).phase = .terminated ↔ steps.length + 1 = n := by
        have hcommit := h.commit hend w
          { observation := (e.commit w).observation, reward, done := true }
        rw [hcommit.terminated_iff, List.length_append, List.length_singleton]
      simp only [hlast] at hstep
      exact ⟨hend, w, reward, hstep⟩

/-- A step keeps an engine in the course of its episode, whether it fails or
not. -/
theorem step (h : Lives n e steps) (a : Action) :
    Lives n (e.step a).2 ((Answer.step (e.step a).1).enter steps) := by
  rcases h.step_cases a with ⟨_, hstep⟩ | ⟨_, f, scratch, _, hstep⟩ | ⟨hmore, w, reward, hstep⟩
  · rw [hstep]
    exact h
  · rw [hstep]
    exact ⟨h.horizon, h.positive, h.stepCount, h.bounded, h.phase⟩
  · rw [hstep]
    exact h.commit hmore w _

theorem call (h : Lives n e steps) (k : Call) :
    Lives n (e.call k).2 ((e.call k).1.enter steps) := by
  cases k with
  | reset seed => exact h.reset seed
  | step a => exact h.step a

/-- A step is refused because the episode has ended exactly when it has, and
the refusal names the horizon. -/
theorem horizonReached_iff (h : Lives n e steps) (a : Action) (k : Nat) :
    (e.step a).1 = .error (.error (.episodeEnded (.horizonReached k))) ↔
      steps.length = n ∧ k = n := by
  rcases h.step_cases a with ⟨hend, hstep⟩ | ⟨hmore, f, scratch, hf, hstep⟩ |
    ⟨hmore, w, reward, hstep⟩
  · simp [hstep, hend, eq_comm]
  · have hother : f ≠ .error (.episodeEnded (.horizonReached k)) := by
      rintro rfl
      simp [Work.IsMishap, SimError.isAction, SimError.isDomain] at hf
    simp [hstep, hmore, hother]
  · simp [hstep, hmore]

/-- What makes a step fail is the end of the episode, the action or an
evaluation. -/
theorem error_cases (h : Lives n e steps) {a : Action} {x : SimError}
    (hx : (e.step a).1 = .error (.error x)) :
    x = .episodeEnded (.horizonReached n) ∨ x.isAction = true ∨ x.isDomain = true := by
  rcases h.step_cases a with ⟨_, hstep⟩ | ⟨_, f, scratch, hf, hstep⟩ | ⟨_, w, reward, hstep⟩
  · rw [hstep] at hx
    cases hx
    exact .inl rfl
  · rw [hstep] at hx
    cases hx
    exact .inr hf
  · rw [hstep] at hx
    cases hx

/-- A step that succeeds is the last one exactly when all others have been
committed before it. -/
theorem done_iff (h : Lives n e steps) {a : Action} {t : Transition}
    (ht : (e.step a).1 = .ok t) : t.done = true ↔ steps.length + 1 = n := by
  rcases h.step_cases a with ⟨_, hstep⟩ | ⟨_, f, scratch, _, hstep⟩ | ⟨_, w, reward, hstep⟩
  · rw [hstep] at ht
    cases ht
  · rw [hstep] at ht
    cases ht
  · rw [hstep] at ht
    cases ht
    exact decide_eq_true_iff

end Lives

/-- Either check of a horizon, that of the configuration or that of the
instance, makes it positive. -/
theorem horizon_pos (h : Grounded d i m) (hc : c.validate = .ok ()) :
    0 < (c.horizon.getD m.horizon).toNat := by
  have hpos : ∀ n : UInt32, n ≠ 0 → 0 < n.toNat := by
    intro n hn
    apply Nat.pos_of_ne_zero
    intro hzero
    exact hn (UInt32.toNat_inj.mp hzero)
  cases hhorizon : c.horizon with
  | none =>
      rw [Option.getD_none, h.horizon]
      exact hpos _ (Instance.validate_eq_ok h.instanceValid).1
  | some n =>
      rw [Option.getD_some]
      exact hpos n (EngineConfig.horizon_ne_zero hc hhorizon)

theorem lives_create (h : Grounded d i m) (hc : c.validate = .ok ())
    (he : Engine.create m c = .ok e) : Lives (c.horizon.getD m.horizon).toNat e [] := by
  have hpos := horizon_pos h hc
  unfold create at he
  rw [hc] at he
  cases he
  exact .fresh rfl hpos rfl rfl

end Engine

/-! ## The lifecycle -/

namespace Model

variable {d : Domain} {i : Instance} {m : Model} {c : EngineConfig}

/-- The life of an engine from its creation on, whatever is called: it is ready
or terminated, terminated exactly when it has committed as many steps as the
horizon since the last reset, and it counts these steps.  Then and only then
does it refuse a step because the horizon is reached; a step says that it is
the last one exactly when it is the one that reaches the horizon; and no step
fails as if the engine had not been started, was in the middle of a step, or
was being built. -/
theorem lifecycle (h : Model.ground d i = .ok m) (hc : c.validate = .ok ()) :
    let horizon := (c.horizon.getD m.horizon).toNat
    ∃ e₀, Engine.create m c = .ok e₀ ∧ ∀ calls : List Engine.Call,
      let e := outcome Engine.call e₀ calls
      let steps := committed (history Engine.call e₀ calls)
      (e.phase = .ready ∨ e.phase = .terminated) ∧
        (e.phase = .terminated ↔ e.stepCount = horizon) ∧
        e.stepCount ≤ horizon ∧ e.stepCount = steps.length ∧
        ∀ a : Action,
          ((∃ n, (e.step a).1 = .error (.error (.episodeEnded (.horizonReached n)))) ↔
              e.phase = .terminated) ∧
            (∀ n, (e.step a).1 = .error (.error (.episodeEnded (.horizonReached n))) →
              n = horizon) ∧
            (∀ t, (e.step a).1 = .ok t → (t.done = true ↔ steps.length + 1 = horizon)) ∧
            ∀ x, (e.step a).1 = .error (.error x) →
              x ≠ .episodeEnded .notStarted ∧ (∀ y, x ≠ .internal y) ∧ (∀ y, x ≠ .config y) ∧
                x.isConstruction = false := by
  have hg := grounded_of_ground h
  intro horizon
  obtain ⟨e₀, he₀⟩ := Engine.exists_create m hc
  refine ⟨e₀, he₀, ?_⟩
  intro calls e steps
  have hlives : Engine.Lives horizon e steps :=
    committed_preserves (fun _ k _ hlives => hlives.call k) (Engine.lives_create hg hc he₀) calls
  refine ⟨?_, ?_, ?_, hlives.stepCount, ?_⟩
  · rw [hlives.phase]
    split
    · exact .inr rfl
    · exact .inl rfl
  · rw [hlives.stepCount, hlives.terminated_iff]
  · rw [hlives.stepCount]
    exact hlives.bounded
  · intro a
    refine ⟨?_, ?_, fun t ht => hlives.done_iff ht, ?_⟩
    · rw [hlives.terminated_iff]
      constructor
      · rintro ⟨n, hn⟩
        exact ((hlives.horizonReached_iff a n).mp hn).1
      · intro hend
        exact ⟨horizon, (hlives.horizonReached_iff a horizon).mpr ⟨hend, rfl⟩⟩
    · exact fun n hn => ((hlives.horizonReached_iff a n).mp hn).2
    · intro x hx
      rcases hlives.error_cases hx with rfl | hx | hx
      · simp [SimError.isConstruction]
      · cases x with
        | action y => simp [SimError.isConstruction]
        | _ => cases hx
      · cases x with
        | domain y => simp [SimError.isConstruction]
        | _ => cases hx

/-- The lamps are toggled twice, which is all that their horizon allows, with a
toggle of a lamp that does not exist between. -/
theorem lifecycle_lamps :
    let toggle := fun lamp => Engine.Call.step (Action.noop.set "toggle" [lamp] (.bool true))
    EngineConfig.standard.validate = .ok () ∧
      ∃ e₀, Engine.create Lamps.model .standard = .ok e₀ ∧
        let calls := [toggle "l0", .reset 5, toggle "l1", toggle "l7", toggle "l0"]
        let e := outcome Engine.call e₀ calls
        (committed (history Engine.call e₀ calls)).length = 2 ∧ e.stepCount = 2 ∧
          e.phase = .terminated ∧
            ∃ n, (e.step Action.noop).1 = .error (.error (.episodeEnded (.horizonReached n))) := by
  intro toggle
  have hc : EngineConfig.standard.validate = .ok () := by decide +kernel
  obtain ⟨e₀, he₀, hlife⟩ := lifecycle Lamps.ground_eq hc
  refine ⟨hc, e₀, he₀, ?_⟩
  intro calls e
  obtain ⟨_, hterminated, _, hcount, hstep⟩ := hlife calls
  have htwo : e.stepCount = 2 := by
    have hcreate := he₀
    cases hcreate
    decide +kernel
  have hend : e.phase = .terminated := hterminated.mpr htwo
  exact ⟨hcount.symm.trans htwo, htwo, hend, (hstep Action.noop).1.mpr hend⟩

end Model
end LiftedPomdp
