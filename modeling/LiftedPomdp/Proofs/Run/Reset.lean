import LiftedPomdp.Proofs.Run.Replay

/-!
# A reset forgets all history

A reset sets everything that a later answer can show, except what the
configuration fixes for good: whether constraints are checked, the horizon and
the discount.  So after resets with one seed two engines of a model answer
every sequence of actions in the same way and look the same at every point,
whatever was done with them before.  The same holds of episodes, whose streams
of further seeds may differ.
-/

namespace LiftedPomdp

open Effects Grounding

/-! ## Watching a run -/

section Watching

variable {σ κ β ω : Type}

/-- The answers to calls made one after the other, each with what can be seen
after it. -/
def sightings (call : σ → κ → β × σ) (look : σ → ω) : σ → List κ → List (β × ω)
  | _, [] => []
  | s, k :: ks => ((call s k).1, look (call s k).2) :: sightings call look (call s k).2 ks

/-- A relation that answers and looks respect and that calls keep makes two runs
look the same throughout. -/
theorem sightings_eq_of_alike {call : σ → κ → β × σ} {look : σ → ω} (alike : σ → σ → Prop)
    (hcall : ∀ s s' k, alike s s' →
      (call s k).1 = (call s' k).1 ∧ alike (call s k).2 (call s' k).2)
    (hlook : ∀ s s', alike s s' → look s = look s')
    {s s' : σ} (hs : alike s s') (ks : List κ) :
    sightings call look s ks = sightings call look s' ks := by
  induction ks generalizing s s' with
  | nil => rfl
  | cons k ks ih =>
      obtain ⟨hanswer, hnext⟩ := hcall s s' k hs
      have hrest := ih hnext
      have hseen := hlook _ _ hnext
      rw [sightings, sightings, hanswer, hseen, hrest]

end Watching

/-! ## Engines -/

namespace Engine

/-- What an engine shows. -/
structure Sight where
  state : Valuation
  observation : Valuation
  sampler : Sampler
  stepCount : Nat
  phase : Phase

/-- What can be seen of an engine. -/
def sight (e : Engine) : Sight where
  state := e.state
  observation := e.observation
  sampler := e.sampler
  stepCount := e.stepCount
  phase := e.phase

/-- An engine of a model that works as a configuration says. -/
structure Configured (m : Model) (c : EngineConfig) (e : Engine) : Prop where
  fits : Fits m e
  checkConstraints : e.checkConstraints = c.checkConstraints
  horizon : e.horizon = (c.horizon.getD m.horizon).toNat

variable {d : Domain} {i : Instance} {m : Model} {c c' : EngineConfig} {e e' : Engine}

theorem Alike.sight_eq (h : Alike m e e') : e.sight = e'.sight := by
  obtain ⟨_, _, scratch, rfl⟩ := h
  rfl

theorem configured_create (h : Grounded d i m) (he : Engine.create m c = .ok e) :
    Configured m c e := by
  have hfits := fits_create h he
  unfold create at he
  split at he
  · cases he
  · cases he
    exact ⟨hfits, rfl, rfl⟩

theorem configured_reset (h : Grounded d i m) (he : Configured m c e) (seed : UInt64) :
    Configured m c (e.reset seed) := by
  have hfits := (alike_reset h (.refl he.fits) seed).left
  exact ⟨hfits, he.checkConstraints, he.horizon⟩

theorem stepTable_settings (e : Engine) (table : Table) :
    (e.stepTable table).2.checkConstraints = e.checkConstraints ∧
      (e.stepTable table).2.horizon = e.horizon := by
  unfold stepTable
  split
  split
  · exact ⟨rfl, rfl⟩
  · exact ⟨rfl, rfl⟩

/-- No step changes what a configuration fixes. -/
theorem step_settings (e : Engine) (a : Action) :
    (e.step a).2.checkConstraints = e.checkConstraints ∧ (e.step a).2.horizon = e.horizon := by
  unfold step
  split
  · exact ⟨rfl, rfl⟩
  · exact ⟨rfl, rfl⟩
  · exact ⟨rfl, rfl⟩
  · split
    · exact ⟨rfl, rfl⟩
    · exact stepTable_settings e _

theorem configured_step (h : Grounded d i m) (he : Configured m c e) (a : Action) :
    Configured m c (e.step a).2 := by
  have hfits := (alike_step h (.refl he.fits) a).2.left
  obtain ⟨hcheck, hhorizon⟩ := step_settings e a
  exact ⟨hfits, hcheck.trans he.checkConstraints, hhorizon.trans he.horizon⟩

theorem configured_of_reachable (h : Grounded d i m) (he : Reachable m c e) :
    Configured m c e := by
  induction he with
  | create hcreate => exact configured_create h hcreate
  | reset _ seed ih => exact configured_reset h ih seed
  | step _ a ih => exact configured_step h ih a

/-- Every step that a reachable engine takes starts with room for all that it
computes, from a state and an action that fit. -/
theorem roomy_of_reachable (h : Grounded d i m) (he : Reachable m c e) :
    Roomy m e.workspace ∧ e.workspace.observed.size = m.groundCount .observation ∧
      e.current.size = m.groundCount .state ∧
        ∀ a table, Action.resolve e.model a = .ok table → table.size = m.groundCount .action := by
  obtain ⟨rfl, hcurrent, hnext, hslots⟩ := (configured_of_reachable h he).fits
  refine ⟨⟨hnext, hslots⟩, h.typed_defaultObservation.size_eq, hcurrent, ?_⟩
  intro a table hresolve
  exact (Action.typed_of_resolve h hresolve).size_eq

/-- Engines that work alike differ at most in their scratch space once they are
reset with one seed. -/
theorem alike_reset_of_configured (h : Grounded d i m) (he : Configured m c e)
    (he' : Configured m c' e') (hcheck : c.checkConstraints = c'.checkConstraints)
    (hhorizon : c.horizon = c'.horizon) (seed : UInt64) :
    Alike m (e.reset seed) (e'.reset seed) := by
  have hfits := (configured_reset h he seed).fits
  have hfits' := (configured_reset h he' seed).fits
  have hmodel : e'.model = e.model := he'.fits.model.trans he.fits.model.symm
  have hcheck' : e'.checkConstraints = e.checkConstraints := by
    rw [he'.checkConstraints, ← hcheck, he.checkConstraints]
  have hhorizon' : e'.horizon = e.horizon := by
    rw [he'.horizon, ← hhorizon, he.horizon]
  refine ⟨hfits, hfits', (e'.reset seed).scratch, ?_⟩
  rw [reset, reset, hmodel, hcheck', hhorizon']

end Engine

/-! ## Episodes -/

namespace Episode

/-- What an episode shows. -/
structure Sight extends Engine.Sight where
  cumulativeReturn : Float
  digest : List UInt8

/-- What can be seen of an episode. -/
def sight (e : Episode) : Sight :=
  { e.engine.sight with cumulativeReturn := e.cumulativeReturn, digest := e.digest }

/-- The episodes that any use of an episode leads to, whether its steps fail or
not and whatever policies it is played by. -/
inductive Reachable (m : Model) (c : EngineConfig) : Episode → Prop
  | create {e : Episode} (h : Episode.create m c = .ok e) : Reachable m c e
  | reset {e : Episode} (h : Reachable m c e) : Reachable m c e.reset
  | resetWithSeed {e : Episode} (h : Reachable m c e) (seed : UInt64) :
      Reachable m c (e.resetWithSeed seed)
  | step {e : Episode} (h : Reachable m c e) (a : Action) : Reachable m c (e.step a).2
  | run {e : Episode} {σ : Type} (h : Reachable m c e) (p : Policy σ) (seed : UInt64) :
      Reachable m c (e.run p seed).episode

/-- An episode of a model that works as a configuration says. -/
structure Configured (m : Model) (c : EngineConfig) (e : Episode) : Prop where
  engine : Engine.Configured m c e.engine
  discount : e.discount = c.discount.getD m.discount

/-- Episodes that differ at most in the scratch space of their engines and in
the stream that resets take their seeds from. -/
def Kindred (m : Model) (e e' : Episode) : Prop :=
  Alike m { e with seeds := e'.seeds } e'

variable {d : Domain} {i : Instance} {m : Model} {c c' : EngineConfig} {e e' : Episode}

theorem Kindred.sight_eq (h : Kindred m e e') : e.sight = e'.sight := by
  have halike : Alike m { e with seeds := e'.seeds } e' := h
  have hdigest : e.digest = e'.digest := halike.digest_eq
  obtain ⟨engine, hengine, heq⟩ := halike
  have hsight : e.engine.sight = e'.engine.sight := by
    rw [heq]
    exact hengine.sight_eq
  have hreturn : e.cumulativeReturn = e'.cumulativeReturn := by rw [heq]
  rw [sight, sight, hsight, hreturn, hdigest]

/-- The stream of seeds plays no part in a step. -/
theorem step_seeds (e : Episode) (seeds : RandomStream) (a : Action) :
    ({ e with seeds } : Episode).step a =
      ((e.step a).1, { (e.step a).2 with seeds }) := by
  obtain hseed | ⟨seed, hseed⟩ := Option.eq_none_or_eq_some e.seed
  · rw [step_of_none hseed, step_of_none (e := { e with seeds }) hseed]
  · obtain ⟨⟨r, engine⟩, hstep⟩ : ∃ o, e.engine.step a = o := ⟨_, rfl⟩
    cases r with
    | error f => rw [step_of_error hseed hstep, step_of_error (e := { e with seeds }) hseed hstep]
    | ok t =>
        rw [step_of_ok hseed hstep, step_of_ok (e := { e with seeds }) hseed hstep]
        rfl

theorem seeds_step (e : Episode) (a : Action) : (e.step a).2.seeds = e.seeds :=
  congrArg (fun o => o.2.seeds) (step_seeds e e.seeds a)

/-- Kindred episodes answer a step in the same way and stay kindred. -/
theorem kindred_step (h : Grounded d i m) (hkindred : Kindred m e e') (a : Action) :
    (e.step a).1 = (e'.step a).1 ∧ Kindred m (e.step a).2 (e'.step a).2 := by
  have halike : Alike m { e with seeds := e'.seeds } e' := hkindred
  obtain ⟨hanswer, hafter⟩ := alike_step h halike a
  rw [step_seeds] at hanswer hafter
  refine ⟨hanswer, ?_⟩
  rw [Kindred, seeds_step]
  exact hafter

theorem discount_step (e : Episode) (a : Action) : (e.step a).2.discount = e.discount := by
  unfold step
  split
  · rfl
  · split
    · rfl
    · rfl

theorem engine_step_cases (e : Episode) (a : Action) :
    (e.step a).2.engine = e.engine ∨ (e.step a).2.engine = (e.engine.step a).2 := by
  unfold step
  split
  · exact .inl rfl
  · right
    split
    next hstep => rw [hstep]
    next hstep => rw [hstep]; rfl

theorem configured_create (h : Grounded d i m) (he : Episode.create m c = .ok e) :
    Configured m c e := by
  obtain ⟨engine, hengine, hcreate⟩ := bind_eq_ok_iff.mp he
  cases hcreate
  exact ⟨Engine.configured_create h hengine, rfl⟩

theorem configured_resetWithSeed (h : Grounded d i m) (he : Configured m c e) (seed : UInt64) :
    Configured m c (e.resetWithSeed seed) :=
  ⟨Engine.configured_reset h he.engine seed, he.discount⟩

theorem configured_step (h : Grounded d i m) (he : Configured m c e) (a : Action) :
    Configured m c (e.step a).2 := by
  have hdiscount := (discount_step e a).trans he.discount
  refine ⟨?_, hdiscount⟩
  rcases engine_step_cases e a with hkept | hstep
  · rw [hkept]
    exact he.engine
  · rw [hstep]
    exact Engine.configured_step h he.engine a

/-- What every step preserves holds when a policy has been played. -/
theorem playOn_preserves {σ : Type} {p : Policy σ} {P : Episode → Prop}
    (hstep : ∀ e a, P e → P (e.step a).2) {memory : σ} {observation : Valuation}
    (he : P e) : P (e.playOn p memory observation).episode := by
  have hafter : ∀ {e : Episode} {a : Action} {r : Except (Fault SimError) StepOutcome}
      {e' : Episode}, P e → e.step a = (r, e') → P e' := by
    intro e a r e' he heq
    have hnext := hstep e a he
    rwa [heq] at hnext
  fun_induction playOn p memory observation e with
  | case1 => exact he
  | case2 _ _ _ _ _ _ _ _ hfailed => exact hafter he hfailed
  | case3 _ _ _ _ _ _ _ _ hok _ ih => exact ih (hafter he hok)
  | case4 _ _ _ _ _ _ _ _ hok _ => exact hafter he hok

theorem configured_run {σ : Type} (h : Grounded d i m) (he : Configured m c e) (p : Policy σ)
    (seed : UInt64) : Configured m c (e.run p seed).episode :=
  playOn_preserves (P := Configured m c) (fun _ a he => configured_step h he a)
    (configured_resetWithSeed h he seed)

theorem configured_of_reachable (h : Grounded d i m) (he : Reachable m c e) :
    Configured m c e := by
  induction he with
  | create hcreate => exact configured_create h hcreate
  | reset _ ih =>
      have hengine := Engine.configured_reset h ih.engine
      exact ⟨hengine _, ih.discount⟩
  | resetWithSeed _ seed ih => exact configured_resetWithSeed h ih seed
  | step _ a ih => exact configured_step h ih a
  | run _ p seed ih => exact configured_run h ih p seed

/-- Episodes that work alike are kindred once they are reset with one seed. -/
theorem kindred_resetWithSeed (h : Grounded d i m) (he : Configured m c e)
    (he' : Configured m c' e') (hcheck : c.checkConstraints = c'.checkConstraints)
    (hhorizon : c.horizon = c'.horizon) (hdiscount : c.discount = c'.discount) (seed : UInt64) :
    Kindred m (e.resetWithSeed seed) (e'.resetWithSeed seed) := by
  have hengine := Engine.alike_reset_of_configured h he.engine he'.engine hcheck hhorizon seed
  have hdiscount' : e'.discount = e.discount := by
    rw [he'.discount, ← hdiscount, he.discount]
  refine ⟨e'.engine.reset seed, hengine, ?_⟩
  simp only [resetWithSeed, hdiscount']

end Episode

/-! ## Forgotten history -/

namespace Model

variable {d : Domain} {i : Instance} {m : Model} {c c' : EngineConfig}

/-- After resets with one seed, episodes of a model whose configurations differ
at most in their seeds look and answer alike for good, whatever was done with
them before, and so do engines, for which the discount does not matter. -/
theorem reset_forgets_history (h : Model.ground d i = .ok m)
    (hcheck : c.checkConstraints = c'.checkConstraints) (hhorizon : c.horizon = c'.horizon) :
    (c.discount = c'.discount →
      ∀ e e', Episode.Reachable m c e → Episode.Reachable m c' e' →
        ∀ (seed : UInt64) (actions : List Action),
          (e.resetWithSeed seed).sight = (e'.resetWithSeed seed).sight ∧
            sightings Episode.step Episode.sight (e.resetWithSeed seed) actions =
              sightings Episode.step Episode.sight (e'.resetWithSeed seed) actions) ∧
      ∀ e e', Engine.Reachable m c e → Engine.Reachable m c' e' →
        ∀ (seed : UInt64) (actions : List Action),
          (e.reset seed).sight = (e'.reset seed).sight ∧
            sightings Engine.step Engine.sight (e.reset seed) actions =
              sightings Engine.step Engine.sight (e'.reset seed) actions := by
  have hg := grounded_of_ground h
  constructor
  · intro hdiscount e e' he he' seed actions
    have hkindred := Episode.kindred_resetWithSeed hg (Episode.configured_of_reachable hg he)
      (Episode.configured_of_reachable hg he') hcheck hhorizon hdiscount seed
    refine ⟨hkindred.sight_eq, ?_⟩
    exact sightings_eq_of_alike (Episode.Kindred m)
      (fun _ _ a hkindred => Episode.kindred_step hg hkindred a)
      (fun _ _ hkindred => hkindred.sight_eq) hkindred actions
  · intro e e' he he' seed actions
    have halike := Engine.alike_reset_of_configured hg (Engine.configured_of_reachable hg he)
      (Engine.configured_of_reachable hg he') hcheck hhorizon seed
    refine ⟨halike.sight_eq, ?_⟩
    exact sightings_eq_of_alike (Engine.Alike m)
      (fun _ _ a halike => Engine.alike_step hg halike a)
      (fun _ _ halike => halike.sight_eq) halike actions

/-- Lamps that were never switched and lamps that were played with under another
seed are the same after a reset. -/
theorem reset_forgets_history_lamps :
    let toggle := Action.noop.set "toggle" ["l1"] (.bool true)
    let c := EngineConfig.standard
    let c' := { EngineConfig.standard with seed := 9 }
    c.checkConstraints = c'.checkConstraints ∧ c.horizon = c'.horizon ∧
      c.discount = c'.discount ∧
        ∃ e e', Episode.create Lamps.model c = .ok e ∧ Episode.create Lamps.model c' = .ok e' ∧
          sightings Episode.step Episode.sight (e.resetWithSeed 5) [toggle, toggle, toggle] =
            sightings Episode.step Episode.sight
              (((e'.reset.step toggle).2.run (.constant toggle) 3).episode.resetWithSeed 5)
              [toggle, toggle, toggle] := by
  intro toggle c c'
  have hc : c.validate = .ok () := by decide +kernel
  have hc' : c'.validate = .ok () := by decide +kernel
  obtain ⟨e, he⟩ := Episode.exists_create Lamps.model hc
  obtain ⟨e', he'⟩ := Episode.exists_create Lamps.model hc'
  have hplayed : Episode.Reachable Lamps.model c'
      ((e'.reset.step toggle).2.run (.constant toggle) 3).episode :=
    .run (.step (.reset (.create he')) toggle) _ 3
  have hcheck : c.checkConstraints = c'.checkConstraints := rfl
  have hhorizon : c.horizon = c'.horizon := rfl
  obtain ⟨hepisodes, _⟩ := reset_forgets_history Lamps.ground_eq hcheck hhorizon
  have hsame := hepisodes rfl e _ (.create he) hplayed 5 [toggle, toggle, toggle]
  exact ⟨hcheck, hhorizon, rfl, e, e', he, he', hsame.2⟩

end Model
end LiftedPomdp
