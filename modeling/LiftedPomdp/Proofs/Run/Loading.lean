import LiftedPomdp.Proofs.Ground.Overrides
import LiftedPomdp.Proofs.Run.Reset

/-!
# The state that a reset loads

The non-fluents of a ground model and the state that it starts episodes in have the
values that the instance and the domain prescribe.  An engine shows these values
when it is created and after every reset, whatever was done with it before.
-/

namespace LiftedPomdp

open Effects Grounding

namespace Engine

/-- An engine shows the non-fluents and the state that an instance of a domain prescribes for the
start of an episode. -/
structure Loaded (d : Domain) (i : Instance) (e : Engine) : Prop where
  nonFluents : i.Prescribes d .nonFluent i.nonFluents e.model.nonFluent?
  state : i.Prescribes d .state i.initState e.stateValue?

variable {d : Domain} {i : Instance} {m : Model} {c : EngineConfig} {e : Engine}

theorem loaded_reset (h : Grounded d i m) (hmodel : e.model = m) (seed : UInt64) :
    (e.reset seed).Loaded d i := by
  subst hmodel
  exact ⟨h.prescribes_nonFluents, h.prescribes_initialState⟩

/-- A new engine is one that has been reset. -/
theorem loaded_create (h : Grounded d i m) (he : Engine.create m c = .ok e) :
    e.Loaded d i := by
  unfold create at he
  split at he
  · cases he
  · cases he
    exact loaded_reset h rfl c.seed

end Engine

namespace Model

variable {d : Domain} {i : Instance} {m : Model}

/-- In a ground model every ground non-fluent has the value of the last assignment to it, brought
into the declared range, and the default where there is no such assignment.  The initial state is
filled in the same way, and every engine and every episode shows both when it is created and after
each reset, whatever it has been used for. -/
theorem overrides_exact (h : Model.ground d i = .ok m) :
    i.Prescribes d .nonFluent i.nonFluents m.nonFluent? ∧
      i.Prescribes d .state i.initState m.initialValues.get? ∧
        (∀ c e, Engine.create m c = .ok e → e.Loaded d i) ∧
        (∀ c e, Engine.Reachable m c e → ∀ seed, (e.reset seed).Loaded d i) ∧
        (∀ c e, Episode.create m c = .ok e → e.engine.Loaded d i) ∧
        ∀ c e, Episode.Reachable m c e →
          e.reset.engine.Loaded d i ∧ ∀ seed, (e.resetWithSeed seed).engine.Loaded d i := by
  have hg := grounded_of_ground h
  refine ⟨hg.prescribes_nonFluents, ?_, ?_, ?_, ?_, ?_⟩
  · rw [initialValues, hg.get?_describe_eq]
    exact hg.prescribes_initialState
  · intro c e he
    exact Engine.loaded_create hg he
  · intro c e he seed
    exact Engine.loaded_reset hg (Engine.typed_of_reachable hg he).model seed
  · intro c e he
    obtain ⟨engine, hengine, hcreate⟩ := bind_eq_ok_iff.mp he
    cases hcreate
    exact Engine.loaded_create hg hengine
  · intro c e he
    have hmodel := (Episode.configured_of_reachable hg he).engine.fits.model
    exact ⟨Engine.loaded_reset hg hmodel _, Engine.loaded_reset hg hmodel⟩

/-- The second lamp is said to be found in a room and to glow less than lamps do by default, and
only the first one is lit at the start, also after the second one was toggled. -/
theorem overrides_exact_lamps :
    Model.ground Lamps.domain Lamps.house = .ok Lamps.model ∧
      Lamps.model.nonFluent? "GLOW" ["l0"] = some (.real 0.5) ∧
        Lamps.model.nonFluent? "GLOW" ["l1"] = some (.real 0.25) ∧
        Lamps.model.nonFluent? "IN" ["l1", "r2"] = some (.bool true) ∧
        ∃ e, Engine.create Lamps.model .standard = .ok e ∧
          let e' := (e.step (Action.noop.set "toggle" ["l1"] (.bool true))).2.reset 7
          e'.stateValue? "lit" ["l0"] = some (.bool true) ∧
            e'.stateValue? "lit" ["l1"] = some (.bool false) := by
  obtain ⟨e, he⟩ := Engine.exists_create Lamps.model (c := .standard) (by decide +kernel)
  obtain ⟨hnonFluents, _, _, hreset, _⟩ := overrides_exact Lamps.ground_eq
  have hstate := (hreset _ _ (.step (.create he)
    (Action.noop.set "toggle" ["l1"] (.bool true))) 7).state
  have hdeclares : ∀ {kind : FluentKind} {g : GroundFluent},
      g ∈ Lamps.model.groundFluents kind → Lamps.domain.Declares Lamps.house kind g :=
    Lamps.grounded.mem_groundFluents_iff.mp
  refine ⟨Lamps.ground_eq, ?_, ?_, ?_, e, he, ?_, ?_⟩
  · exact hnonFluents.eq_some (g := ⟨"GLOW", ["l0"]⟩) (hdeclares (by decide +kernel)) rfl rfl
  · exact hnonFluents.eq_some (g := ⟨"GLOW", ["l1"]⟩) (hdeclares (by decide +kernel)) rfl rfl
  · exact hnonFluents.eq_some (g := ⟨"IN", ["l1", "r2"]⟩) (hdeclares (by decide +kernel)) rfl rfl
  · exact hstate.eq_some (g := ⟨"lit", ["l0"]⟩) (hdeclares (by decide +kernel)) rfl rfl
  · exact hstate.eq_some (g := ⟨"lit", ["l1"]⟩) (hdeclares (by decide +kernel)) rfl rfl

end Model
end LiftedPomdp
