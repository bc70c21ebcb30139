import LiftedPomdp.Proofs.Ground.Lookup
import LiftedPomdp.Proofs.Run.Typing

/-!
# Looking up the state of an engine

The values of all state fluents of a reachable engine, searched for a key, give
what the engine answers for the key alone, and the same holds of the
non-fluents of its model.
-/

namespace LiftedPomdp

namespace Engine

variable {d : Domain} {i : Instance} {m : Model} {c : EngineConfig} {e : Engine}

theorem get?_state (h : Grounded d i m) (hmodel : e.model = m) (name : String)
    (args : List String) : e.state.get? name args = e.stateValue? name args := by
  subst hmodel
  exact h.get?_describe_eq_lookup? .state e.current name args

theorem isSome_stateValue?_iff (h : Grounded d i m) (he : Typed m e) {name : String}
    {args : List String} :
    (e.stateValue? name args).isSome ↔ ⟨name, args⟩ ∈ m.groundFluents .state := by
  obtain ⟨rfl, hcurrent, _, _⟩ := he
  exact h.isSome_lookup?_iff hcurrent.size_eq

end Engine

namespace Model

variable {d : Domain} {i : Instance} {m : Model}

/-- In a ground model, and in every engine that resets and steps lead to, the
search for a key among all values agrees with the lookup of its place, for
every name and every list of arguments.  Both find a value exactly for the
ground fluents of the kind in question, which are those that the domain
declares for objects of the instance. -/
theorem lookups_agree (h : Model.ground d i = .ok m) :
    (∀ name args, m.nonFluentValues.get? name args = m.nonFluent? name args ∧
      ((m.nonFluent? name args).isSome ↔ ⟨name, args⟩ ∈ m.groundFluents .nonFluent)) ∧
      (∀ c e, Engine.Reachable m c e → ∀ name args,
        e.state.get? name args = e.stateValue? name args ∧
          ((e.stateValue? name args).isSome ↔ ⟨name, args⟩ ∈ m.groundFluents .state)) ∧
      ∀ kind g, g ∈ m.groundFluents kind ↔ d.Declares i kind g := by
  have hg := grounded_of_ground h
  refine ⟨?_, ?_, fun kind g => hg.mem_groundFluents_iff⟩
  · intro name args
    constructor
    · exact hg.get?_describe_eq_lookup? .nonFluent m.nonFluents name args
    · exact hg.isSome_lookup?_iff hg.typed_nonFluents.size_eq
  · intro c e he name args
    have htyped := Engine.typed_of_reachable hg he
    constructor
    · exact Engine.get?_state hg htyped.model name args
    · exact Engine.isSome_stateValue?_iff hg htyped

/-- The lamps after a toggle of the second one: it is found in both ways, a
third lamp is not, and neither is a lamp in place of a room. -/
theorem lookups_agree_lamps :
    EngineConfig.standard.validate = .ok () ∧
      (Lamps.model.nonFluent? "IN" ["l1", "l0"]).isSome = false ∧
      ∃ e, Engine.create Lamps.model .standard = .ok e ∧
        let e' := (e.step (Action.noop.set "toggle" ["l1"] (.bool true))).2
        e'.state.get? "lit" ["l1"] = e'.stateValue? "lit" ["l1"] ∧
          (e'.stateValue? "lit" ["l1"]).isSome = true ∧
          (e'.stateValue? "lit" ["l2"]).isSome = false := by
  have hc : EngineConfig.standard.validate = .ok () := by decide +kernel
  obtain ⟨e, he⟩ := Engine.exists_create Lamps.model hc
  obtain ⟨hnonFluents, hstates, _⟩ := lookups_agree Lamps.ground_eq
  have hstate := hstates _ _ ((Engine.Reachable.create he).step
    (Action.noop.set "toggle" ["l1"] (.bool true)))
  refine ⟨hc, ?_, e, he, (hstate "lit" ["l1"]).1, ?_, ?_⟩
  · rw [Bool.eq_false_iff, ne_eq, (hnonFluents "IN" ["l1", "l0"]).2]
    decide +kernel
  · rw [(hstate "lit" ["l1"]).2]
    decide +kernel
  · rw [Bool.eq_false_iff, ne_eq, (hstate "lit" ["l2"]).2]
    decide +kernel

end Model
end LiftedPomdp
