import LiftedPomdp.Proofs.Ground.Reordering
import LiftedPomdp.Proofs.Run.Interchange

/-!
# Runs over reordered declarations

Nothing but the digest of an episode reads the fingerprint of a model.  So engines
and episodes over two models that differ in the fingerprint alone answer all calls
in the same way and look the same after each of them, and the order of declarations
can be seen in no run.
-/

namespace LiftedPomdp

open Effects Grounding

namespace Model

variable {d : Domain} {i : Instance} {m : Model} {fluents : List FluentDecl}
  {cpfs : List CpfDecl} {nonFluents initState : List Assignment}

/-- The order of declarations does not matter.  A domain with its fluents and its
functions in another order and an instance with its assignments in another order,
where no ground fluent is assigned twice, ground to the same model, the fingerprint
apart.  Engines over the two models that are set up alike answer all calls in the
same way and look the same after each of them, down to the random stream, and so do
episodes. -/
theorem ground_reordered (h : Model.ground d i = .ok m) (hfluents : fluents.Perm d.fluents)
    (hcpfs : cpfs.Perm d.cpfs) (hnonFluents : Assignment.Reordered i.nonFluents nonFluents)
    (hinitState : Assignment.Reordered i.initState initState) :
    let d' : Domain := { d with fluents, cpfs }
    let i' : Instance := { i with nonFluents, initState }
    let m' : Model := { m with fingerprint := Grounding.fingerprint d' i' }
    Model.ground d' i' = .ok m' ∧
      ∀ c : EngineConfig,
        (∀ e, Engine.create m c = .ok e → ∃ e', Engine.create m' c = .ok e' ∧
          e'.sight = e.sight ∧ ∀ calls : List Engine.Call,
            sightings Engine.call Engine.sight e' calls =
              sightings Engine.call Engine.sight e calls) ∧
        ∀ e, Episode.create m c = .ok e → ∃ e', Episode.create m' c = .ok e' ∧
          e'.engine.sight = e.engine.sight ∧ ∀ calls : List Episode.Call,
            sightings Episode.call (fun e => e.engine.sight) e' calls =
              sightings Episode.call (fun e => e.engine.sight) e calls := by
  intro d' i' m'
  have hreordered : Grounded d' i' m' :=
    (grounded_of_ground h).reorder hfluents hcpfs hnonFluents hinitState rfl
  have hsame : ∀ fs : List Cpf, List.Forall₂ Cpf.Alike fs fs :=
    fun fs => List.forall₂_same.mpr fun f _ => f.alike_self
  have halike : m.Interchangeable m' := interchangeable_withFunctions (hsame _) (hsame _) _
  have hengine : ∀ e : Engine, e.model = m → (e.withModel m').sight = e.sight :=
    fun e he => Engine.sight_withModel (he.symm ▸ halike)
  refine ⟨ground_of_grounded hreordered, fun c => ⟨fun e he => ?_, fun e he => ?_⟩⟩
  · exact (Engine.matching_create halike hengine c).exists_ok he
  · exact (Episode.matching_create halike (fun e => hengine e.engine) c).exists_ok he

/-- The lamps with all lists of declarations and assignments reversed. -/
theorem ground_reordered_lamps :
    let d' : Domain :=
      { Lamps.domain with
        fluents := Lamps.domain.fluents.reverse, cpfs := Lamps.domain.cpfs.reverse }
    let i' : Instance :=
      { Lamps.house with
        nonFluents := Lamps.house.nonFluents.reverse
        initState := Lamps.house.initState.reverse }
    Assignment.Reordered Lamps.house.nonFluents Lamps.house.nonFluents.reverse ∧
      Assignment.Reordered Lamps.house.initState Lamps.house.initState.reverse ∧
        Model.ground d' i' =
          .ok { Lamps.model with fingerprint := Grounding.fingerprint d' i' } := by
  intro d' i'
  have hnonFluents : Assignment.Reordered Lamps.house.nonFluents Lamps.house.nonFluents.reverse :=
    ⟨List.reverse_perm _, fun _ => by decide +kernel⟩
  have hinitState : Assignment.Reordered Lamps.house.initState Lamps.house.initState.reverse :=
    ⟨List.reverse_perm _, fun _ => by decide +kernel⟩
  obtain ⟨hground, -⟩ := ground_reordered Lamps.ground_eq (List.reverse_perm _)
    (List.reverse_perm _) hnonFluents hinitState
  exact ⟨hnonFluents, hinitState, hground⟩

end Model
end LiftedPomdp
