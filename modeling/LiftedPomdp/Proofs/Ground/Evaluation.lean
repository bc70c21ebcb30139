import LiftedPomdp.Proofs.Ground.Keys
import Mathlib.Data.List.Sort

/-!
# Evaluating a grounding

Merge sort recurses on lists that get shorter, which proofs do not evaluate.
Fluents of different names are in the same order after an insertion sort.  With
this, with no names to sort where every type in use has an object, and with a
bound on the nodes that the dependency order takes, the grounding of a small
sample can be evaluated and checked.
-/

namespace LiftedPomdp

open Effects Grounding

namespace Grounding

/-- Fluents of different names may be sorted by insertion. -/
theorem sortedFluents_eq_insertionSort {d : Domain} (h : (d.fluents.map (·.name)).Nodup) :
    sortedFluents d = d.fluents.insertionSort fun f g => f.name ≤ g.name :=
  Grounded.sortedFluents_eq (List.perm_insertionSort _ d.fluents) h
    (List.pairwise_insertionSort _ d.fluents)

/-- The check that every type in use has an object, sorting only names of types
that have none. -/
def checkNoneBare (d : Domain) (types : Array ObjectType) : Except InstantiationError Unit :=
  let bare := types.toList.filter fun t => t.objects.isEmpty && (usedTypes d).contains t.name
  if bare.isEmpty then .ok () else checkInhabited d types

theorem checkInhabited_eq_checkNoneBare : checkInhabited = checkNoneBare := by
  funext d types
  rw [checkNoneBare]
  split
  next hbare =>
    rw [checkInhabited, List.isEmpty_iff.mp hbare, List.map_nil, List.mergeSort_nil]
  · rfl

end Grounding

theorem Effects.mem_toOption_iff {ε α : Type} {x : Except ε α} {a : α} :
    a ∈ x.toOption ↔ x = .ok a := by
  cases x with
  | error e => simp [Except.toOption]
  | ok b => simp [Except.toOption]

/-- A grounding that is found to succeed with a model of some kind does so. -/
theorem Model.exists_ground_of_any {d : Domain} {i : Instance} {P : Model → Prop}
    [DecidablePred P] (h : (Model.ground d i).toOption.any (fun m => decide (P m)) = true) :
    ∃ m, Model.ground d i = .ok m ∧ P m := by
  cases hground : Model.ground d i with
  | error f =>
      rw [hground] at h
      cases h
  | ok m =>
      rw [hground] at h
      exact ⟨m, rfl, of_decide_eq_true h⟩

end LiftedPomdp
