import LiftedPomdp.Definition.Validation
import LiftedPomdp.Proofs.Effects.Except
import Mathlib.Data.List.Nodup

/-!
# What validation establishes

A domain that passes validation declares no type, no fluent and no conditional
probability function twice, and an instance that passes it names all of its
objects apart, whatever their types.
-/

namespace LiftedPomdp

open Effects

theorem firstRepeated?_eq_none_iff {seen names : List String} :
    firstRepeated? seen names = none ↔ names.Nodup ∧ ∀ name ∈ names, name ∉ seen := by
  induction names generalizing seen with
  | nil => simp [firstRepeated?]
  | cons name names ih =>
      by_cases hname : name ∈ seen
      · simp [firstRepeated?, hname]
      · rw [firstRepeated?, if_neg (by simpa using hname), ih]
        simp only [List.nodup_cons, List.mem_cons, not_or, forall_eq_or_imp]
        constructor
        · rintro ⟨hnodup, hrest⟩
          exact ⟨⟨fun hmem => (hrest name hmem).1 rfl, hnodup⟩, hname,
            fun other hother => (hrest other hother).2⟩
        · rintro ⟨⟨hfresh, hnodup⟩, _, hrest⟩
          refine ⟨hnodup, fun other hother => ⟨?_, hrest other hother⟩⟩
          rintro rfl
          exact hfresh hother

namespace Domain

theorem checkDistinct_eq_ok_iff {kind : String} {names : List String} :
    checkDistinct kind names = .ok () ↔ names.Nodup := by
  unfold checkDistinct
  cases h : firstRepeated? [] names with
  | none =>
      have hnodup := (firstRepeated?_eq_none_iff.mp h).1
      simp [hnodup]
  | some name =>
      have hrepeat : ¬names.Nodup := by
        intro hnodup
        have hnone := firstRepeated?_eq_none_iff.mpr ⟨hnodup, fun n _ => List.not_mem_nil⟩
        rw [h] at hnone
        cases hnone
      simp [hrepeat]

theorem nodup_of_validate {d : Domain} (h : d.validate = .ok ()) :
    d.types.Nodup ∧ (d.fluents.map (·.name)).Nodup ∧ (d.cpfs.map (·.fluent)).Nodup := by
  simp only [validate, seq_eq_ok_iff, checkDistinct_eq_ok_iff] at h
  obtain ⟨_, _, htypes, _, hfluents, _, hcpfs, _⟩ := h
  exact ⟨htypes, hfluents, hcpfs⟩

theorem ne_empty_of_checkIdentifier {name : String}
    (h : checkIdentifier name = .ok ()) : name ≠ "" := by
  rintro rfl
  revert h
  decide +kernel

/-- Types and fluents have names. -/
theorem ne_empty_of_validate {d : Domain} (h : d.validate = .ok ()) :
    (∀ type ∈ d.types, type ≠ "") ∧ ∀ f ∈ d.fluents, f.name ≠ "" := by
  simp only [validate, checkFluent, seq_eq_ok_iff, forM_eq_ok_iff] at h
  obtain ⟨_, htypes, _, hfluents, _⟩ := h
  constructor
  · intro type htype
    exact ne_empty_of_checkIdentifier (htypes type htype)
  · intro f hf
    exact ne_empty_of_checkIdentifier (hfluents f hf).1

end Domain

namespace Instance

theorem checkObjects_eq_ok {seen objects : List String}
    (h : checkObjects seen objects = .ok ()) :
    objects.Nodup ∧ ∀ o ∈ objects, o ∉ seen := by
  induction objects generalizing seen with
  | nil => simp
  | cons o objects ih =>
      unfold checkObjects at h
      split at h
      · cases h
      · split at h
        · cases h
        next hseen =>
          obtain ⟨hnodup, hrest⟩ := ih h
          simp only [List.mem_cons, not_or] at hrest
          refine ⟨List.nodup_cons.mpr ⟨fun hmem => (hrest o hmem).1 rfl, hnodup⟩, ?_⟩
          simp only [List.mem_cons, forall_eq_or_imp]
          exact ⟨by simpa using hseen, fun other hother => (hrest other hother).2⟩

/-- An instance passes validation only if its horizon is positive and its
objects do. -/
theorem validate_eq_ok {i : Instance} (h : i.validate = .ok ()) :
    i.horizon ≠ 0 ∧ checkObjects [] (i.objects.flatMap (·.objects)) = .ok () := by
  unfold validate at h
  by_cases hzero : i.horizon = 0
  · simp [hzero, seq_eq_ok_iff] at h
  · by_cases hunit : inUnitInterval i.discount = true
    · simp only [hzero, hunit] at h
      exact ⟨hzero, h⟩
    · simp [hzero, hunit, seq_eq_ok_iff] at h

theorem nodup_of_validate {i : Instance} (h : i.validate = .ok ()) :
    (i.objects.flatMap (·.objects)).Nodup :=
  (checkObjects_eq_ok (validate_eq_ok h).2).1

end Instance
end LiftedPomdp
