import LiftedPomdp.Ground.Grounding
import LiftedPomdp.Proofs.Definition.Validation
import Mathlib.Data.List.Flatten
import Mathlib.Data.List.Nodup
import Mathlib.Data.List.Pairwise

/-!
# Names and what they refer to

Types, fluents and objects are found by name.  Where names are distinct, the
number under which something is found determines it and is determined by it.
Validation makes the names of a grounded model distinct: objects differ even
across types, so that an object has one type and one ordinal.
-/

namespace LiftedPomdp

open Effects

/-! ## Finding by name -/

section Lookup

variable {α : Type} {key : α → String} {xs : Array α}

theorem key_injective (h : (xs.toList.map key).Nodup) {k l : Nat} {x y : α}
    (hx : xs[k]? = some x) (hy : xs[l]? = some y) (hkey : key x = key y) : k = l := by
  rw [← Array.getElem?_toList] at hx hy
  have hk : (xs.toList.map key)[k]? = some (key x) := by simp [hx]
  have hl : (xs.toList.map key)[l]? = some (key x) := by simp [hy, hkey]
  exact (List.getElem?_inj (List.getElem?_eq_some_iff.mp hk).1 h).mp (hk.trans hl.symm)

theorem findIdx?_key_eq_some_iff (h : (xs.toList.map key).Nodup) {name : String} {k : Nat} :
    xs.findIdx? (fun x => key x == name) = some k ↔ ∃ x, xs[k]? = some x ∧ key x = name := by
  rw [Array.findIdx?_eq_some_iff_getElem]
  constructor
  · rintro ⟨hk, hname, _⟩
    exact ⟨xs[k], Array.getElem?_eq_getElem hk, by simpa using hname⟩
  · rintro ⟨x, hx, hname⟩
    obtain ⟨hk, rfl⟩ := Array.getElem?_eq_some_iff.mp hx
    refine ⟨hk, by simpa using hname, ?_⟩
    intro j hj hother
    have hlt : j < xs.size := Nat.lt_trans hj hk
    have heq : j = k := key_injective h (Array.getElem?_eq_getElem hlt) hx (by
      rw [hname]
      simpa using hother)
    exact absurd hj (by simp [heq])

theorem find?_key_eq_some_iff (h : (xs.toList.map key).Nodup) {name : String} {x : α} :
    xs.find? (fun x => key x == name) = some x ↔ x ∈ xs ∧ key x = name := by
  constructor
  · intro hfind
    exact ⟨Array.mem_of_find?_eq_some hfind, by simpa using Array.find?_some hfind⟩
  · rintro ⟨hmem, hname⟩
    obtain ⟨y, hy⟩ : ∃ y, xs.find? (fun x => key x == name) = some y := by
      rw [← Option.isSome_iff_exists, Array.find?_isSome]
      exact ⟨x, hmem, by simpa using hname⟩
    obtain ⟨k, hk⟩ := Array.mem_iff_getElem?.mp hmem
    obtain ⟨l, hl⟩ := Array.mem_iff_getElem?.mp (Array.mem_of_find?_eq_some hy)
    have hkey : key x = key y := by
      rw [hname]
      exact (by simpa using Array.find?_some hy : key y = name).symm
    have heq := key_injective h hk hl hkey
    rw [hy, ← hk, ← hl, heq]

end Lookup

/-! ## Objects -/

/-- Where the lists of an enumeration have no repetition even together, an
entry tells its list. -/
theorem eq_of_mem_of_nodup_flatMap {α β : Type} {xs : List α} {f : α → List β}
    (h : (xs.flatMap f).Nodup) {a b : α} (ha : a ∈ xs) (hb : b ∈ xs) {y : β}
    (hya : y ∈ f a) (hyb : y ∈ f b) : a = b := by
  by_contra hne
  have hsymm : Std.Symm (Function.onFun List.Disjoint f) :=
    ⟨fun _ _ hdisjoint _ hx hy => hdisjoint hy hx⟩
  exact (List.nodup_flatMap.mp h).2.forall ha hb hne hya hyb

theorem ObjectType.getElem?_of_ordinal? {t : ObjectType} {o : String} {k : Nat}
    (h : t.ordinal? o = some k) : t.objects[k]? = some o := by
  obtain ⟨hk, hget, _⟩ := List.idxOf?_eq_some_iff.mp h
  rw [List.getElem?_eq_getElem hk, hget]

theorem ObjectType.ordinal?_of_getElem? {t : ObjectType} {o : String} {k : Nat}
    (hnodup : t.objects.Nodup) (h : t.objects[k]? = some o) : t.ordinal? o = some k := by
  obtain ⟨hk, hget⟩ := List.getElem?_eq_some_iff.mp h
  refine List.idxOf?_eq_some_iff.mpr ⟨hk, hget, fun j hj heq => ?_⟩
  have hlt : j < t.objects.length := Nat.lt_trans hj hk
  have : j = k := (List.Nodup.getElem_inj_iff hnodup).mp (heq.trans hget.symm)
  omega

theorem ObjectType.ordinal?_lt_size {t : ObjectType} {o : String} {k : Nat}
    (h : t.ordinal? o = some k) : k < t.size :=
  (List.getElem?_eq_some_iff.mp (ObjectType.getElem?_of_ordinal? h)).1

/-- Types with distinct names, and distinct objects throughout. -/
structure NamedApart (types : Array ObjectType) : Prop where
  typeNames : (types.toList.map (·.name)).Nodup
  objectNames : (types.toList.flatMap (·.objects)).Nodup

namespace NamedApart

variable {types : Array ObjectType}

theorem objects_nodup (h : NamedApart types) {a : Nat} {t : ObjectType}
    (ht : types[a]? = some t) : t.objects.Nodup := by
  have hmem : t ∈ types.toList := by
    rw [Array.mem_toList_iff]
    exact Array.mem_of_getElem? ht
  exact (List.nodup_flatMap.mp h.objectNames).1 t hmem

/-- An object belongs to one type. -/
theorem type_unique (h : NamedApart types) {a b : Nat} {t u : ObjectType} {o : String}
    (ht : types[a]? = some t) (hu : types[b]? = some u)
    (hot : o ∈ t.objects) (hou : o ∈ u.objects) : a = b := by
  have htmem : t ∈ types.toList := by
    rw [Array.mem_toList_iff]
    exact Array.mem_of_getElem? ht
  have humem : u ∈ types.toList := by
    rw [Array.mem_toList_iff]
    exact Array.mem_of_getElem? hu
  have heq : t = u := eq_of_mem_of_nodup_flatMap h.objectNames htmem humem hot hou
  exact key_injective h.typeNames ht hu (congrArg ObjectType.name heq)

end NamedApart

namespace Grounding

theorem objectTypes_eq_ok {d : Domain} {i : Instance} {types : Array ObjectType}
    (h : objectTypes d i = .ok types) :
    types = (d.types.map fun name => { name, objects := objectsOf i name }).toArray := by
  unfold objectTypes at h
  rw [seq_eq_ok_iff, pure_eq_ok_iff] at h
  exact h.2.symm

theorem objectsOf_nodup {i : Instance} (h : (i.objects.flatMap (·.objects)).Nodup)
    (name : String) : (objectsOf i name).Nodup :=
  h.sublist (List.filter_sublist.flatMap _)

/-- Declarations for different types have no object in common. -/
theorem objectsOf_disjoint {i : Instance} (h : (i.objects.flatMap (·.objects)).Nodup)
    {name other : String} (hne : name ≠ other) :
    List.Disjoint (objectsOf i name) (objectsOf i other) := by
  intro o ho ho'
  obtain ⟨decl, hdecl, hmem⟩ := List.mem_flatMap.mp ho
  obtain ⟨decl', hdecl', hmem'⟩ := List.mem_flatMap.mp ho'
  rw [List.mem_filter, beq_iff_eq] at hdecl hdecl'
  have heq : decl = decl' := eq_of_mem_of_nodup_flatMap h hdecl.1 hdecl'.1 hmem hmem'
  exact hne (hdecl.2.symm.trans (heq ▸ hdecl'.2))

theorem namedApart_of_objectTypes {d : Domain} {i : Instance} {types : Array ObjectType}
    (hdomain : d.validate = .ok ()) (hinstance : i.validate = .ok ())
    (h : objectTypes d i = .ok types) : NamedApart types := by
  have htypes := (Domain.nodup_of_validate hdomain).1
  have hobjects := Instance.nodup_of_validate hinstance
  rw [objectTypes_eq_ok h]
  constructor
  · simpa [List.map_map, Function.comp_def] using htypes
  · rw [List.toList_toArray, List.flatMap_map, List.nodup_flatMap]
    constructor
    · intro name _
      exact objectsOf_nodup hobjects name
    · refine htypes.imp ?_
      intro name other hne
      exact objectsOf_disjoint hobjects hne

end Grounding
end LiftedPomdp
