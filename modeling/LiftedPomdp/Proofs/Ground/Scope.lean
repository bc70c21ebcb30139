import LiftedPomdp.Proofs.Ground.Layout

/-!
# Scopes of valid definitions

Names are resolved against the numbered types and the blocks of the fluents.
Where these come from a valid domain and a valid instance, a name stands for
something exactly if it is declared, and numbers and names determine each other.
-/

namespace LiftedPomdp

open Effects Grounding

/-- The scope that expressions are compiled against once a domain and an instance
have been validated, the types numbered and the blocks of the fluents laid out. -/
structure Scope.Built (d : Domain) (i : Instance) (s : Scope) : Prop where
  domainValid : d.validate = .ok ()
  instanceValid : i.validate = .ok ()
  types : objectTypes d i = .ok s.types
  blocks : Grounding.blocks d s.types = .ok s.blocks

namespace Scope

theorem typeName_of_type? {s : Scope} {type : String} {n : Nat} (h : s.type? type = some n) :
    s.typeName n = type := by
  obtain ⟨hn, hname, _⟩ := Array.findIdx?_eq_some_iff_getElem.mp h
  rw [Scope.typeName, Array.getElem?_eq_getElem hn]
  simpa using hname

theorem isSome_objectAmong? {o : String} {first : Nat} {ts : List ObjectType} :
    (objectAmong? o first ts).isSome = true ↔ ∃ t ∈ ts, o ∈ t.objects := by
  induction ts generalizing first with
  | nil => simp [objectAmong?]
  | cons t ts ih =>
      rw [objectAmong?, List.exists_mem_cons_iff]
      by_cases hmem : o ∈ t.objects
      · obtain ⟨k, hk⟩ := Option.isSome_iff_exists.mp (List.isSome_idxOf?.mpr hmem)
        have hordinal : t.ordinal? o = some k := hk
        rw [hordinal]
        exact iff_of_true rfl (.inl hmem)
      · have hordinal : t.ordinal? o = none := List.idxOf?_eq_none_iff.mpr hmem
        rw [hordinal, ih]
        exact (or_iff_right hmem).symm

namespace Built

variable {d : Domain} {i : Instance} {s : Scope}

theorem namedApart (h : s.Built d i) : NamedApart s.types :=
  namedApart_of_objectTypes h.domainValid h.instanceValid h.types

theorem placedAll (h : s.Built d i) :
    PlacedAll s.types [] (sortedFluents d) s.blocks.toList := by
  obtain ⟨bs, hplaced, hblocks⟩ := bind_eq_ok_iff.mp h.blocks
  rw [pure_eq_ok_iff] at hblocks
  rw [← hblocks]
  exact placedAll_of_placeAll hplaced

theorem blocks_nodup (h : s.Built d i) : (s.blocks.toList.map (·.name)).Nodup := by
  rw [h.placedAll.map_name]
  have hnames := (Domain.nodup_of_validate h.domainValid).2.1
  exact ((sortedFluents_perm d).map _).nodup_iff.mpr hnames

/-! ### Types and objects -/

/-- The types of the scope are those that are declared, with their objects. -/
theorem mem_types_iff (h : s.Built d i) {t : ObjectType} :
    t ∈ s.types ↔ t.name ∈ d.types ∧ t.objects = objectsOf i t.name := by
  rw [objectTypes_eq_ok h.types, List.mem_toArray, List.mem_map]
  constructor
  · rintro ⟨type, htype, rfl⟩
    exact ⟨htype, rfl⟩
  · rintro ⟨hname, hobjects⟩
    exact ⟨t.name, hname, by rw [← hobjects]⟩

theorem type?_eq_some_iff (h : s.Built d i) {type : String} {n : Nat} :
    s.type? type = some n ↔ ∃ t, s.types[n]? = some t ∧ t.name = type :=
  findIdx?_key_eq_some_iff h.namedApart.typeNames

theorem exists_type?_iff (h : s.Built d i) {type : String} :
    (∃ n, s.type? type = some n) ↔ type ∈ d.types := by
  constructor
  · rintro ⟨n, hn⟩
    obtain ⟨t, ht, rfl⟩ := h.type?_eq_some_iff.mp hn
    exact (h.mem_types_iff.mp (Array.mem_of_getElem? ht)).1
  · intro htype
    have hmem : ⟨type, objectsOf i type⟩ ∈ s.types := h.mem_types_iff.mpr ⟨htype, rfl⟩
    obtain ⟨n, hn⟩ := Array.mem_iff_getElem?.mp hmem
    exact ⟨n, h.type?_eq_some_iff.mpr ⟨_, hn, rfl⟩⟩

/-- A number has the name of a declared type if it is the number of that type. -/
theorem typeName_eq_iff (h : s.Built d i) {type : String} {n k : Nat}
    (htype : s.type? type = some n) : s.typeName k = type ↔ k = n := by
  constructor
  · intro hname
    have hne : type ≠ "" :=
      (Domain.ne_empty_of_validate h.domainValid).1 type (h.exists_type?_iff.mp ⟨n, htype⟩)
    unfold typeName at hname
    split at hname
    next t ht =>
      have hk : s.type? type = some k := h.type?_eq_some_iff.mpr ⟨t, ht, hname⟩
      exact Option.some.inj (hk.symm.trans htype)
    · exact absurd hname.symm hne
  · rintro rfl
    exact typeName_of_type? htype

theorem exists_ordinal?_iff (h : s.Built d i) {type o : String} {n : Nat}
    (htype : s.type? type = some n) :
    (∃ k, s.ordinal? n o = some k) ↔ o ∈ objectsOf i type := by
  obtain ⟨t, ht, rfl⟩ := h.type?_eq_some_iff.mp htype
  rw [← (h.mem_types_iff.mp (Array.mem_of_getElem? ht)).2, ordinal?, ht, Option.bind_some,
    ← Option.isSome_iff_exists]
  exact List.isSome_idxOf?

/-- The objects of the scope are those that are declared. -/
theorem exists_object?_iff (h : s.Built d i) {o : String} :
    (∃ found, s.object? o = some found) ↔ ∃ decl ∈ i.objects, o ∈ decl.objects := by
  rw [← Option.isSome_iff_exists, object?, isSome_objectAmong?]
  constructor
  · rintro ⟨t, ht, ho⟩
    rw [Array.mem_toList_iff, h.mem_types_iff] at ht
    rw [ht.2, objectsOf, List.mem_flatMap] at ho
    obtain ⟨decl, hdecl, ho⟩ := ho
    exact ⟨decl, List.mem_of_mem_filter hdecl, ho⟩
  · rintro ⟨decl, hdecl, ho⟩
    have htype : decl.typeName ∈ d.types := by
      have hchecked := (seq_eq_ok_iff.mp h.types).1
      rw [forM_eq_ok_iff] at hchecked
      have hdeclared := hchecked decl hdecl
      split at hdeclared
      next hmem => simpa using hmem
      · cases hdeclared
    refine ⟨⟨decl.typeName, objectsOf i decl.typeName⟩, ?_, ?_⟩
    · rw [Array.mem_toList_iff]
      exact h.mem_types_iff.mpr ⟨htype, rfl⟩
    · exact List.mem_flatMap.mpr ⟨decl, List.mem_filter.mpr ⟨hdecl, by simp⟩, ho⟩

/-! ### Fluents -/

theorem fluent?_eq_some_iff (h : s.Built d i) {name : String} {n : Nat} :
    s.fluent? name = some n ↔ ∃ b, s.blocks[n]? = some b ∧ b.name = name :=
  findIdx?_key_eq_some_iff h.blocks_nodup

/-- A block belongs to a declared fluent. -/
theorem exists_decl (h : s.Built d i) {n : Nat} {b : FluentBlock}
    (hb : s.blocks[n]? = some b) : ∃ f ∈ d.fluents, ∃ place, Placed s.types place f b := by
  have hmem : b ∈ s.blocks.toList := Array.mem_toList_iff.mpr (Array.mem_of_getElem? hb)
  obtain ⟨f, hf, hplaced⟩ := exists_of_mem_of_forall₂ h.placedAll.forall₂.flip hmem
  exact ⟨f, (sortedFluents_perm d).mem_iff.mp hf, hplaced⟩

/-- A declared fluent has a block. -/
theorem exists_block (h : s.Built d i) {f : FluentDecl} (hf : f ∈ d.fluents) :
    ∃ n b place, s.fluent? f.name = some n ∧ s.blocks[n]? = some b ∧
      Placed s.types place f b := by
  have hsorted := (sortedFluents_perm d).mem_iff.mpr hf
  obtain ⟨b, hb, place, hplaced⟩ := exists_of_mem_of_forall₂ h.placedAll.forall₂ hsorted
  obtain ⟨n, hn⟩ := Array.mem_iff_getElem?.mp (Array.mem_toList_iff.mp hb)
  exact ⟨n, b, place, h.fluent?_eq_some_iff.mpr ⟨b, hn, hplaced.name⟩, hn, hplaced⟩

end Built
end Scope
end LiftedPomdp
