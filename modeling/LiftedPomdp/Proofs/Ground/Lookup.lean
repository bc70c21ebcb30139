import LiftedPomdp.Proofs.Ground.Tables

/-!
# Looking values up

The value of a ground fluent is found by its key among all values of its kind,
or by its place, which is computed.  In a grounded model both ways give the
same answer to every name with every list of arguments: a value where the
domain declares a fluent of that kind for such objects, and none for another
kind, for objects of another type, and for too many or too few of them.
-/

namespace LiftedPomdp

open Grounding

/-! ## Declared ground fluents -/

/-- A domain declares a fluent of a kind under the name of a ground fluent, for
as many objects as it is applied to, and of their types. -/
def Domain.Declares (d : Domain) (i : Instance) (kind : FluentKind) (g : GroundFluent) : Prop :=
  ∃ f ∈ d.fluents, f.kind = kind ∧ f.name = g.name ∧
    List.Forall₂ (fun o p => o ∈ objectsOf i p) g.args f.params

theorem mem_tuples_iff {α : Type} {xs : List α} {lists : List (List α)} :
    xs ∈ tuples lists ↔ List.Forall₂ (· ∈ ·) xs lists := by
  induction lists generalizing xs with
  | nil => rw [tuples, List.mem_singleton, List.forall₂_nil_right_iff]
  | cons list lists ih =>
      simp only [tuples, List.mem_flatMap, List.mem_map, ih, List.forall₂_cons_right_iff]
      constructor
      · rintro ⟨x, hx, rest, hrest, rfl⟩
        exact ⟨x, rest, hx, hrest, rfl⟩
      · rintro ⟨x, rest, hx, hrest, rfl⟩
        exact ⟨x, hx, rest, hrest, rfl⟩

namespace Grounded

variable {d : Domain} {i : Instance} {m : Model} {kind : FluentKind} {table : Table}
  {name : String} {args : List String}

/-- The ground fluents of a kind are those that the domain declares. -/
theorem mem_groundFluents_iff (h : Grounded d i m) {g : GroundFluent} :
    g ∈ m.groundFluents kind ↔ d.Declares i kind g := by
  rw [h.groundFluents_eq, List.mem_flatMap]
  constructor
  · rintro ⟨f, hf, hg⟩
    rw [List.mem_filter, beq_iff_eq] at hf
    obtain ⟨args, hargs, rfl⟩ := List.mem_map.mp hg
    rw [mem_tuples_iff, List.forall₂_map_right_iff] at hargs
    exact ⟨f, (sortedFluents_perm d).mem_iff.mp hf.1, hf.2, rfl, hargs⟩
  · rintro ⟨f, hf, hkind, hname, hargs⟩
    refine ⟨f, List.mem_filter.mpr ⟨(sortedFluents_perm d).mem_iff.mpr hf, by simpa using hkind⟩,
      List.mem_map.mpr ⟨g.args, ?_, by rw [hname]⟩⟩
    rwa [mem_tuples_iff, List.forall₂_map_right_iff]

/-- A declared fluent is found under its name. -/
theorem fluent?_eq_some (h : Grounded d i m) {f : FluentDecl} (hf : f ∈ d.fluents) :
    d.fluent? f.name = some f := by
  have hnames : (d.fluents.toArray.toList.map (·.name)).Nodup :=
    (Domain.nodup_of_validate h.domainValid).2.1
  rw [Domain.fluent?, ← List.find?_toArray]
  exact (find?_key_eq_some_iff hnames).mpr ⟨List.mem_toArray.mpr hf, rfl⟩

/-- The block of a declared fluent, which is of its kind and range. -/
theorem exists_block_of_fluent? (h : Grounded d i m) {f : FluentDecl}
    (hf : d.fluent? name = some f) :
    ∃ b, m.block? name = some b ∧ b.kind = f.kind ∧ b.range = f.range := by
  have hname : f.name = name := by simpa using List.find?_some hf
  have hsorted := (sortedFluents_perm d).mem_iff.mpr (List.mem_of_find?_eq_some hf)
  obtain ⟨b, hb, place, hplaced⟩ :=
    Effects.exists_of_mem_of_forall₂ h.placedAll.forall₂ hsorted
  refine ⟨b, h.block?_eq_some_iff.mpr ⟨Array.mem_toList_iff.mp hb, ?_⟩, hplaced.kind,
    hplaced.range⟩
  rw [hplaced.name, hname]

/-- What a declaration says of the ground fluents of its name. -/
theorem declares_iff (h : Grounded d i m) {f : FluentDecl} (hf : d.fluent? name = some f) :
    d.Declares i f.kind { name, args } ↔
      List.Forall₂ (fun o p => o ∈ objectsOf i p) args f.params := by
  have hname : f.name = name := by simpa using List.find?_some hf
  constructor
  · rintro ⟨f', hf', _, hname', hargs⟩
    dsimp only at hname' hargs
    rw [← hname', h.fluent?_eq_some hf', Option.some.injEq] at hf
    rwa [← hf]
  · exact fun hargs => ⟨f, List.mem_of_find?_eq_some hf, rfl, hname, hargs⟩

/-! ## Both ways of looking up -/

theorem locate?_eq_some_of_mem (h : Grounded d i m) {g : GroundFluent}
    (hg : g ∈ m.groundFluents kind) :
    ∃ n < m.groundCount kind, m.locate? g.name g.args = some (kind, n) := by
  obtain ⟨n, hn⟩ := List.mem_iff_getElem?.mp hg
  have hlt := (List.getElem?_eq_some_iff.mp hn).1
  rw [length_groundFluents] at hlt
  exact ⟨n, hlt, h.locate?_iff_getElem?.mpr hn⟩

/-- The entry of a key is the one at its place. -/
theorem get?_describe_eq_lookup? (h : Grounded d i m) (kind : FluentKind) (table : Table)
    (name : String) (args : List String) :
    (m.describe kind table).get? name args = m.lookup? kind table name args := by
  by_cases hmem : ⟨name, args⟩ ∈ m.groundFluents kind
  · obtain ⟨n, _, hplace⟩ := h.locate?_eq_some_of_mem hmem
    rw [h.get?_describe hplace, Model.lookup?, hplace]
    exact (if_pos rfl).symm
  · have hplace : ∀ n, m.locate? name args ≠ some (kind, n) := fun n hn =>
      hmem (List.mem_of_getElem? (h.locate?_iff_getElem?.mp hn))
    rw [get?_describe_eq_none hmem, Model.lookup?]
    split
    next k n hlocate =>
      rw [if_neg]
      rintro rfl
      exact hplace n hlocate
    · rfl

theorem lookup?_eq (h : Grounded d i m) {n : Nat}
    (hplace : m.locate? name args = some (kind, n)) :
    m.lookup? kind table name args = table[n]? := by
  rw [← h.get?_describe_eq_lookup?, h.get?_describe hplace]

/-- A table that has an entry for each ground fluent of its kind has a value
under exactly their keys. -/
theorem isSome_lookup?_iff (h : Grounded d i m) (hsize : table.size = m.groundCount kind) :
    (m.lookup? kind table name args).isSome ↔ ⟨name, args⟩ ∈ m.groundFluents kind := by
  constructor
  · intro hsome
    unfold Model.lookup? at hsome
    split at hsome
    next k n hlocate =>
      split at hsome
      next hkind => exact List.mem_of_getElem? (h.locate?_iff_getElem?.mp (hkind ▸ hlocate))
      · cases hsome
    · cases hsome
  · intro hmem
    obtain ⟨n, hn, hplace⟩ := h.locate?_eq_some_of_mem hmem
    rw [h.lookup?_eq hplace, Array.getElem?_eq_getElem (hsize ▸ hn)]
    rfl

theorem mem_groundFluents_of_lookup? (h : Grounded d i m) {v : Value}
    (hv : m.lookup? kind table name args = some v) : ⟨name, args⟩ ∈ m.groundFluents kind := by
  unfold Model.lookup? at hv
  split at hv
  next k n hlocate =>
    split at hv
    next hkind => exact List.mem_of_getElem? (h.locate?_iff_getElem?.mp (hkind ▸ hlocate))
    · cases hv
  · cases hv

/-- A value is found only for objects of the declared types. -/
theorem forall₂_of_lookup? (h : Grounded d i m) {f : FluentDecl} (hf : d.fluent? name = some f)
    {v : Value} (hv : m.lookup? f.kind table name args = some v) :
    List.Forall₂ (fun o p => o ∈ objectsOf i p) args f.params :=
  (h.declares_iff hf).mp (h.mem_groundFluents_iff.mp (h.mem_groundFluents_of_lookup? hv))

/-- No value is found for other objects. -/
theorem lookup?_eq_none (h : Grounded d i m) {f : FluentDecl} (hf : d.fluent? name = some f)
    (hargs : ¬List.Forall₂ (fun o p => o ∈ objectsOf i p) args f.params) :
    m.lookup? f.kind table name args = none := by
  rw [Option.eq_none_iff_forall_ne_some]
  exact fun v hv => hargs (h.forall₂_of_lookup? hf hv)

/-- A typed table has a value of the declared range for all objects of the
declared types. -/
theorem exists_lookup?_of_typed (h : Grounded d i m) {f : FluentDecl}
    (hf : d.fluent? name = some f) (ht : m.Typed f.kind table)
    (hargs : List.Forall₂ (fun o p => o ∈ objectsOf i p) args f.params) :
    ∃ v, m.lookup? f.kind table name args = some v ∧ v.range = f.range := by
  have hmem := h.mem_groundFluents_iff.mpr ((h.declares_iff hf).mpr hargs)
  obtain ⟨n, _, hplace⟩ := h.locate?_eq_some_of_mem hmem
  obtain ⟨f', v, hf', _, hv, hrange⟩ :=
    h.exists_entry_of_typed ht (h.locate?_iff_getElem?.mp hplace)
  obtain rfl := Option.some.inj (hf.symm.trans hf')
  exact ⟨v, (h.lookup?_eq hplace).trans hv, hrange⟩

/-- In a typed table, what is declared as a truth value and not true is false. -/
theorem lookup?_eq_false (h : Grounded d i m) {f : FluentDecl} (hf : d.fluent? name = some f)
    (hrange : f.range = .bool) (ht : m.Typed f.kind table)
    (hargs : List.Forall₂ (fun o p => o ∈ objectsOf i p) args f.params)
    (hnot : ¬m.lookup? f.kind table name args = some (.bool true)) :
    m.lookup? f.kind table name args = some (.bool false) := by
  obtain ⟨v, hv, hvrange⟩ := h.exists_lookup?_of_typed hf ht hargs
  rw [hrange] at hvrange
  rw [hv] at hnot ⊢
  cases v with
  | bool b =>
      cases b with
      | true => exact absurd rfl hnot
      | false => rfl
  | int n => cases hvrange
  | real x => cases hvrange

end Grounded
end LiftedPomdp
