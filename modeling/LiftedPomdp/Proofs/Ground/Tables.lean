import LiftedPomdp.Proofs.Ground.Keys

/-!
# Typed tables

A table of a kind is typed when it has an entry for each ground fluent of that
kind, and every entry belongs to the declared range.  Defaults are brought into
the range of their fluent when it is laid out, and every assignment before it
is written, so the tables that grounding fills are typed.
-/

namespace LiftedPomdp

open Effects Grounding FluentBlock

theorem Value.range_of_coerce {v w : Value} {r : Range} (h : v.coerce r = some w) :
    w.range = r := by
  unfold Value.coerce at h
  split at h
  · cases h; rfl
  · cases h; rfl
  · cases h; rfl
  · split at h
    · cases h; rfl
    · cases h
  · cases h; rfl
  · cases h

@[simp]
theorem Range.range_zero (r : Range) : r.zero.range = r := by
  cases r <;> rfl

theorem Grounding.range_of_defaultValue {f : FluentDecl} {v : Value}
    (h : defaultValue f = .ok v) : v.range = f.range := by
  unfold defaultValue at h
  split at h
  · cases h
    exact Range.range_zero f.range
  · split at h
    next hcoerce =>
      cases h
      exact Value.range_of_coerce hcoerce
    · cases h

theorem Table.set_eq {table : Table} {n : Nat} (h : n < table.size) (v : Value) :
    table.set n v h = table.setIfInBounds n v :=
  (dif_pos h).symm

namespace Model

/-- The declared ranges of the entries of a table. -/
def ranges (m : Model) (kind : FluentKind) : List Range :=
  (m.blocksOf kind).flatMap fun b => List.replicate b.size b.range

/-- A table has an entry of the declared range for each ground fluent. -/
def Typed (m : Model) (kind : FluentKind) (table : Table) : Prop :=
  table.toList.map Value.range = m.ranges kind

theorem length_ranges (m : Model) (kind : FluentKind) :
    (m.ranges kind).length = m.groundCount kind :=
  Contiguous.length_flatMap fun _ _ => List.length_replicate

theorem Typed.size_eq {m : Model} {kind : FluentKind} {table : Table}
    (h : m.Typed kind table) : table.size = m.groundCount kind := by
  rw [← length_ranges, ← h, List.length_map, Array.length_toList]

end Model

namespace Grounded

variable {d : Domain} {i : Instance} {m : Model}

theorem getElem?_ranges (h : Grounded d i m) {kind : FluentKind} {b : FluentBlock}
    (hb : b ∈ m.blocksOf kind) {j : Nat} (hj : j < b.size) :
    (m.ranges kind)[b.offset + j]? = some b.range := by
  rw [Model.ranges, (h.contiguous kind).getElem?_flatMap
    (fun _ _ => List.length_replicate) hb hj (Nat.zero_add _), List.getElem?_replicate,
    if_pos hj]

/-- Writing a value of the range of a block into the block keeps a table
typed. -/
theorem typed_set (h : Grounded d i m) {kind : FluentKind} {table : Table}
    (ht : m.Typed kind table) {b : FluentBlock} (hb : b ∈ m.blocksOf kind) {j : Nat}
    (hj : j < b.size) {v : Value} (hv : v.range = b.range) :
    m.Typed kind (table.setIfInBounds (b.offset + j) v) := by
  have hget := h.getElem?_ranges hb hj
  obtain ⟨hlt, heq⟩ := List.getElem?_eq_some_iff.mp hget
  rw [Model.Typed, Array.toList_setIfInBounds, List.map_set, ht, hv, ← heq,
    List.set_getElem_self]

theorem typed_defaultTable (h : Grounded d i m) (kind : FluentKind) :
    m.Typed kind (defaultTable m.blocks kind) := by
  rw [Model.Typed, defaultTable, List.toList_toArray, List.map_flatMap, Model.ranges]
  apply List.flatMap_congr
  intro b hb
  obtain ⟨f, _, place, hplaced⟩ := h.exists_placed (mem_blocksOf.mp hb).1
  rw [List.map_replicate, range_of_defaultValue hplaced.default, hplaced.range]

theorem getElem?_defaultTable (h : Grounded d i m) {kind : FluentKind} {b : FluentBlock}
    (hb : b ∈ m.blocksOf kind) {j : Nat} (hj : j < b.size) :
    (defaultTable m.blocks kind)[b.offset + j]? = some b.default := by
  rw [defaultTable, List.getElem?_toArray]
  change ((m.blocksOf kind).flatMap fun b => List.replicate b.size b.default)[b.offset + j]? = _
  rw [(h.contiguous kind).getElem?_flatMap (fun _ _ => List.length_replicate) hb hj
    (Nat.zero_add _), List.getElem?_replicate, if_pos hj]

theorem argumentOrdinals_eq_ok_iff {fluent : String} {types ordinals : List Nat}
    {args : List String} (hlen : types.length = args.length) :
    argumentOrdinals m.types fluent types args = .ok ordinals ↔
      m.ordinals? types args = some ordinals := by
  apply Model.eq_ok_iff_ordinals?_eq_some rfl _ hlen
  intro n types name args ordinals
  rw [argumentOrdinals]
  cases m.types[n]? with
  | none => simp
  | some t =>
      cases ho : t.ordinal? name with
      | none => simp [ho]
      | some o =>
          simp only [ho, bind_eq_ok_iff, pure_eq_ok_iff]
          simp [ho]

/-- An assignment writes its value, brought into the range of its fluent, at the
place of its ground fluent, whatever the table. -/
theorem exists_write (h : Grounded d i m) {kind : FluentKind} {context : String}
    {table table' : Table} {a : Assignment}
    (hassign : assign m.types m.blocks kind context table a = .ok table') :
    ∃ b ∈ m.blocksOf kind, m.block? a.fluent = some b ∧
      ∃ j < b.size, ∃ v, a.value.coerce b.range = some v ∧
      m.locate? a.fluent a.args = some (kind, b.offset + j) ∧ b.offset + j < table.size ∧
        ∀ t : Table, b.offset + j < t.size →
          assign m.types m.blocks kind context t a = .ok (t.setIfInBounds (b.offset + j) v) := by
  unfold assign at hassign
  split at hassign
  · cases hassign
  next b hb =>
    by_cases hkind : b.kind = kind
    · by_cases harity : b.params.length = a.args.length
      · rw [if_neg (not_not_intro hkind), if_neg (not_not_intro harity), bind_eq_ok_iff]
          at hassign
        obtain ⟨ordinals, hordinals, hassign⟩ := hassign
        have hfound : m.ordinals? b.params a.args = some ordinals :=
          (argumentOrdinals_eq_ok_iff harity).mp (ofModel_eq_ok_iff.mp hordinals)
        have hblock := (h.block?_eq_some_iff.mp hb).1
        obtain ⟨j, hj, hindex⟩ := h.index_of_ordinals? hblock hfound
        have hplace : m.locate? a.fluent a.args = some (kind, b.offset + j) := by
          rw [Model.locate?, Model.block?, hb, ← hkind, ← hindex]
          simp [hfound]
        split at hassign
        · cases hassign
        next v hv =>
          dsimp only at hassign
          split at hassign
          next hlt =>
            rw [hindex] at hlt
            refine ⟨b, mem_blocksOf.mpr ⟨hblock, hkind⟩, hb, j, hj, v, hv, hplace, hlt,
              fun t ht => ?_⟩
            rw [assign]
            simp only [hb]
            rw [if_neg (not_not_intro hkind), if_neg (not_not_intro harity), bind_eq_ok_iff]
            refine ⟨ordinals, hordinals, ?_⟩
            simp only [hv, hindex, dif_pos ht, Table.set_eq, pure_eq_ok_iff]
          · cases hassign
      · simp [hkind, harity, modelFault] at hassign
    · simp [hkind, instantiationFault] at hassign

/-- An assignment keeps a table typed, whatever the type of its value was. -/
theorem typed_of_assign (h : Grounded d i m) {kind : FluentKind} {context : String}
    {table table' : Table} {a : Assignment} (ht : m.Typed kind table)
    (hassign : assign m.types m.blocks kind context table a = .ok table') :
    m.Typed kind table' := by
  obtain ⟨b, hb, -, j, hj, v, hv, -, hlt, hwrite⟩ := h.exists_write hassign
  obtain rfl := Except.ok.inj ((hwrite table hlt).symm.trans hassign)
  exact h.typed_set ht hb hj (Value.range_of_coerce hv)

theorem typed_of_assignAll (h : Grounded d i m) {kind : FluentKind} {context : String}
    {assignments : List Assignment} {table : Table}
    (hassign : assignAll m.types m.blocks kind context assignments = .ok table) :
    m.Typed kind table := by
  rw [assignAll, seq_eq_ok_iff] at hassign
  exact foldlM_preserves (fun _ _ _ hstep ht => h.typed_of_assign ht hstep) hassign.2
    (h.typed_defaultTable kind)

theorem typed_nonFluents (h : Grounded d i m) : m.Typed .nonFluent m.nonFluents :=
  h.typed_of_assignAll h.nonFluents

theorem typed_initialState (h : Grounded d i m) : m.Typed .state m.initialState :=
  h.typed_of_assignAll h.initialState

theorem typed_defaultAction (h : Grounded d i m) : m.Typed .action m.defaultAction :=
  h.defaultAction ▸ h.typed_defaultTable .action

theorem typed_defaultObservation (h : Grounded d i m) :
    m.Typed .observation m.defaultObservation :=
  h.defaultObservation ▸ h.typed_defaultTable .observation

/-- The entry of a ground fluent in a typed table belongs to the declared
range of its fluent. -/
theorem exists_entry_of_typed (h : Grounded d i m) {kind : FluentKind} {table : Table}
    (ht : m.Typed kind table) {n : Nat} {g : GroundFluent}
    (hg : (m.groundFluents kind)[n]? = some g) :
    ∃ f v, d.fluent? g.name = some f ∧ f.kind = kind ∧ table[n]? = some v ∧
      v.range = f.range := by
  obtain ⟨b, hb, j, hj, rfl, rfl⟩ := h.getElem?_groundFluents_eq_some_iff.mp hg
  obtain ⟨hblock, hkind⟩ := mem_blocksOf.mp hb
  obtain ⟨f, hf, place, hplaced⟩ := h.exists_placed hblock
  have hrange := h.getElem?_ranges hb hj
  rw [← ht, List.getElem?_map, Option.map_eq_some_iff] at hrange
  obtain ⟨v, hv, hvrange⟩ := hrange
  rw [Array.getElem?_toList] at hv
  have hnames : (d.fluents.toArray.toList.map (·.name)).Nodup :=
    (Domain.nodup_of_validate h.domainValid).2.1
  refine ⟨f, v, ?_, by rw [← hplaced.kind, hkind], hv, by rw [hvrange, hplaced.range]⟩
  rw [Domain.fluent?, ← List.find?_toArray, Model.groundFluent, hplaced.name]
  exact (find?_key_eq_some_iff hnames).mpr ⟨List.mem_toArray.mpr hf, rfl⟩

end Grounded
end LiftedPomdp
