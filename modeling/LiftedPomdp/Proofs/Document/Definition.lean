import LiftedPomdp.Document.Domain
import LiftedPomdp.Document.Instance
import LiftedPomdp.Document.Text
import LiftedPomdp.Proofs.Document.Expr
import LiftedPomdp.Proofs.Ground.Grounded

/-!
# Definitions read back from their texts

A domain and an instance are read back from the texts that they are saved as,
provided that their reals are finite and read back, that no object in a term has a
name starting with a question mark, and that the document does not nest too deep.
Only the expressions of a domain can nest deep.
-/

namespace LiftedPomdp

/-! ## Domains -/

theorem FluentKind.ofJson?_toJson (k : FluentKind) : FluentKind.ofJson? k.toJson = some k := by
  cases k <;> rfl

/-- A default is never written as `null`, which stands for none. -/
theorem Value.nullable_toJson (v : Value) :
    Json.nullable (Value.ofJson? false) v.toJson = some (some v) :=
  congrArg (Option.map some) (v.ofJson?_toJson false)

theorem FluentDecl.ofJson?_toJson (f : FluentDecl) : FluentDecl.ofJson? f.toJson = some f := by
  obtain ⟨name, kind, range, params, default⟩ := f
  cases default with
  | none =>
      rw [toJson, ofJson?,
        Json.record_obj ["name", "kind", "range", "params"] rfl (by decide) (by decide)]
      simp [Json.field_cons_of_ne, Json.fieldOr_cons_of_ne, Json.str?, FluentKind.ofJson?_toJson,
        Range.ofJson?_toJson, Json.list?_strings]
  | some v =>
      rw [toJson, ofJson?,
        Json.record_obj ["name", "kind", "range", "params", "default"] rfl (by decide) (by decide)]
      simp [Json.field_cons_of_ne, Json.fieldOr_cons_of_ne, Json.str?, FluentKind.ofJson?_toJson,
        Range.ofJson?_toJson, Json.list?_strings, Value.nullable_toJson]

theorem Expr.ofJson?_toJson {e : Expr} (he : e.IsPortable) : Expr.ofJson? e.toJson = some e := by
  rw [ofJson?, (legible_toJson e he).isSound, if_pos rfl, ofPart?_toJson true e he]

theorem CpfDecl.ofJson?_toJson {c : CpfDecl} (hc : c.expr.IsPortable) :
    CpfDecl.ofJson? c.toJson = some c := by
  rw [toJson, ofJson?, Json.record_obj ["fluent", "params", "expr"] rfl (by decide) (by decide)]
  simp [Json.field_cons_of_ne, Json.fieldOr_cons_of_ne, Json.str?, Json.list?_strings,
    Expr.ofJson?_toJson hc]

namespace Domain

theorem forall_mem_exprs {d : Domain} {p : Expr → Prop} :
    (∀ e ∈ d.exprs, p e) ↔
      (∀ c ∈ d.cpfs, p c.expr) ∧ p d.reward ∧ ∀ e ∈ d.constraints, p e := by
  rw [exprs, List.forall_mem_append, List.forall_mem_map, List.forall_mem_cons]

/-- Whether a domain is read back from its text: all its reals are finite and all
its terms are told from their texts. -/
structure IsPortable (d : Domain) : Prop where
  defaults : ∀ f ∈ d.fluents, ∀ v ∈ f.default, v.IsFinite
  exprs : ∀ e ∈ d.exprs, e.IsPortable

namespace IsPortable

variable {d : Domain} (hd : d.IsPortable)
include hd

theorem cpf {c : CpfDecl} (hc : c ∈ d.cpfs) : c.expr.IsPortable :=
  (forall_mem_exprs.mp hd.exprs).1 c hc

theorem reward : d.reward.IsPortable :=
  (forall_mem_exprs.mp hd.exprs).2.1

theorem constraints : ∀ e ∈ d.constraints, e.IsPortable :=
  (forall_mem_exprs.mp hd.exprs).2.2

end IsPortable

theorem ofJson?_toJson {d : Domain} (hd : d.IsPortable) : Domain.ofJson? d.toJson = some d := by
  have hfluents : Json.list? FluentDecl.ofJson? (.arr (d.fluents.map FluentDecl.toJson)) =
      some d.fluents :=
    Json.list?_map fun f _ => f.ofJson?_toJson
  have hcpfs : Json.list? CpfDecl.ofJson? (.arr (d.cpfs.map CpfDecl.toJson)) = some d.cpfs :=
    Json.list?_map fun c hc => CpfDecl.ofJson?_toJson (hd.cpf hc)
  have hreward : Expr.ofJson? d.reward.toJson = some d.reward := Expr.ofJson?_toJson hd.reward
  have hconstraints : Json.list? Expr.ofJson? (.arr (d.constraints.map Expr.toJson)) =
      some d.constraints :=
    Json.list?_map fun e he => Expr.ofJson?_toJson (hd.constraints e he)
  rw [← Expr.toJsonAll_eq_map] at hconstraints
  obtain ⟨name, types, fluents, cpfs, reward, constraints⟩ := d
  cases constraints with
  | nil =>
      rw [toJson, ofJson?, Json.record_obj ["name", "types", "pvariables", "cpfs", "reward"] rfl
        (by decide) (by decide)]
      simp [Json.field_cons_of_ne, Json.fieldOr_cons_of_ne, Json.str?, Json.list?_strings,
        hfluents, hcpfs, hreward]
  | cons e es =>
      rw [toJson, ofJson?, Json.record_obj
        ["name", "types", "pvariables", "cpfs", "reward", "state_action_constraints"] rfl
        (by decide) (by decide)]
      simp [Json.field_cons_of_ne, Json.fieldOr_cons_of_ne, Json.str?, Json.list?_strings,
        hfluents, hcpfs, hreward, hconstraints]

theorem legible_toJson {d : Domain} (hd : d.IsPortable) : d.toJson.Legible .nearest := by
  have hfluents : ∀ f ∈ d.fluents, f.toJson.Legible .nearest := by
    intro f hf
    have hdefault := hd.defaults f hf
    obtain ⟨name, kind, range, params, default⟩ := f
    cases default with
    | none => simp [FluentDecl.toJson, FluentKind.toJson, Range.toJson, Json.legible_strings]
    | some v =>
        simp [FluentDecl.toJson, FluentKind.toJson, Range.toJson, Json.legible_strings,
          Value.legible_toJson (hdefault v rfl)]
  have hcpfs : ∀ c ∈ d.cpfs, c.toJson.Legible .nearest := fun c hc => by
    simp [CpfDecl.toJson, Json.legible_strings, Expr.legible_toJson _ (hd.cpf hc)]
  have hconstraints : ∀ e ∈ d.constraints, e.toJson.Legible .nearest := fun e he =>
    Expr.legible_toJson e (hd.constraints e he)
  have hreward := Expr.legible_toJson _ hd.reward
  obtain ⟨name, types, fluents, cpfs, reward, constraints⟩ := d
  cases constraints with
  | nil => simpa [toJson, Json.legible_strings] using ⟨hfluents, hcpfs, hreward⟩
  | cons e es =>
      simpa [toJson, Json.legible_strings, Expr.toJsonAll_eq_map] using
        ⟨hfluents, hcpfs, hreward, List.forall_mem_cons.mp hconstraints⟩

end Domain

/-! ## Instances -/

namespace Json

theorem natBelow?_natCast {n bound : Nat} (h : n < bound) :
    natBelow? bound (.int n) = some n := by
  simp only [natBelow?]
  rw [if_pos ⟨Int.natCast_nonneg n, Int.ofNat_lt.mpr h⟩, Int.toNat_natCast]

theorem uint32?_toNat (n : UInt32) : uint32? (.int n.toNat) = some n := by
  rw [uint32?, natBelow?_natCast n.toNat_lt, Option.map_some, UInt32.ofNat_toNat]

theorem uint64?_toNat (n : UInt64) : uint64? (.int n.toNat) = some n := by
  rw [uint64?, natBelow?_natCast n.toNat_lt, Option.map_some, UInt64.ofNat_toNat]

end Json

theorem ObjectsDecl.ofJson?_toJson (o : ObjectsDecl) : ObjectsDecl.ofJson? o.toJson = some o := by
  rw [toJson, ofJson?, Json.record_obj ["type_name", "objects"] rfl (by decide) (by decide)]
  simp [Json.field_cons_of_ne, Json.str?, Json.list?_strings]

theorem Assignment.ofJson?_toJson (a : Assignment) : Assignment.ofJson? a.toJson = some a := by
  rw [toJson, ofJson?, Json.record_obj ["fluent", "args", "value"] rfl (by decide) (by decide)]
  simp [Json.field_cons_of_ne, Json.fieldOr_cons_of_ne, Json.str?, Json.list?_strings,
    Value.ofJson?_toJson]

namespace Instance

/-- Whether an instance is read back from its text: all its reals are finite. -/
structure IsPortable (i : Instance) : Prop where
  values : ∀ a ∈ i.nonFluents ++ i.initState, a.value.IsFinite
  discount : i.discount.isFinite

theorem ofJson?_toJson (i : Instance) : Instance.ofJson? i.toJson = some i := by
  have hobjects : Json.list? ObjectsDecl.ofJson? (.arr (i.objects.map ObjectsDecl.toJson)) =
      some i.objects :=
    Json.list?_map fun o _ => o.ofJson?_toJson
  have hassignments : ∀ as : List Assignment,
      Json.list? Assignment.ofJson? (.arr (as.map Assignment.toJson)) = some as :=
    fun as => Json.list?_map fun a _ => a.ofJson?_toJson
  have hmax : Json.nullable Json.uint64?
      (Json.ofOption (fun n : UInt64 => .int n.toNat) i.maxNonDefaultActions) =
        some i.maxNonDefaultActions := by
    cases i.maxNonDefaultActions with
    | none => rfl
    | some n => simp only [Json.ofOption, Json.nullable, Json.uint64?_toNat, Option.map_some]
  rw [toJson, ofJson?, Json.record_obj
    ["name", "domain", "objects", "non_fluents", "init_state", "max_nondef_actions", "horizon",
      "discount"] rfl (by decide) (by decide)]
  simp only [Option.bind_eq_bind, Option.bind_eq_some_iff, Option.some.injEq, exists_eq_left']
  refine ⟨i.name, ?_, i.domain, ?_, i.objects, ?_, i.nonFluents, ?_, i.initState, ?_,
    i.maxNonDefaultActions, ?_, i.horizon, ?_, i.discount, ?_, rfl⟩
  all_goals simp [Json.field_cons_of_ne, Json.fieldOr_cons_of_ne, Json.str?, hobjects,
    hassignments, hmax, Json.uint32?_toNat, Json.real?]

theorem legible_toJson {i : Instance} (hi : i.IsPortable) : i.toJson.Legible .nearest := by
  have hobjects : ∀ o ∈ i.objects, o.toJson.Legible .nearest := fun o _ => by
    simp [ObjectsDecl.toJson, Json.legible_strings]
  have hassignment : ∀ a ∈ i.nonFluents ++ i.initState, a.toJson.Legible .nearest := by
    intro a ha
    simp [Assignment.toJson, Json.legible_strings, Value.legible_toJson (hi.values a ha)]
  obtain ⟨hnonFluents, hinitState⟩ := List.forall_mem_append.mp hassignment
  have hmax : (Json.ofOption (fun n : UInt64 => .int n.toNat) i.maxNonDefaultActions).Legible
      .nearest := by
    cases i.maxNonDefaultActions with
    | none => exact Json.legible_null
    | some n =>
        have hn := n.toNat_lt
        rw [Json.ofOption, Json.legible_int]
        omega
  have hhorizon : (Json.int i.horizon.toNat).Legible .nearest := by
    have hn := i.horizon.toNat_lt
    rw [Json.legible_int]
    omega
  have hdiscount : (Json.real i.discount).Legible .nearest :=
    (Json.legible_real _).mpr (Decimal.Reader.readsBack_nearest.mpr hi.discount)
  simp only [toJson, Json.legible_obj, List.forall_mem_cons, Json.legible_str, Json.legible_arr,
    List.forall_mem_map]
  exact ⟨trivial, trivial, hobjects, hnonFluents, hinitState, hmax, hhorizon, hdiscount,
    List.forall_mem_nil _⟩

/-- The document of an instance never nests deep. -/
theorem depth_toJson_le (i : Instance) : i.toJson.depth ≤ 4 := by
  have hobjects : (Json.arr (i.objects.map ObjectsDecl.toJson)).depth ≤ 3 := by
    rw [Json.depth_arr_le_iff, List.forall_mem_map]
    intro o _
    rw [ObjectsDecl.toJson, Json.depth_obj_le_iff]
    simp [Json.depth_strings_le]
  have hassignments : ∀ as : List Assignment,
      (Json.arr (as.map Assignment.toJson)).depth ≤ 3 := by
    intro as
    rw [Json.depth_arr_le_iff, List.forall_mem_map]
    intro a _
    rw [Assignment.toJson, Json.depth_obj_le_iff]
    simp [Json.depth_strings_le]
  have hmax :
      (Json.ofOption (fun n : UInt64 => .int n.toNat) i.maxNonDefaultActions).depth = 0 := by
    cases i.maxNonDefaultActions <;> rfl
  rw [toJson, Json.depth_obj_le_iff]
  simp [hobjects, hassignments, hmax]

end Instance

/-! ## Saving and loading -/

namespace Document

variable {α : Type} {toJson : α → Json} {ofJson? : Json → Option α} {a : α}

/-- What is saved is loaded again where its document can be read back. -/
theorem loadBy_save {r : Decimal.Reader} (hread : ofJson? (toJson a) = some a)
    (hlegible : (toJson a).Legible r) (hdepth : (toJson a).depth ≤ Json.maxDepth) :
    loadBy r ofJson? (save toJson a) = .ok a := by
  rw [loadBy, save, Json.parseBy?_pretty hlegible]
  simp only [decode, Json.clip_eq_self _ hdepth, hread]

/-- A domain or an instance is loaded again from the text that it is saved as,
whatever its expressions, lists, names and defaults, provided that its reals are
finite, that no object in its terms has a name starting with a question mark, and
that the document of the domain nests no deeper than a document may.  That of an
instance never does.  The reals in the document must be read back; all of them are
where numbers are rounded once. -/
theorem definitions_load_save :
    (∀ (r : Decimal.Reader) (d : Domain), d.IsPortable → d.toJson.depth ≤ Json.maxDepth →
      d.toJson.ReadsBack r → loadBy r Domain.ofJson? (save Domain.toJson d) = .ok d) ∧
      (∀ (r : Decimal.Reader) (i : Instance), i.IsPortable → i.toJson.ReadsBack r →
        loadBy r Instance.ofJson? (save Instance.toJson i) = .ok i) ∧
      (∀ d : Domain, d.IsPortable → d.toJson.ReadsBack .nearest) ∧
      ∀ i : Instance, i.IsPortable → i.toJson.ReadsBack .nearest := by
  refine ⟨?_, ?_, fun d hd => (Domain.legible_toJson hd).readsBack,
    fun i hi => (Instance.legible_toJson hi).readsBack⟩
  · intro r d hd hdepth hreals
    exact loadBy_save (Domain.ofJson?_toJson hd) ((Domain.legible_toJson hd).of_readsBack hreals)
      hdepth
  · intro r i hi hreals
    have hdepth : i.toJson.depth ≤ Json.maxDepth :=
      (Instance.depth_toJson_le i).trans (by decide)
    exact loadBy_save (Instance.ofJson?_toJson i)
      ((Instance.legible_toJson hi).of_readsBack hreals) hdepth

theorem isPortable_lamps : Lamps.domain.IsPortable :=
  ⟨by decide +kernel, by decide +kernel⟩

theorem readsBack_lamps : Lamps.domain.toJson.ReadsBack .scaling := by
  decide +kernel

/-- The domain and the instance of the lamps are loaded again from their texts. -/
theorem definitions_load_save_lamps :
    Lamps.domain.IsPortable ∧ Lamps.domain.toJson.depth ≤ Json.maxDepth ∧
      Lamps.domain.toJson.ReadsBack .scaling ∧ Lamps.house.IsPortable ∧
      Lamps.house.toJson.ReadsBack .scaling ∧
      load Domain.ofJson? (save Domain.toJson Lamps.domain) = .ok Lamps.domain ∧
      load Instance.ofJson? (save Instance.toJson Lamps.house) = .ok Lamps.house := by
  have hdepth : Lamps.domain.toJson.depth ≤ Json.maxDepth := by decide +kernel
  have hhouse : Lamps.house.IsPortable := ⟨by decide +kernel, by decide +kernel⟩
  have hreals : Lamps.house.toJson.ReadsBack .scaling := by decide +kernel
  exact ⟨isPortable_lamps, hdepth, readsBack_lamps, hhouse, hreals,
    definitions_load_save.1 .scaling Lamps.domain isPortable_lamps hdepth readsBack_lamps,
    definitions_load_save.2.1 .scaling Lamps.house hhouse hreals⟩

end Document
end LiftedPomdp
