import LiftedPomdp.Document.Expr
import LiftedPomdp.Proofs.Definition.Expr
import LiftedPomdp.Proofs.Json.Reading

/-!
# Expressions read back from their documents

An expression is read back from the document that it is written as, whatever its
kind and its parts, unless an object in it has a name that starts with a question
mark, which would be read as a variable.
-/

namespace LiftedPomdp

/-! ## Records -/

namespace Json

theorem distinctKeys_iff (members : List (String × Json)) :
    distinctKeys members = true ↔ (members.map Prod.fst).Nodup := by
  induction members with
  | nil => simp [distinctKeys]
  | cons m ms ih =>
      have hany : (ms.any fun m' => m'.1 == m.1) = true ↔ m.1 ∈ ms.map Prod.fst := by
        rw [List.any_eq_true, List.mem_map]
        simp only [beq_iff_eq]
      rw [distinctKeys, Bool.and_eq_true, ih, List.map_cons, List.nodup_cons, ← hany,
        Bool.not_eq_true', Bool.not_eq_true]

theorem knownMembers_eq_self {names : List String} {members : List (String × Json)}
    (h : members.map Prod.fst ⊆ names) : knownMembers names members = members := by
  unfold knownMembers
  rw [List.filter_eq_self]
  intro m hm
  exact List.contains_iff_mem.mpr (h (List.mem_map_of_mem hm))

/-- An object with some of the names of a record, in any order and none of them
twice, is read as that record. -/
theorem record_obj (keys : List String) {names : List String} {needed : Nat}
    {members : List (String × Json)} (hkeys : members.map Prod.fst = keys)
    (hknown : keys ⊆ names) (hdistinct : keys.Nodup) :
    record names needed (.obj members) = some members := by
  subst hkeys
  simp only [record, knownMembers_eq_self hknown, (distinctKeys_iff members).mpr hdistinct, if_true]

section Fields

variable {α : Type} {members : List (String × Json)} {name k : String} {j : Json} {default : α}
  {decode : Json → Option α}

@[simp]
theorem field_cons_self : field ((name, j) :: members) name decode = decode j := by
  simp [field]

theorem field_cons_of_ne (h : name ≠ k) :
    field ((k, j) :: members) name decode = field members name decode := by
  simp [field, List.lookup_cons, beq_false_of_ne h]

@[simp]
theorem fieldOr_nil : fieldOr [] name default decode = some default :=
  rfl

@[simp]
theorem fieldOr_cons_self : fieldOr ((name, j) :: members) name default decode = decode j := by
  simp [fieldOr]

theorem fieldOr_cons_of_ne (h : name ≠ k) :
    fieldOr ((k, j) :: members) name default decode = fieldOr members name default decode := by
  simp [fieldOr, List.lookup_cons, beq_false_of_ne h]

end Fields

end Json

/-! ## Lists, ranges and values -/

namespace Json

theorem items?_map {α : Type} {toJson : α → Json} {decode : Json → Option α} {as : List α}
    (h : ∀ a ∈ as, decode (toJson a) = some a) : items? decode (as.map toJson) = some as := by
  induction as with
  | nil => rfl
  | cons a as ih =>
      obtain ⟨ha, has⟩ := List.forall_mem_cons.mp h
      simp only [List.map_cons, items?, ha, ih has]

theorem list?_strings (ss : List String) : list? str? (strings ss) = some ss :=
  items?_map fun _ _ => rfl

theorem list?_map {α : Type} {toJson : α → Json} {decode : Json → Option α} {as : List α}
    (h : ∀ a ∈ as, decode (toJson a) = some a) :
    list? decode (.arr (as.map toJson)) = some as :=
  items?_map h

end Json

theorem Range.ofJson?_toJson (r : Range) : Range.ofJson? r.toJson = some r := by
  cases r <;> rfl

namespace Value

theorem ofContent?_contentJson (v : Value) : ofContent? v.contentJson v.range = some v := by
  cases v with
  | bool b => rfl
  | real x => rfl
  | int n =>
      have hrange : Int64.minValue.toInt ≤ n.toInt ∧ n.toInt ≤ Int64.maxValue.toInt :=
        ⟨n.minValue_le_toInt, n.toInt_le⟩
      simp only [ofContent?, contentJson, range, Json.int64?, if_pos hrange, Int64.ofInt_toInt,
        Option.map_some]

/-- A value is read back from its document. -/
theorem ofJson?_toJson (inExpression : Bool) (v : Value) :
    ofJson? inExpression v.toJson = some v := by
  have hrange : Json.named? Range.text Range.all inExpression (.str v.range.text) =
      some v.range := by
    cases v <;> rfl
  rw [toJson, ofJson?, Json.record_obj ["type", "value"] rfl (by decide) (by decide)]
  simp [Json.field_cons_of_ne, hrange, ofContent?_contentJson]

@[simp]
theorem depth_toJson (v : Value) : v.toJson.depth = 1 := by
  cases v <;> rfl

/-- Whether a value is read back from its text: a real must be finite. -/
def IsFinite : Value → Prop
  | .real x => x.isFinite
  | _ => True

instance (v : Value) : Decidable v.IsFinite :=
  match v with
  | .real x => inferInstanceAs (Decidable (x.isFinite = true))
  | .bool _ | .int _ => .isTrue trivial

theorem legible_toJson {v : Value} (h : v.IsFinite) : v.toJson.Legible .nearest := by
  have hcontent : v.contentJson.Legible .nearest := by
    cases v with
    | bool b => exact Json.legible_bool b
    | real x => exact (Json.legible_real x).mpr (Decimal.Reader.readsBack_nearest.mpr h)
    | int n =>
        have hlow := n.minValue_le_toInt
        have hhigh := n.toInt_le
        have hbounds : Int64.minValue.toInt = -9223372036854775808 ∧
            Int64.maxValue.toInt = 9223372036854775807 := by decide
        rw [contentJson, Json.legible_int]
        omega
  simp [toJson, hcontent]

/-- Only what is finite is read back, however numbers are read. -/
theorem isFinite_of_readsBack {r : Decimal.Reader} {v : Value} (h : v.toJson.ReadsBack r) :
    v.IsFinite := by
  simp only [toJson, Json.readsBack_obj, List.forall_mem_cons] at h
  cases v with
  | real x => exact ((Json.readsBack_real x).mp h.2.1).isFinite
  | _ => trivial

end Value

/-! ## Terms and variables -/

/-- Whether a term is told from its text: the name of an object must not start
with a question mark. -/
def Term.IsUnmarked : Term → Prop
  | .var _ => True
  | .object o => o.toList.head? ≠ some '?'

instance (t : Term) : Decidable t.IsUnmarked :=
  match t with
  | .var _ => .isTrue trivial
  | .object o => inferInstanceAs (Decidable (o.toList.head? ≠ some '?'))

theorem Term.ofText_text {t : Term} (h : t.IsUnmarked) : Term.ofText t.text = t := by
  unfold text ofText
  cases t with
  | var v =>
      have htext : ("?" ++ v).toList = '?' :: v.toList := by simp
      simp only [htext, String.ofList_toList]
  | object o =>
      cases hname : o.toList with
      | nil => rfl
      | cons c cs =>
          have hc : c ≠ '?' := by
            rintro rfl
            exact h (congrArg List.head? hname)
          simp [hc]

theorem Term.ofJson?_toJson {t : Term} (h : t.IsUnmarked) : Term.ofJson? t.toJson = some t :=
  congrArg some (ofText_text h)

theorem TypedVar.ofJson?_toJson (v : TypedVar) : TypedVar.ofJson? v.toJson = some v := by
  rw [toJson, ofJson?, Json.record_obj ["var", "type_name"] rfl (by decide) (by decide)]
  simp [Json.field_cons_of_ne, Json.str?]

/-! ## Expressions -/

namespace Expr

/-- Whether a part of an expression, apart from its own parts, is read back from
its text: a real must be finite, and terms must be told from their texts. -/
def IsPortablePart : Expr → Prop
  | .const v => v.IsFinite
  | .fluent _ args _ => ∀ t ∈ args, t.IsUnmarked
  | .term t => t.IsUnmarked
  | _ => True

/-- Whether an expression is read back from its text: all its reals are finite and
all its terms are told from their texts. -/
def IsPortable (e : Expr) : Prop :=
  ∀ p ∈ e.parts, p.IsPortablePart

instance (p : Expr) : Decidable p.IsPortablePart :=
  match p with
  | .const v => inferInstanceAs (Decidable v.IsFinite)
  | .fluent _ args _ => inferInstanceAs (Decidable (∀ t ∈ args, t.IsUnmarked))
  | .term t => inferInstanceAs (Decidable t.IsUnmarked)
  | .not _ | .and _ | .or _ | .implies _ _ | .equiv _ _ | .compare _ _ _ | .arith _ _ _
  | .neg _ | .ite _ _ _ | .aggregate _ _ _ | .kronDelta _ | .diracDelta _ | .bernoulli _
  | .uniform _ _ => .isTrue trivial

instance (e : Expr) : Decidable e.IsPortable :=
  inferInstanceAs (Decidable (∀ p ∈ e.parts, p.IsPortablePart))

theorem IsPortable.own {e : Expr} (h : e.IsPortable) : e.IsPortablePart :=
  h e (mem_parts_iff.mpr (.inl rfl))

theorem IsPortable.operand {e a : Expr} (h : e.IsPortable) (ha : a ∈ e.operands) :
    a.IsPortable :=
  fun p hp => h p (mem_parts_iff.mpr (.inr ⟨a, ha, hp⟩))

/-- The kind of an expression is recognised in the object that it is written as. -/
theorem kindOfMembers?_cons (root : Bool) (k : ExprKind) {members : List (String × Json)}
    (h : members.map Prod.fst = k.fields) :
    kindOfMembers? root (("kind", .str k.name) :: members) = some k := by
  have hkind : ExprKind.ofJson? root (.str k.name) = some k := by
    cases k <;> rfl
  have hkeys : (("kind", Json.str k.name) :: members).map Prod.fst = "kind" :: k.fields :=
    congrArg _ h
  have hdistinct : ("kind" :: k.fields).Nodup := by
    cases k <;> decide
  have hknown : Json.knownMembers ("kind" :: k.fields) (("kind", .str k.name) :: members) =
      ("kind", .str k.name) :: members :=
    Json.knownMembers_eq_self (hkeys ▸ List.Subset.refl _)
  have hkept : Json.distinctKeys (("kind", Json.str k.name) :: members) = true :=
    (Json.distinctKeys_iff _).mpr (hkeys ▸ hdistinct)
  simp [kindOfMembers?, List.lookup, hkind, hknown, hkept]

theorem toJsonAll_eq_map (es : List Expr) : toJsonAll es = es.map toJson := by
  induction es with
  | nil => rfl
  | cons e es ih => rw [toJsonAll, ih, List.map_cons]

/-- An expression is written as an object of its kind and its fields. -/
theorem toJson_eq (e : Expr) :
    ∃ members, e.toJson = .obj (("kind", .str e.kind.name) :: members) ∧
      members.map Prod.fst = e.kind.fields := by
  cases e <;> exact ⟨_, rfl, rfl⟩

/-- An expression is read by its kind from the fields that it is written with. -/
theorem ofPart?_written (root : Bool) (e : Expr) {members : List (String × Json)}
    (h : e.toJson = .obj members) :
    ofPart? root e.toJson =
      assemble
        { raw := fun name => members.lookup name
          expr := fun name => ofMember? name members
          exprs := fun name => ofMemberItems? name members } e.kind := by
  obtain ⟨fields, hfields, hkeys⟩ := toJson_eq e
  obtain rfl : members = _ := Json.obj.inj (h.symm.trans hfields)
  rw [h, ofPart?, kindOfMembers?_cons root _ hkeys]

theorem allOfJson?_eq (js : List Json) : allOfJson? js = Json.items? (ofPart? false) js := by
  induction js with
  | nil => rfl
  | cons j js ih =>
      rw [allOfJson?, Json.items?, ih]
      cases ofPart? false j <;> cases Json.items? (ofPart? false) js <;> rfl

theorem listOfJson?_eq (j : Json) : listOfJson? j = Json.list? (ofPart? false) j := by
  cases j with
  | arr items => exact allOfJson?_eq items
  | _ => rfl

/-- An expression is read back from its document. -/
theorem ofPart?_toJson (root : Bool) (e : Expr) (he : e.IsPortable) :
    ofPart? root e.toJson = some e := by
  induction e using operands_induction generalizing root with
  | h e ih =>
      have hoperand : ∀ a ∈ e.operands, ofPart? false a.toJson = some a := fun a ha =>
        ih a ha false (he.operand ha)
      have hlist : listOfJson? (.arr (toJsonAll e.operands)) = some e.operands := by
        rw [listOfJson?_eq, toJsonAll_eq_map]
        exact Json.list?_map hoperand
      cases e
      case const v =>
        rw [ofPart?_written root (.const v) rfl]
        simp [assemble, kind, List.lookup_cons, Value.ofJson?_toJson]
      case fluent f args next =>
        have hargs : Json.list? Term.ofJson? (.arr (args.map Term.toJson)) = some args :=
          Json.list?_map fun t ht => Term.ofJson?_toJson (he.own t ht)
        rw [ofPart?_written root (.fluent f args next) rfl]
        simp [assemble, kind, List.lookup_cons, Json.str?, Json.bool?, hargs]
      case term t =>
        have ht := Term.ofJson?_toJson he.own
        rw [ofPart?_written root (.term t) rfl]
        simp [assemble, kind, List.lookup_cons, ht]
      case and | or =>
        rw [ofPart?_written root _ rfl]
        simp only [operands] at hlist
        simp [assemble, kind, ofMemberItems?, hlist]
      case compare op l r =>
        have hop : Json.named? CompareOp.name CompareOp.all true (.str op.name) = some op := by
          cases op <;> rfl
        simp only [operands, List.forall_mem_cons] at hoperand
        rw [ofPart?_written root (.compare op l r) rfl]
        simp [assemble, kind, List.lookup_cons, ofMember?, hop, hoperand]
      case arith op l r =>
        have hop : Json.named? ArithOp.name ArithOp.all true (.str op.name) = some op := by
          cases op <;> rfl
        simp only [operands, List.forall_mem_cons] at hoperand
        rw [ofPart?_written root (.arith op l r) rfl]
        simp [assemble, kind, List.lookup_cons, ofMember?, hop, hoperand]
      case aggregate op vars body =>
        have hop : Json.named? AggregateOp.name AggregateOp.all true (.str op.name) = some op := by
          cases op <;> rfl
        have hvars : Json.list? TypedVar.ofJson? (.arr (vars.map TypedVar.toJson)) = some vars :=
          Json.list?_map fun v _ => TypedVar.ofJson?_toJson v
        simp only [operands, List.forall_mem_cons] at hoperand
        rw [ofPart?_written root (.aggregate op vars body) rfl]
        simp [assemble, kind, List.lookup_cons, ofMember?, hop, hvars, hoperand]
      case not | neg | kronDelta | diracDelta | bernoulli | implies | equiv | uniform | ite =>
        simp only [operands, List.forall_mem_cons] at hoperand
        rw [ofPart?_written root _ rfl]
        simp [assemble, kind, ofMember?, hoperand]

/-- The numbers in the document of an expression can be read back from its text. -/
theorem legible_toJson (e : Expr) (he : e.IsPortable) : e.toJson.Legible .nearest := by
  induction e using operands_induction with
  | h e ih =>
      have hoperand : ∀ a ∈ e.operands, a.toJson.Legible .nearest := fun a ha =>
        ih a ha (he.operand ha)
      have hown := he.own
      cases e with
      | const v => simp [toJson, Value.legible_toJson hown]
      | fluent f args next => simp [toJson, Term.toJson]
      | term t => simp [toJson, Term.toJson]
      | aggregate op vars body =>
          simp [toJson, TypedVar.toJson, hoperand body List.mem_cons_self]
      | _ => simpa [toJson, toJsonAll_eq_map, operands] using hoperand

/-- Whether all constants in an expression are finite. -/
def IsFinite (e : Expr) : Prop :=
  ∀ v, const v ∈ e.parts → v.IsFinite

theorem readsBack_operand {r : Decimal.Reader} {e a : Expr} (h : e.toJson.ReadsBack r)
    (ha : a ∈ e.operands) : a.toJson.ReadsBack r := by
  have hall : ∀ b ∈ e.operands, b.toJson.ReadsBack r := by
    cases e <;> simp_all [toJson, toJsonAll_eq_map, operands]
  exact hall a ha

/-- Only finite constants are read back, however numbers are read. -/
theorem isFinite_of_readsBack {r : Decimal.Reader} {e : Expr} (h : e.toJson.ReadsBack r) :
    e.IsFinite := by
  induction e using operands_induction with
  | h e ih =>
      intro v hv
      rcases mem_parts_iff.mp hv with rfl | ⟨a, ha, hva⟩
      · rw [toJson, Json.readsBack_obj] at h
        exact Value.isFinite_of_readsBack (h _ (List.mem_cons_of_mem _ List.mem_cons_self))
      · exact ih a ha (readsBack_operand h ha) v hva

end Expr
end LiftedPomdp
