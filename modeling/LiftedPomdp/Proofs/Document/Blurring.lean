import LiftedPomdp.Proofs.Definition.Validation
import LiftedPomdp.Proofs.Document.Definition
import LiftedPomdp.Proofs.Json.Compact

/-!
# What the text of a definition tells

The text of a document does not tell which real that is not finite stands in it.
Of a definition whose names are identifiers it tells everything else: two of them
have documents that spell the same exactly where they are equal once all their
reals that are not finite are taken for one.
-/

namespace LiftedPomdp

/-! ## Definitions as their texts tell them -/

/-- A real as its text tells it: all reals that are not finite count as a NaN. -/
def blurredReal (x : Float) : Float :=
  if x.isFinite then x else 0.0 / 0.0

/-- A value as its text tells it. -/
def Value.blurred : Value → Value
  | .real x => .real (blurredReal x)
  | v => v

namespace Expr

mutual

/-- An expression as its text tells it. -/
def blurred : Expr → Expr
  | .const v => .const v.blurred
  | .fluent f args next => .fluent f args next
  | .term t => .term t
  | .not a => .not (blurred a)
  | .and as => .and (blurredAll as)
  | .or as => .or (blurredAll as)
  | .implies l r => .implies (blurred l) (blurred r)
  | .equiv l r => .equiv (blurred l) (blurred r)
  | .compare op l r => .compare op (blurred l) (blurred r)
  | .arith op l r => .arith op (blurred l) (blurred r)
  | .neg a => .neg (blurred a)
  | .ite c t e => .ite (blurred c) (blurred t) (blurred e)
  | .aggregate op vars body => .aggregate op vars (blurred body)
  | .kronDelta a => .kronDelta (blurred a)
  | .diracDelta a => .diracDelta (blurred a)
  | .bernoulli p => .bernoulli (blurred p)
  | .uniform l h => .uniform (blurred l) (blurred h)

/-- Several expressions as their texts tell them. -/
def blurredAll : List Expr → List Expr
  | [] => []
  | e :: es => blurred e :: blurredAll es

end

theorem blurredAll_eq_map (es : List Expr) : blurredAll es = es.map blurred := by
  induction es with
  | nil => rfl
  | cons e es ih => rw [blurredAll, ih, List.map_cons]

end Expr

/-- A declaration of a fluent as its text tells it. -/
def FluentDecl.blurred (f : FluentDecl) : FluentDecl :=
  { f with default := f.default.map Value.blurred }

/-- A conditional probability function as its text tells it. -/
def CpfDecl.blurred (c : CpfDecl) : CpfDecl :=
  { c with expr := c.expr.blurred }

/-- A domain as its text tells it. -/
def Domain.blurred (d : Domain) : Domain :=
  { d with
    fluents := d.fluents.map FluentDecl.blurred
    cpfs := d.cpfs.map CpfDecl.blurred
    reward := d.reward.blurred
    constraints := d.constraints.map Expr.blurred }

/-- An assignment as its text tells it. -/
def Assignment.blurred (a : Assignment) : Assignment :=
  { a with value := a.value.blurred }

/-- An instance as its text tells it. -/
def Instance.blurred (i : Instance) : Instance :=
  { i with
    nonFluents := i.nonFluents.map Assignment.blurred
    initState := i.initState.map Assignment.blurred
    discount := blurredReal i.discount }

/-! ## Values -/

theorem blurredReal_eq_self {x : Float} (h : x.isFinite = true) : blurredReal x = x :=
  if_pos h

theorem spelled_real_inj {x y : Float} :
    (Json.real x).spelled = (Json.real y).spelled ↔ blurredReal x = blurredReal y := by
  have hnan : (0.0 / 0.0 : Float).isFinite = false := by decide +kernel
  unfold blurredReal
  rw [Json.spelled, Json.spelled]
  split_ifs with hx hy hy
  · exact Json.real.injEq x y ▸ Iff.rfl
  · refine ⟨nofun, ?_⟩
    rintro rfl
    rw [hnan] at hx
    cases hx
  · refine ⟨nofun, ?_⟩
    rintro rfl
    rw [hnan] at hy
    cases hy
  · exact ⟨fun _ => rfl, fun _ => rfl⟩

namespace Value

@[simp]
theorem spelled_toJson_inj {v w : Value} :
    v.toJson.spelled = w.toJson.spelled ↔ v.blurred = w.blurred := by
  have hcontent : ∀ v : Value, v.toJson.spelled =
      .obj [("type", .str v.range.text), ("value", v.contentJson.spelled)] := by
    intro v
    simp [toJson]
  rw [hcontent, hcontent]
  cases v <;> cases w <;> simp [range, Range.text, contentJson, blurred, spelled_real_inj]
  exact Int64.toInt_inj

theorem legible_spelled (v : Value) : v.toJson.spelled.Legible .nearest := by
  have hcontent : v.contentJson.spelled.Legible .nearest := by
    cases v with
    | bool b => exact Json.legible_bool b
    | int n =>
        have hwhole := legible_toJson (v := .int n) trivial
        rw [toJson, Json.legible_obj] at hwhole
        exact hwhole ("value", .int n.toInt) (by simp [contentJson])
    | real x =>
        by_cases hx : x.isFinite = true
        · rw [contentJson, Json.spelled_real hx]
          exact (Json.legible_real x).mpr (Decimal.Reader.readsBack_nearest.mpr hx)
        · rw [contentJson, Json.spelled_real_of_not_isFinite hx]
          exact Json.legible_null
  simp [toJson, hcontent]

theorem blurred_eq_self {v : Value} (h : v.IsFinite) : v.blurred = v := by
  cases v with
  | real x => exact congrArg Value.real (blurredReal_eq_self h)
  | _ => rfl

end Value

/-! ## Names -/

/-- Whether all names in an expression are identifiers. -/
def Expr.IsNamed (e : Expr) : Prop :=
  ∀ p ∈ e.parts, ∀ name ∈ Domain.rootNames p, isIdentifier name = true

theorem Expr.IsNamed.own {e : Expr} (h : e.IsNamed) :
    ∀ name ∈ Domain.rootNames e, isIdentifier name = true :=
  h e (mem_parts_iff.mpr (.inl rfl))

theorem Expr.IsNamed.operand {e a : Expr} (h : e.IsNamed) (ha : a ∈ e.operands) : a.IsNamed :=
  fun p hp => h p (mem_parts_iff.mpr (.inr ⟨a, ha, hp⟩))

theorem Term.isUnmarked_of_isIdentifier {t : Term} (h : isIdentifier t.name = true) :
    t.IsUnmarked := by
  cases t with
  | var v => trivial
  | object o =>
      intro hmark
      unfold isIdentifier at h
      cases hchars : o.toList with
      | nil => simp [hchars] at hmark
      | cons c cs =>
          obtain rfl : c = '?' := by simpa [hchars] using hmark
          simp only [name, hchars, Bool.and_eq_true] at h
          exact absurd h.1 (by decide)

/-- Terms that are named by identifiers are told from their texts. -/
theorem Term.toJson_inj {t u : Term} (ht : isIdentifier t.name = true)
    (hu : isIdentifier u.name = true) : t.toJson = u.toJson ↔ t = u := by
  constructor
  · intro h
    have hread := Term.ofJson?_toJson (isUnmarked_of_isIdentifier ht)
    rw [h, Term.ofJson?_toJson (isUnmarked_of_isIdentifier hu)] at hread
    exact (Option.some.inj hread).symm
  · rintro rfl
    rfl

theorem TypedVar.spelled_toJson_inj {v w : TypedVar} :
    v.toJson.spelled = w.toJson.spelled ↔ v = w := by
  obtain ⟨var, typeName⟩ := v
  obtain ⟨var', typeName'⟩ := w
  simp [toJson]

/-! The names of operations. -/

@[simp]
theorem CompareOp.name_inj {op op' : CompareOp} : op.name = op'.name ↔ op = op' := by
  cases op <;> cases op' <;> decide

@[simp]
theorem ArithOp.name_inj {op op' : ArithOp} : op.name = op'.name ↔ op = op' := by
  cases op <;> cases op' <;> decide

@[simp]
theorem AggregateOp.name_inj {op op' : AggregateOp} : op.name = op'.name ↔ op = op' := by
  cases op <;> cases op' <;> decide

/-! ## Lists -/

theorem map_eq_map_iff_map_eq_map {α β γ : Type} {f : α → β} {g : α → γ} {as as' : List α}
    (h : ∀ a ∈ as, ∀ a' ∈ as', f a = f a' ↔ g a = g a') :
    as.map f = as'.map f ↔ as.map g = as'.map g := by
  induction as generalizing as' with
  | nil => simp
  | cons a as ih =>
      cases as' with
      | nil => simp
      | cons a' as' =>
          have hfirst := h a List.mem_cons_self a' List.mem_cons_self
          have hrest := ih fun b hb b' hb' =>
            h b (List.mem_cons_of_mem a hb) b' (List.mem_cons_of_mem a' hb')
          simp only [List.map_cons, List.cons.injEq, hfirst, hrest]

theorem map_eq_self {α : Type} {f : α → α} {as : List α} (h : ∀ a ∈ as, f a = a) :
    as.map f = as :=
  (List.map_congr_left h).trans (List.map_id as)

theorem Json.strings_inj {ss ts : List String} : strings ss = strings ts ↔ ss = ts := by
  unfold strings
  rw [arr.injEq, List.map_inj_right fun _ _ => Json.str.inj]

/-! ## Expressions -/

namespace Expr

theorem kind_blurred (e : Expr) : e.blurred.kind = e.kind := by
  cases e <;> rfl

theorem kind_eq_of_spelled {e e' : Expr} (h : e.toJson.spelled = e'.toJson.spelled) :
    e.kind = e'.kind := by
  have hread : ∀ k : ExprKind, ExprKind.ofJson? true (.str k.name) = some k := by
    intro k
    cases k <;> rfl
  obtain ⟨members, hmembers, -⟩ := toJson_eq e
  obtain ⟨members', hmembers', -⟩ := toJson_eq e'
  rw [hmembers, hmembers', Json.spelled_obj, Json.spelled_obj] at h
  simp only [List.map_cons, Json.spelled_str, Json.obj.injEq, List.cons.injEq, Prod.mk.injEq,
    true_and] at h
  have hkind := hread e.kind
  rw [h.1, hread] at hkind
  exact (Option.some.inj hkind).symm

/-- The documents of expressions spell the same exactly where the expressions are
told alike. -/
theorem spelled_toJson_inj {e e' : Expr} (he : e.IsNamed) (he' : e'.IsNamed) :
    e.toJson.spelled = e'.toJson.spelled ↔ e.blurred = e'.blurred := by
  induction e using operands_induction generalizing e' with
  | h e ih =>
      by_cases hkind : e.kind = e'.kind
      · have hoperand : ∀ a ∈ e.operands, ∀ a' ∈ e'.operands,
            a.toJson.spelled = a'.toJson.spelled ↔ a.blurred = a'.blurred :=
          fun a ha a' ha' => ih a ha (he.operand ha) (he'.operand ha')
        have hown := he.own
        have hown' := he'.own
        cases e <;> cases e' <;> try (cases hkind; done)
        case const.const => simp [toJson, blurred]
        case fluent.fluent f args next f' args' next' =>
          simp only [Domain.rootNames, List.forall_mem_cons, List.forall_mem_map] at hown hown'
          have hargs : args.map (fun t => t.toJson.spelled) =
              args'.map (fun t => t.toJson.spelled) ↔ args = args' := by
            rw [map_eq_map_iff_map_eq_map (g := id), List.map_id, List.map_id]
            intro t ht t' ht'
            exact Term.toJson_inj (hown.2 t ht) (hown'.2 t' ht')
          simp [toJson, blurred, Function.comp_def, hargs]
        case term.term t t' =>
          simp only [Domain.rootNames, List.forall_mem_singleton] at hown hown'
          have hterm : t.toJson.spelled = t'.toJson.spelled ↔ t = t' :=
            Term.toJson_inj hown hown'
          simp [toJson, blurred, hterm]
        case and.and | or.or =>
          have hargs := map_eq_map_iff_map_eq_map hoperand
          simp only [operands] at hargs
          simp [toJson, toJsonAll_eq_map, blurred, blurredAll_eq_map, Function.comp_def, hargs]
        case aggregate.aggregate op vars body op' vars' body' =>
          simp only [operands, List.forall_mem_singleton] at hoperand
          have hvars : vars.map (fun v => v.toJson.spelled) =
              vars'.map (fun v => v.toJson.spelled) ↔ vars = vars' :=
            List.map_inj_right fun v w => TypedVar.spelled_toJson_inj.mp
          simp [toJson, blurred, Function.comp_def, hvars, hoperand]
        all_goals
          simp only [operands, List.forall_mem_cons] at hoperand
          simp [toJson, blurred, hoperand]
      · have hspelled : e.toJson.spelled ≠ e'.toJson.spelled := fun h =>
          hkind (kind_eq_of_spelled h)
        have hblurred : e.blurred ≠ e'.blurred := fun h => by
          rw [← kind_blurred e, h, kind_blurred] at hkind
          exact hkind rfl
        exact iff_of_false hspelled hblurred

theorem legible_spelled (e : Expr) : e.toJson.spelled.Legible .nearest := by
  induction e using operands_induction with
  | h e ih =>
      cases e with
      | const v => simp [toJson, Value.legible_spelled]
      | fluent f args next => simp [toJson, Term.toJson]
      | term t => simp [toJson, Term.toJson]
      | aggregate op vars body =>
          simp [toJson, TypedVar.toJson, ih body List.mem_cons_self]
      | _ => simpa [toJson, toJsonAll_eq_map, operands] using ih

/-- An expression whose reals are finite is told in full. -/
theorem blurred_eq_self (e : Expr) (he : e.IsPortable) : e.blurred = e := by
  induction e using operands_induction with
  | h e ih =>
      have hoperand : ∀ a ∈ e.operands, a.blurred = a := fun a ha => ih a ha (he.operand ha)
      have hown := he.own
      cases e
      case const v => rw [blurred, Value.blurred_eq_self hown]
      case and as | or as =>
        have has : as.map blurred = as := map_eq_self hoperand
        rw [blurred, blurredAll_eq_map, has]
      all_goals
        simp only [operands, List.forall_mem_cons] at hoperand
        simp [blurred, hoperand]

end Expr

/-! ## Domains -/

theorem FluentKind.text_inj {k l : FluentKind} : k.text = l.text ↔ k = l := by
  cases k <;> cases l <;> decide

theorem Range.text_inj {r s : Range} : r.text = s.text ↔ r = s := by
  cases r <;> cases s <;> decide

theorem FluentDecl.spelled_toJson_inj {f g : FluentDecl} :
    f.toJson.spelled = g.toJson.spelled ↔ f.blurred = g.blurred := by
  obtain ⟨name, kind, range, params, default⟩ := f
  obtain ⟨name', kind', range', params', default'⟩ := g
  cases default <;> cases default' <;>
    simp [toJson, blurred, FluentKind.toJson, Range.toJson, FluentKind.text_inj, Range.text_inj,
      Json.strings_inj]

theorem CpfDecl.spelled_toJson_inj {c c' : CpfDecl} (hc : c.expr.IsNamed)
    (hc' : c'.expr.IsNamed) : c.toJson.spelled = c'.toJson.spelled ↔ c.blurred = c'.blurred := by
  obtain ⟨fluent, params, expr⟩ := c
  obtain ⟨fluent', params', expr'⟩ := c'
  simp [toJson, blurred, Json.strings_inj, Expr.spelled_toJson_inj hc hc']

namespace Domain

theorem checkExpr_eq_ok_iff {e : Expr} : checkExpr e = .ok () ↔ e.IsNamed := by
  have hname : ∀ name, checkIdentifier name = .ok () ↔ isIdentifier name = true := by
    intro name
    unfold checkIdentifier
    split_ifs with hname <;> simp [hname]
  simp only [checkExpr, Effects.forM_eq_ok_iff, hname, Expr.IsNamed]

/-- All names in the expressions of a valid domain are identifiers. -/
theorem isNamed_of_validate {d : Domain} (h : d.validate = .ok ()) : ∀ e ∈ d.exprs, e.IsNamed := by
  simp only [validate, checkCpf, Effects.seq_eq_ok_iff, Effects.forM_eq_ok_iff,
    checkExpr_eq_ok_iff] at h
  obtain ⟨-, -, -, -, -, hcpfs, -, hreward, hconstraints⟩ := h
  exact forall_mem_exprs.mpr ⟨fun c hc => (hcpfs c hc).2.2.2, hreward, hconstraints⟩

/-- The documents of domains spell the same exactly where the domains are told
alike. -/
theorem spelled_toJson_inj {d d' : Domain} (hd : ∀ e ∈ d.exprs, e.IsNamed)
    (hd' : ∀ e ∈ d'.exprs, e.IsNamed) :
    d.toJson.spelled = d'.toJson.spelled ↔ d.blurred = d'.blurred := by
  obtain ⟨hcpfs, hreward, hconstraints⟩ := forall_mem_exprs.mp hd
  obtain ⟨hcpfs', hreward', hconstraints'⟩ := forall_mem_exprs.mp hd'
  have hfluents : d.fluents.map (fun f => f.toJson.spelled) =
      d'.fluents.map (fun f => f.toJson.spelled) ↔
        d.fluents.map FluentDecl.blurred = d'.fluents.map FluentDecl.blurred :=
    map_eq_map_iff_map_eq_map fun f _ g _ => FluentDecl.spelled_toJson_inj
  have hfunctions : d.cpfs.map (fun c => c.toJson.spelled) =
      d'.cpfs.map (fun c => c.toJson.spelled) ↔
        d.cpfs.map CpfDecl.blurred = d'.cpfs.map CpfDecl.blurred :=
    map_eq_map_iff_map_eq_map fun c hc c' hc' =>
      CpfDecl.spelled_toJson_inj (hcpfs c hc) (hcpfs' c' hc')
  have hconditions : d.constraints.map (fun e => e.toJson.spelled) =
      d'.constraints.map (fun e => e.toJson.spelled) ↔
        d.constraints.map Expr.blurred = d'.constraints.map Expr.blurred :=
    map_eq_map_iff_map_eq_map fun e he e' he' =>
      Expr.spelled_toJson_inj (hconstraints e he) (hconstraints' e' he')
  have hgain := Expr.spelled_toJson_inj hreward hreward'
  obtain ⟨name, types, fluents, cpfs, reward, constraints⟩ := d
  obtain ⟨name', types', fluents', cpfs', reward', constraints'⟩ := d'
  cases constraints <;> cases constraints' <;>
    simp_all [toJson, blurred, Json.strings_inj, Function.comp_def, Expr.toJsonAll_eq_map]

theorem legible_spelled (d : Domain) : d.toJson.spelled.Legible .nearest := by
  have hfluents : ∀ f ∈ d.fluents, f.toJson.spelled.Legible .nearest := by
    intro f _
    obtain ⟨name, kind, range, params, default⟩ := f
    cases default <;>
      simp [FluentDecl.toJson, FluentKind.toJson, Range.toJson, Json.legible_strings,
        Value.legible_spelled]
  have hcpfs : ∀ c ∈ d.cpfs, c.toJson.spelled.Legible .nearest := fun c _ => by
    simp [CpfDecl.toJson, Json.legible_strings, Expr.legible_spelled]
  have hconstraints : ∀ e ∈ d.constraints, e.toJson.spelled.Legible .nearest := fun e _ =>
    e.legible_spelled
  have hreward := d.reward.legible_spelled
  obtain ⟨name, types, fluents, cpfs, reward, constraints⟩ := d
  cases constraints with
  | nil => simpa [toJson, Json.legible_strings] using ⟨hfluents, hcpfs, hreward⟩
  | cons e es =>
      simpa [toJson, Json.legible_strings, Expr.toJsonAll_eq_map] using
        ⟨hfluents, hcpfs, hreward, List.forall_mem_cons.mp hconstraints⟩

/-- A domain whose reals are finite is told in full. -/
theorem blurred_eq_self {d : Domain} (hd : d.IsPortable) : d.blurred = d := by
  have hfluents : d.fluents.map FluentDecl.blurred = d.fluents := by
    apply map_eq_self
    intro f hf
    have hdefault : f.default.map Value.blurred = f.default := by
      cases hvalue : f.default with
      | none => rfl
      | some v => exact congrArg some (Value.blurred_eq_self (hd.defaults f hf v hvalue))
    rw [FluentDecl.blurred, hdefault]
  have hcpfs : d.cpfs.map CpfDecl.blurred = d.cpfs := by
    apply map_eq_self
    intro c hc
    rw [CpfDecl.blurred, c.expr.blurred_eq_self (hd.cpf hc)]
  have hconstraints : d.constraints.map Expr.blurred = d.constraints :=
    map_eq_self fun e he => e.blurred_eq_self (hd.constraints e he)
  rw [blurred, hfluents, hcpfs, hconstraints, d.reward.blurred_eq_self hd.reward]

end Domain

/-! ## Instances -/

theorem Assignment.spelled_toJson_inj {a b : Assignment} :
    a.toJson.spelled = b.toJson.spelled ↔ a.blurred = b.blurred := by
  obtain ⟨fluent, args, value⟩ := a
  obtain ⟨fluent', args', value'⟩ := b
  simp [toJson, blurred, Json.strings_inj]

theorem ObjectsDecl.spelled_toJson_inj {o o' : ObjectsDecl} :
    o.toJson.spelled = o'.toJson.spelled ↔ o = o' := by
  obtain ⟨typeName, objects⟩ := o
  obtain ⟨typeName', objects'⟩ := o'
  simp [toJson, Json.strings_inj]

namespace Instance

theorem spelled_toJson_inj {i i' : Instance} :
    i.toJson.spelled = i'.toJson.spelled ↔ i.blurred = i'.blurred := by
  have hobjects : i.objects.map (fun o => o.toJson.spelled) =
      i'.objects.map (fun o => o.toJson.spelled) ↔ i.objects = i'.objects :=
    List.map_inj_right fun o o' => ObjectsDecl.spelled_toJson_inj.mp
  have hassignments : ∀ as as' : List Assignment, as.map (fun a => a.toJson.spelled) =
      as'.map (fun a => a.toJson.spelled) ↔
        as.map Assignment.blurred = as'.map Assignment.blurred :=
    fun as as' => map_eq_map_iff_map_eq_map fun a _ b _ => Assignment.spelled_toJson_inj
  have hmax : ∀ n n' : Option UInt64,
      (Json.ofOption (fun n : UInt64 => .int n.toNat) n).spelled =
        (Json.ofOption (fun n : UInt64 => .int n.toNat) n').spelled ↔ n = n' := by
    intro n n'
    cases n <;> cases n' <;> simp [Json.ofOption, UInt64.toNat_inj]
  obtain ⟨name, domain, objects, nonFluents, initState, max, horizon, discount⟩ := i
  obtain ⟨name', domain', objects', nonFluents', initState', max', horizon', discount'⟩ := i'
  simp_all [toJson, blurred, Function.comp_def, spelled_real_inj, UInt32.toNat_inj]

theorem legible_spelled (i : Instance) : i.toJson.spelled.Legible .nearest := by
  have hassignment : ∀ a : Assignment, a.toJson.spelled.Legible .nearest := fun a => by
    simp [Assignment.toJson, Json.legible_strings, Value.legible_spelled]
  have hobjects : ∀ o : ObjectsDecl, o.toJson.spelled.Legible .nearest := fun o => by
    simp [ObjectsDecl.toJson, Json.legible_strings]
  have hmax : (Json.ofOption (fun n : UInt64 => .int n.toNat)
      i.maxNonDefaultActions).spelled.Legible .nearest := by
    cases i.maxNonDefaultActions with
    | none => exact Json.legible_null
    | some n =>
        have hn := n.toNat_lt
        rw [Json.ofOption, Json.spelled_int, Json.legible_int]
        omega
  have hhorizon : (Json.int i.horizon.toNat).Legible .nearest := by
    have hn := i.horizon.toNat_lt
    rw [Json.legible_int]
    omega
  have hdiscount : (Json.real i.discount).spelled.Legible .nearest := by
    have hvalue := (Value.real i.discount).legible_spelled
    rw [Value.toJson, Json.spelled_obj, Json.legible_obj] at hvalue
    exact hvalue ("value", (Json.real i.discount).spelled) (by simp [Value.contentJson])
  simp only [toJson, Json.spelled_obj, Json.legible_obj, List.forall_mem_map, List.forall_mem_cons,
    Json.spelled_str, Json.legible_str, Json.spelled_arr, Json.legible_arr, Json.spelled_int]
  exact ⟨trivial, trivial, fun o _ => hobjects o, fun a _ => hassignment a,
    fun a _ => hassignment a, hmax, hhorizon, hdiscount, List.forall_mem_nil _⟩

/-- An instance whose reals are finite is told in full. -/
theorem blurred_eq_self {i : Instance} (hi : i.IsPortable) : i.blurred = i := by
  obtain ⟨hnonFluents, hinitState⟩ := List.forall_mem_append.mp hi.values
  have hassignments : ∀ as : List Assignment, (∀ a ∈ as, a.value.IsFinite) →
      as.map Assignment.blurred = as := by
    intro as has
    apply map_eq_self
    intro a ha
    rw [Assignment.blurred, Value.blurred_eq_self (has a ha)]
  rw [blurred, hassignments _ hnonFluents, hassignments _ hinitState,
    blurredReal_eq_self hi.discount]

end Instance
end LiftedPomdp
