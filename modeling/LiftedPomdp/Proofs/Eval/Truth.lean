import LiftedPomdp.Eval.Meaning
import LiftedPomdp.Proofs.Eval.Bindings
import LiftedPomdp.Proofs.Ground.Lookup

/-!
# The truth of logical expressions

Expressions built from boolean fluents by connectives, quantifiers, choices and
comparisons of objects are formulas.  `Expr.Holds` says when one is true of the
objects of each type and the ground fluents that are true, and the evaluation,
which stops as soon as the answer is known, gives this truth value whenever it
gives one.

A function that chooses between formulas, point masses on them and coins has
the values that `Expr.Allows` describes: those of a coin are left open.
-/

namespace LiftedPomdp

open Effects Grounding

/-! ## Formulas -/

/-- The objects of each type, and the ground fluents that are true before or
after the transition. -/
structure Scene where
  object : String → String → Prop
  holds : Bool → GroundFluent → Prop

/-- The scene that a world shows. -/
def World.scene (w : World) : Scene where
  object := fun type o => ∃ os, w.objects? type = some os ∧ o ∈ os
  holds := fun next g => w.value? next g = some (.bool true)

/-- The name of the object that a term denotes. -/
def Term.denoted? (env : Environment) : Term → Option String
  | .var v => env.lookup v
  | .object o => some o

/-- The names of the objects that some terms denote. -/
def Term.allDenoted? (env : Environment) : List Term → Option (List String)
  | [] => some []
  | t :: ts =>
    match t.denoted? env, allDenoted? env ts with
    | some o, some os => some (o :: os)
    | _, _ => none

/-- Some choice of objects for the variables makes a statement true. -/
def Scene.ForSome (sc : Scene) (P : Environment → Prop) : List TypedVar → Environment → Prop
  | [], env => P env
  | v :: vs, env => ∃ o, sc.object v.typeName o ∧ sc.ForSome P vs ((v.var, o) :: env)

namespace Expr

mutual

/-- An expression is true of a scene, where variables stand for the given
objects. -/
def Holds (sc : Scene) (env : Environment) : Expr → Prop
  | .const v => v = .bool true
  | .fluent name args next =>
    ∃ os, Term.allDenoted? env args = some os ∧ sc.holds next { name, args := os }
  | .not a => ¬Holds sc env a
  | .and as => AllHold sc env as
  | .or as => SomeHolds sc env as
  | .implies l r => Holds sc env l → Holds sc env r
  | .equiv l r => Holds sc env l ↔ Holds sc env r
  | .compare .eq (.term l) (.term r) => l.denoted? env = r.denoted? env
  | .compare .neq (.term l) (.term r) => l.denoted? env ≠ r.denoted? env
  | .ite c t e => (Holds sc env c ∧ Holds sc env t) ∨ (¬Holds sc env c ∧ Holds sc env e)
  | .aggregate .exists vars body => sc.ForSome (fun env => Holds sc env body) vars env
  | .aggregate .forall vars body => ¬sc.ForSome (fun env => ¬Holds sc env body) vars env
  | _ => False

/-- All of some expressions are true of a scene. -/
def AllHold (sc : Scene) (env : Environment) : List Expr → Prop
  | [] => True
  | e :: es => Holds sc env e ∧ AllHold sc env es

/-- One of some expressions is true of a scene. -/
def SomeHolds (sc : Scene) (env : Environment) : List Expr → Prop
  | [] => False
  | e :: es => Holds sc env e ∨ SomeHolds sc env es

end

mutual

/-- Whether an expression is a formula. -/
def isFormula : Expr → Bool
  | .const _ | .fluent _ _ _ => true
  | .not a => isFormula a
  | .and as | .or as => areFormulas as
  | .implies l r | .equiv l r => isFormula l && isFormula r
  | .compare .eq (.term _) (.term _) | .compare .neq (.term _) (.term _) => true
  | .ite c t e => isFormula c && isFormula t && isFormula e
  | .aggregate .exists _ body | .aggregate .forall _ body => isFormula body
  | _ => false

/-- Whether all of some expressions are formulas. -/
def areFormulas : List Expr → Bool
  | [] => true
  | e :: es => isFormula e && areFormulas es

end

/-- The truth values that a function may come to in a scene. -/
def Allows (sc : Scene) (env : Environment) (b : Bool) : Expr → Prop
  | .ite c t e => (c.Holds sc env ∧ Allows sc env b t) ∨ (¬c.Holds sc env ∧ Allows sc env b e)
  | .kronDelta a => b = true ↔ a.Holds sc env
  | .bernoulli _ => True
  | e => b = true ↔ e.Holds sc env

/-- Whether an expression chooses between formulas, point masses on them and
coins. -/
def isChance : Expr → Bool
  | .ite c t e => c.isFormula && isChance t && isChance e
  | .kronDelta a => a.isFormula
  | .bernoulli _ => true
  | e => e.isFormula

/-! ## Reading formulas -/

attribute [simp] Scene.ForSome Term.ofText Term.allDenoted? withoutMark TypedVar.ofText readAt
  now later quantify Holds AllHold

@[simp]
theorem denoted?_object (env : Environment) (o : String) :
    (Term.object o).denoted? env = some o := rfl

@[simp]
theorem denoted?_var (v name o : String) (env : Environment) :
    (Term.var v).denoted? ((name, o) :: env) =
      if v = name then some o else (Term.var v).denoted? env := by
  rw [Term.denoted?, List.lookup_cons]
  by_cases hname : v = name
  · rw [if_pos hname, hname, beq_self_eq_true]
  · rw [if_neg hname, beq_eq_false_iff_ne.mpr hname]
    rfl

theorem someHolds_iff {sc : Scene} {env : Environment} {es : List Expr} :
    SomeHolds sc env es ↔ ∃ e ∈ es, e.Holds sc env := by
  induction es with
  | nil => simp [SomeHolds]
  | cons e es ih => rw [SomeHolds, ih, List.exists_mem_cons_iff]

@[simp]
theorem holds_bool {sc : Scene} {env : Environment} (b : Bool) :
    (bool b).Holds sc env ↔ b = true := by
  rw [bool, Holds, Value.bool.injEq]

/-- Of cases with one outcome it does not matter which of them applies first. -/
theorem allows_foldr_ite {α : Type} {sc : Scene} {env : Environment} {b : Bool}
    (condition : α → Expr) (outcome otherwise : Expr) (xs : List α) :
    (xs.foldr (fun x rest => .ite (condition x) outcome rest) otherwise).Allows sc env b ↔
      ((∃ x ∈ xs, (condition x).Holds sc env) ∧ outcome.Allows sc env b) ∨
        ((¬∃ x ∈ xs, (condition x).Holds sc env) ∧ otherwise.Allows sc env b) := by
  induction xs with
  | nil => simp
  | cons x xs ih =>
      rw [List.foldr_cons, Allows, ih, List.exists_mem_cons_iff]
      by_cases hx : (condition x).Holds sc env
      · simp only [hx, true_and, true_or, not_true_eq_false, false_and, or_false]
      · simp only [hx, false_and, false_or, not_false_eq_true, true_and]

end Expr

/-! ## Results -/

/-- Whatever a meaning results in has a property. -/
abbrev Meaning.Returns {α : Type} (x : Meaning α) (Q : α → Prop) : Prop :=
  Keeps (fun _ => True) x Q

/-- A truth value is the one of a statement. -/
def Value.Tells (P : Prop) (v : Value) : Prop :=
  ∀ b, v = .bool b → (b = true ↔ P)

theorem Value.tells_bool {b : Bool} {P : Prop} (h : b = true ↔ P) : (Value.bool b).Tells P := by
  intro b' hb
  rw [← (Value.bool.inj hb), h]

/-- Whether a value that is known to be a truth value is true. -/
theorem Value.some_bool_iff {v : Option Value} {b : Bool} (h : v = some (.bool b)) :
    v = some (.bool true) ↔ b = true := by
  rw [h, Option.some.injEq, Value.bool.injEq]

/-- A search ends with a value where something is found, and otherwise goes on
with what it has. -/
def Searched (stop acc : Value) (P : Prop) : ForInStep Value → Prop
  | .done v => v = stop ∧ P
  | .yield v => v = acc ∧ ¬P

namespace Meaning.Returns

variable {α : Type} {w : World} {env : Environment}

theorem mono {x : Meaning α} {P Q : α → Prop} (h : x.Returns P) (hPQ : ∀ a, P a → Q a) :
    x.Returns Q := fun s hs => ⟨trivial, fun a ha => hPQ a ((h s hs).2 a ha)⟩

theorem of_run {x : Meaning α} {P : α → Prop} (h : x.Returns P) {s s' : Sampler} {a : α}
    (hrun : x.run s = (.ok a, s')) : P a :=
  (h s trivial).2 a (congrArg Prod.fst hrun)

theorem refer (name : String) (a : Option α) :
    (Meaning.refer name a).Returns fun b => a = some b := by
  cases a with
  | none => exact Keeps.error _
  | some a => exact Keeps.value rfl

theorem object (t : Term) : (Meaning.object env t).Returns fun o => t.denoted? env = some o := by
  cases t with
  | var v => exact refer v _
  | object o => exact Keeps.value rfl

theorem objects (ts : List Term) :
    (Meaning.objects env ts).Returns fun os => Term.allDenoted? env ts = some os := by
  induction ts with
  | nil => exact Keeps.value rfl
  | cons t ts ih =>
      refine Keeps.bind (object t) fun o ho => Keeps.bind ih fun os hos => Keeps.value ?_
      rw [Term.allDenoted?, ho, hos]

/-- A fluent has the value of the ground fluent that its arguments denote. -/
theorem readValue (name : String) (args : List Term) (next : Bool) :
    (w.read env name args next).Returns fun v =>
      ∃ os, Term.allDenoted? env args = some os ∧ w.value? next { name, args := os } = some v :=
  Keeps.bind (objects args) fun os hos => (refer name _).mono fun _ hv => ⟨os, hos, hv⟩

theorem read (name : String) (args : List Term) (next : Bool) :
    (w.read env name args next).Returns
      (Value.Tells ((Expr.fluent name args next).Holds w.scene env)) := by
  refine (readValue name args next).mono fun v ⟨os, hos, hv⟩ b hb => ?_
  subst hb
  simp only [Expr.Holds, hos, Option.some.injEq, exists_eq_left', World.scene, hv,
    Value.bool.injEq]

theorem compareObjects {op : CompareOp} (hop : op = .eq ∨ op = .neq) (l r : Term) :
    (w.compareObjects env op l r).Returns
      (Value.Tells ((Expr.compare op (.term l) (.term r)).Holds w.scene env)) := by
  refine Keeps.bind (object l) fun o ho => Keeps.bind (object r) fun o' ho' => ?_
  rcases hop with rfl | rfl
  · refine Keeps.value (Value.tells_bool ?_)
    rw [Expr.Holds, ho, ho', beq_iff_eq, Option.some.injEq]
  · refine Keeps.value (Value.tells_bool ?_)
    rw [Expr.Holds, ho, ho', bne_iff_ne, ne_eq, ne_eq, Option.some.injEq]

theorem truth {x : Meaning Value} {P : Prop} (h : x.Returns (Value.Tells P)) :
    (w.truth x).Returns fun b => b = true ↔ P := by
  refine Keeps.bind h fun v hv => ?_
  cases v with
  | bool b => exact Keeps.value (hv b rfl)
  | int n => exact Keeps.error _
  | real x => exact Keeps.error _

/-! ## Quantifiers -/

theorem overObjects {step : String → Value → Meaning (ForInStep Value)} {stop : Value}
    {P : String → Prop} (hstep : ∀ o acc, (step o acc).Returns (Searched stop acc (P o)))
    (os : List String) (acc : Value) :
    (Meaning.overObjects step os acc).Returns (Searched stop acc (∃ o ∈ os, P o)) := by
  induction os with
  | nil => exact Keeps.value ⟨rfl, by simp⟩
  | cons o os ih =>
      refine Keeps.bind (hstep o acc) fun r hr => ?_
      simp only [List.mem_cons, exists_eq_or_imp]
      cases r with
      | done v => exact Keeps.value ⟨hr.1, .inl hr.2⟩
      | yield v =>
          obtain ⟨rfl, hfirst⟩ := hr
          refine ih.mono fun r hrest => ?_
          cases r with
          | done v => exact ⟨hrest.1, .inr hrest.2⟩
          | yield v => exact ⟨hrest.1, not_or.mpr ⟨hfirst, hrest.2⟩⟩

theorem overBindings {step : Environment → Value → Meaning (ForInStep Value)} {stop : Value}
    {P : Environment → Prop} (hstep : ∀ env acc, (step env acc).Returns (Searched stop acc (P env)))
    (vars : List TypedVar) (env : Environment) (acc : Value) :
    (w.overBindings step vars env acc).Returns
      (Searched stop acc (w.scene.ForSome P vars env)) := by
  induction vars generalizing env acc with
  | nil => exact hstep env acc
  | cons v vars ih =>
      refine Keeps.bind (refer v.typeName _) fun os hos => ?_
      refine (overObjects (fun o acc => ih ((v.var, o) :: env) acc) os acc).mono fun r hr => ?_
      simpa only [Scene.ForSome, World.scene, hos, Option.some.injEq, exists_eq_left'] using hr

variable {body : Environment → Meaning Value} {P : Environment → Prop}

theorem someBinding (hbody : ∀ env, (body env).Returns (Value.Tells (P env)))
    (vars : List TypedVar) (env : Environment) :
    (w.aggregate env .exists vars body).Returns (Value.Tells (w.scene.ForSome P vars env)) := by
  have hstep : ∀ env acc,
      (w.combine body .exists env acc).Returns (Searched (.bool true) acc (P env)) := by
    intro env acc
    refine Keeps.bind (truth (hbody env)) fun b hb => ?_
    cases b with
    | true => exact Keeps.value ⟨rfl, hb.mp rfl⟩
    | false => exact Keeps.value ⟨rfl, fun hP => Bool.false_ne_true (hb.mpr hP)⟩
  refine Keeps.bind (overBindings hstep vars env _) fun r hr => ?_
  cases r with
  | done v =>
      obtain ⟨rfl, hsome⟩ := hr
      exact Keeps.value (Value.tells_bool (iff_of_true rfl hsome))
  | yield v =>
      obtain ⟨rfl, hnone⟩ := hr
      exact Keeps.value (Value.tells_bool (iff_of_false Bool.false_ne_true hnone))

theorem everyBinding (hbody : ∀ env, (body env).Returns (Value.Tells (P env)))
    (vars : List TypedVar) (env : Environment) :
    (w.aggregate env .forall vars body).Returns
      (Value.Tells (¬w.scene.ForSome (fun env => ¬P env) vars env)) := by
  have hstep : ∀ env acc,
      (w.combine body .forall env acc).Returns (Searched (.bool false) acc (¬P env)) := by
    intro env acc
    refine Keeps.bind (truth (hbody env)) fun b hb => ?_
    cases b with
    | true => exact Keeps.value ⟨rfl, not_not.mpr (hb.mp rfl)⟩
    | false => exact Keeps.value ⟨rfl, fun hP => Bool.false_ne_true (hb.mpr hP)⟩
  refine Keeps.bind (overBindings hstep vars env _) fun r hr => ?_
  cases r with
  | done v =>
      obtain ⟨rfl, hsome⟩ := hr
      exact Keeps.value (Value.tells_bool (iff_of_false Bool.false_ne_true (not_not.mpr hsome)))
  | yield v =>
      obtain ⟨rfl, hnone⟩ := hr
      exact Keeps.value (Value.tells_bool (iff_of_true rfl hnone))

end Meaning.Returns

/-! ## Evaluation -/

namespace Expr

/-- Only objects are compared in formulas, and only for being the same. -/
theorem of_isFormula_compare {op : CompareOp} {l r : Expr}
    (h : (compare op l r).isFormula = true) :
    (op = .eq ∨ op = .neq) ∧ ∃ t u, l = .term t ∧ r = .term u := by
  unfold isFormula at h
  split at h
  case h_8 heq =>
    obtain ⟨rfl, rfl, rfl⟩ := compare.inj heq
    exact ⟨.inl rfl, _, _, rfl, rfl⟩
  case h_9 heq =>
    obtain ⟨rfl, rfl, rfl⟩ := compare.inj heq
    exact ⟨.inr rfl, _, _, rfl, rfl⟩
  all_goals contradiction

mutual

/-- The value of a formula, where it has one, is its truth value. -/
theorem meaning_tells (w : World) (env : Environment) (e : Expr) (h : e.isFormula = true) :
    (e.meaning w env).Returns (Value.Tells (e.Holds w.scene env)) := by
  cases e with
  | const v =>
      refine Keeps.value fun b hb => ?_
      rw [Holds, hb, Value.bool.injEq]
  | fluent name args next => exact .read name args next
  | not a =>
      rw [isFormula] at h
      rw [meaning, Holds]
      refine Keeps.bind (meaning_tells w env a h).truth fun b hb => Keeps.value ?_
      apply Value.tells_bool
      rw [← hb]
      cases b <;> simp
  | and as =>
      rw [isFormula] at h
      rw [meaning, Holds]
      exact Keeps.bind (meaningAll_tells w env as h).1 fun b hb =>
        Keeps.value (Value.tells_bool hb)
  | or as =>
      rw [isFormula] at h
      rw [meaning, Holds]
      exact Keeps.bind (meaningAll_tells w env as h).2 fun b hb =>
        Keeps.value (Value.tells_bool hb)
  | implies l r =>
      rw [isFormula, Bool.and_eq_true] at h
      rw [meaning, Holds]
      refine Keeps.bind (meaning_tells w env l h.1).truth fun b hb => ?_
      cases b with
      | true =>
          refine Keeps.bind (meaning_tells w env r h.2).truth fun b' hb' => Keeps.value ?_
          exact Value.tells_bool (hb'.trans (imp_iff_right (hb.mp rfl)).symm)
      | false =>
          refine Keeps.value (Value.tells_bool (iff_of_true rfl ?_))
          exact fun hl => absurd (hb.mpr hl) Bool.false_ne_true
  | equiv l r =>
      rw [isFormula, Bool.and_eq_true] at h
      rw [meaning, Holds]
      refine Keeps.bind (meaning_tells w env l h.1).truth fun b hb =>
        Keeps.bind (meaning_tells w env r h.2).truth fun b' hb' => Keeps.value ?_
      apply Value.tells_bool
      rw [← hb, ← hb', beq_iff_eq, Bool.eq_iff_iff]
  | compare op l r =>
      obtain ⟨hop, t, u, rfl, rfl⟩ := of_isFormula_compare h
      exact .compareObjects hop t u
  | ite c t e =>
      rw [isFormula, Bool.and_eq_true, Bool.and_eq_true] at h
      rw [meaning, Holds]
      refine Keeps.bind (meaning_tells w env c h.1.1).truth fun b hb => ?_
      cases b with
      | true =>
          refine (meaning_tells w env t h.1.2).mono fun v hv => ?_
          simpa [← hb] using hv
      | false =>
          refine (meaning_tells w env e h.2).mono fun v hv => ?_
          simpa [← hb] using hv
  | aggregate op vars body =>
      cases op with
      | «exists» =>
          rw [isFormula] at h
          rw [meaning, Holds]
          exact .someBinding (fun env => meaning_tells w env body h) vars env
      | «forall» =>
          rw [isFormula] at h
          rw [meaning, Holds]
          exact .everyBinding (fun env => meaning_tells w env body h) vars env
      | sum => cases h
      | prod => cases h
  | _ => cases h

theorem meaningAll_tells (w : World) (env : Environment) (es : List Expr)
    (h : areFormulas es = true) :
    (allMean w env es).Returns (fun b => b = true ↔ AllHold w.scene env es) ∧
      (someMeans w env es).Returns (fun b => b = true ↔ SomeHolds w.scene env es) := by
  cases es with
  | nil => exact ⟨Keeps.value (iff_of_true rfl trivial), Keeps.value (by simp [SomeHolds])⟩
  | cons e es =>
      rw [areFormulas, Bool.and_eq_true] at h
      have hfirst := (meaning_tells w env e h.1).truth (w := w)
      obtain ⟨hall, hsome⟩ := meaningAll_tells w env es h.2
      rw [allMean, someMeans]
      constructor
      · refine Keeps.bind hfirst fun b hb => ?_
        cases b with
        | true => exact hall.mono fun b' hb' => by simpa [AllHold, ← hb] using hb'
        | false => exact Keeps.value (by simp [AllHold, ← hb])
      · refine Keeps.bind hfirst fun b hb => ?_
        cases b with
        | true => exact Keeps.value (by simp [SomeHolds, ← hb])
        | false => exact hsome.mono fun b' hb' => by simpa [SomeHolds, ← hb] using hb'

end

/-- The value of a function, where it has one, is one that the scene allows. -/
theorem meaning_allowed (w : World) (env : Environment) (e : Expr) (h : e.isChance = true) :
    (e.meaning w env).Returns fun v => ∀ b, v = .bool b → e.Allows w.scene env b := by
  fun_induction isChance e with
  | case1 c t e iht ihe =>
      rw [Bool.and_eq_true, Bool.and_eq_true] at h
      rw [meaning]
      refine Keeps.bind (meaning_tells w env c h.1.1).truth fun b hb => ?_
      cases b with
      | true => exact (iht h.1.2).mono fun v hv b hv' => .inl ⟨hb.mp rfl, hv b hv'⟩
      | false =>
          have hc : ¬c.Holds w.scene env := fun hc => Bool.false_ne_true (hb.mpr hc)
          exact (ihe h.2).mono fun v hv b hv' => .inr ⟨hc, hv b hv'⟩
  | case2 a =>
      rw [meaning]
      refine Keeps.bind (meaning_tells w env a h) fun v hv s _ => ?_
      rw [Meaning.run_draw]
      refine ⟨trivial, ?_⟩
      rintro _ hdrawn b rfl
      cases hdrawn
      exact hv b rfl
  | case3 p => exact fun s _ => ⟨trivial, fun v _ b _ => trivial⟩
  | case4 e =>
      refine (meaning_tells w env e h).mono fun v hv b hb => ?_
      rw [Allows]
      · exact hv b hb
      all_goals assumption

end Expr

/-! ## The scene of a model -/

/-- The scene that the tables of a model show; no error has a part in it. -/
def Model.scene (m : Model) (s : Snapshot) : Scene :=
  (m.world s "").scene

theorem Model.scene_world (m : Model) (s : Snapshot) (label : String) :
    (m.world s label).scene = m.scene s := rfl

namespace Grounded

variable {d : Domain} {i : Instance} {m : Model}

/-- The objects of a declared type are those that the instance declares. -/
theorem objects?_world (h : Grounded d i m) (s : Snapshot) (label : String) {type : String}
    (htype : type ∈ d.types) : (m.world s label).objects? type = some (objectsOf i type) := by
  have htypes := objectTypes_eq_ok h.types
  have hfind : m.type? type = some { name := type, objects := objectsOf i type } := by
    refine (find?_key_eq_some_iff h.namedApart.typeNames).mpr ⟨?_, rfl⟩
    rw [htypes]
    exact List.mem_toArray.mpr (List.mem_map.mpr ⟨type, htype, rfl⟩)
  simp only [Model.world, hfind, Option.map_some]

theorem scene_object_iff (h : Grounded d i m) (s : Snapshot) {type o : String}
    (htype : type ∈ d.types) : (m.scene s).object type o ↔ o ∈ objectsOf i type := by
  simp only [Model.scene, World.scene, h.objects?_world s "" htype, Option.some.injEq,
    exists_eq_left']

/-- The value of a ground fluent is the one in the table of its kind. -/
theorem value?_world (h : Grounded d i m) (s : Snapshot) (label : String) {name : String}
    {f : FluentDecl} (hf : d.fluent? name = some f) (next : Bool) (args : List String) :
    (m.world s label).value? next { name, args } =
      m.lookup? f.kind (Model.readTable s f.kind next) name args := by
  obtain ⟨b, hb, hkind, _⟩ := h.exists_block_of_fluent? hf
  simp only [Model.world, hb, hkind, h.get?_describe_eq_lookup?]

/-- A ground fluent is true where the table of its kind says so. -/
theorem scene_holds_iff (h : Grounded d i m) (s : Snapshot) {name : String} {f : FluentDecl}
    (hf : d.fluent? name = some f) (next : Bool) (args : List String) :
    (m.scene s).holds next { name, args } ↔
      m.lookup? f.kind (Model.readTable s f.kind next) name args = some (.bool true) := by
  rw [← h.value?_world s "" hf]
  exact Iff.rfl

section Current

/-! What is true before a transition is read from the table of its kind. -/

variable {name : String} {range : Range} {params : List String} {v : Value} {state action : Table}
  {args : List String}

theorem holds_nonFluent (h : Grounded d i m)
    (hf : FluentDecl.nonFluent name range params v ∈ d.fluents) :
    (m.scene (.current m.nonFluents state action)).holds false { name, args } ↔
      m.nonFluent? name args = some (.bool true) :=
  h.scene_holds_iff _ (h.fluent?_eq_some hf) false args

theorem holds_state (h : Grounded d i m)
    (hf : FluentDecl.state name range params v ∈ d.fluents) :
    (m.scene (.current m.nonFluents state action)).holds false { name, args } ↔
      m.lookup? .state state name args = some (.bool true) :=
  h.scene_holds_iff _ (h.fluent?_eq_some hf) false args

theorem holds_action (h : Grounded d i m)
    (hf : FluentDecl.action name range params v ∈ d.fluents) :
    (m.scene (.current m.nonFluents state action)).holds false { name, args } ↔
      m.lookup? .action action name args = some (.bool true) :=
  h.scene_holds_iff _ (h.fluent?_eq_some hf) false args

end Current

section Observing

/-! What the functions of observations see is read from the tables after the
transition. -/

variable {name : String} {range : Range} {params : List String} {v : Value}
  {nextState action observed : Table} {args : List String} {next : Bool}

theorem observes_nonFluent (h : Grounded d i m)
    (hf : FluentDecl.nonFluent name range params v ∈ d.fluents) :
    (m.scene (.observing m.nonFluents nextState action observed)).holds next { name, args } ↔
      m.nonFluent? name args = some (.bool true) := by
  cases next <;> exact h.scene_holds_iff _ (h.fluent?_eq_some hf) _ args

theorem observes_state (h : Grounded d i m)
    (hf : FluentDecl.state name range params v ∈ d.fluents) :
    (m.scene (.observing m.nonFluents nextState action observed)).holds next { name, args } ↔
      m.lookup? .state nextState name args = some (.bool true) := by
  cases next <;> exact h.scene_holds_iff _ (h.fluent?_eq_some hf) _ args

theorem observes_action (h : Grounded d i m)
    (hf : FluentDecl.action name range params v ∈ d.fluents) :
    (m.scene (.observing m.nonFluents nextState action observed)).holds next { name, args } ↔
      m.lookup? .action action name args = some (.bool true) := by
  cases next <;> exact h.scene_holds_iff _ (h.fluent?_eq_some hf) _ args

theorem observes_observation (h : Grounded d i m)
    (hf : FluentDecl.observation name range params ∈ d.fluents) :
    (m.scene (.observing m.nonFluents nextState action observed)).holds next { name, args } ↔
      m.lookup? .observation observed name args = some (.bool true) := by
  cases next <;> exact h.scene_holds_iff _ (h.fluent?_eq_some hf) _ args

end Observing

end Grounded
end LiftedPomdp
