import LiftedPomdp.Proofs.Ground.Functions
import LiftedPomdp.Proofs.Run.Interchange

/-!
# Point masses at the root

At the root of a function the branches of conditionals are selected first, and
the distribution that is left is drawn from last; everywhere else a distribution
is drawn from where it is met.  Both ways come to the same value and leave the
same walk behind.  So point masses around a function, or around branches of the
conditionals at its root, make no difference to any run.
-/

namespace LiftedPomdp

open Effects Grounding

/-! ## Expressions -/

/-- An expression with point masses put around it or around branches of the
conditionals at its root. -/
inductive Expr.WrappedAs : Expr → Expr → Prop
  | same (e : Expr) : WrappedAs e e
  | point {e e' : Expr} (h : WrappedAs e e') : WrappedAs e (.kronDelta e')
  | branches {cond t t' e e' : Expr} (thenBranch : WrappedAs t t') (elseBranch : WrappedAs e e') :
      WrappedAs (.ite cond t e) (.ite cond t' e')

/-- A compiled expression with point masses put around it or around branches of
the conditionals at its root. -/
inductive Node.WrappedAs : Node → Node → Prop
  | same (n : Node) : WrappedAs n n
  | point {n n' : Node} (h : WrappedAs n n') : WrappedAs n (.kronDelta n')
  | branches {cond t t' e e' : Node} (thenBranch : WrappedAs t t') (elseBranch : WrappedAs e e') :
      WrappedAs (.ite cond t e) (.ite cond t' e')

namespace Node

theorem value_kronDelta (c : Context) (n : Node) : (kronDelta n).value c = n.value c := by
  simp only [value, Eval.draw_kronDelta, bind_pure]

theorem WrappedAs.sameValue {n n' : Node} (h : n.WrappedAs n') : n.SameValue n' := by
  intro c
  induction h with
  | same n => rfl
  | point _ ih => rw [value_kronDelta, ih]
  | branches _ _ iht ihe => simp only [value, iht, ihe]

end Node

namespace Expr.WrappedAs

/-- The compilation of a wrapped expression wraps what the expression is compiled
to. -/
theorem matchingRuns_lower {e e' : Expr} (h : e.WrappedAs e') (c : Compiler)
    (bound : List Binding) :
    MatchingRuns Node.WrappedAs (c.lower bound e) (c.lower bound e') := by
  induction h with
  | same e => exact .self .same _
  | point _ ih =>
      rw [Compiler.lower, bind_pure_comp]
      exact ih.map_right fun _ _ hwrapped => .point hwrapped
  | branches _ _ iht ihe =>
      simp only [Compiler.lower]
      refine (MatchingRuns.self (R := Eq) (fun _ => rfl) _).bind ?_
      rintro cond _ rfl
      exact iht.bind fun _ _ ht => ihe.bind fun _ _ he => .value (.branches ht he)

/-- The parts that a wrapping adds have no names of their own, nor any other
detail that only some kinds of expressions have. -/
theorem flatMap_parts {α : Type} {detail : Expr → List α}
    (hpoint : ∀ a, detail (.kronDelta a) = []) (hite : ∀ c t e, detail (.ite c t e) = [])
    {e e' : Expr} (h : e.WrappedAs e') :
    e'.parts.flatMap detail = e.parts.flatMap detail := by
  induction h with
  | same e => rfl
  | point _ ih => rw [parts, List.flatMap_cons, hpoint, List.nil_append, ih]
  | branches _ _ iht ihe =>
      simp only [parts, List.flatMap_cons, List.flatMap_append, hite, iht, ihe]

theorem checkExpr_eq {e e' : Expr} (h : e.WrappedAs e') :
    Domain.checkExpr e' = Domain.checkExpr e := by
  have hflat : ∀ e, Domain.checkExpr e =
      (e.parts.flatMap Domain.rootNames).forM Domain.checkIdentifier := by
    intro e
    rw [Domain.checkExpr]
    induction e.parts with
    | nil => rfl
    | cons p ps ih =>
        rw [List.flatMap_cons, List.forM_eq_forM, List.forM_eq_forM, List.forM_append,
          List.forM_cons]
        exact bind_congr fun _ => ih
  rw [hflat, hflat, h.flatMap_parts (fun _ => rfl) fun _ _ _ => rfl]

end Expr.WrappedAs

/-! ## Functions -/

/-- A function whose expression is wrapped. -/
structure CpfDecl.WrappedAs (c c' : CpfDecl) : Prop where
  fluent : c'.fluent = c.fluent
  params : c'.params = c.params
  expr : c.expr.WrappedAs c'.expr

/-- A domain of which some functions are wrapped. -/
structure Domain.WrappedAs (d d' : Domain) : Prop where
  cpfs : List.Forall₂ CpfDecl.WrappedAs d.cpfs d'.cpfs
  rest : d' = { d with cpfs := d'.cpfs }

namespace Grounding

/-- Compiled functions with the same values that read the same observations. -/
structure CpfEntry.Alike (e e' : CpfEntry) : Prop where
  cpf : e.cpf.Alike e'.cpf
  reads : e'.reads = e.reads

theorem matching_compileCpf {c c' : CpfDecl} (h : c.WrappedAs c') (scope : Scope) :
    Matching CpfEntry.Alike (compileCpf scope c) (compileCpf scope c') := by
  rw [compileCpf, compileCpf, h.fluent, h.params]
  cases scope.fluent? c.fluent with
  | none => exact .error _
  | some target =>
      dsimp only
      generalize scope.blocks[target]? = found
      cases found with
      | none => exact .error _
      | some b =>
          have hbody : ∀ site label, Matching
              (fun p p' => p.1.Alike Node.WrappedAs p'.1 ∧ p.2 = p'.2)
              (Compiler.compile { scope, site, label } (List.zipWith Binding.mk c.params b.params)
                c.expr)
              (Compiler.compile { scope, site, label } (List.zipWith Binding.mk c.params b.params)
                c'.expr) :=
            fun _ _ => Compiler.matching_compile (fun bound => h.expr.matchingRuns_lower _ bound) _
          have hentry : ∀ p p' : Compiled × List Nat,
              p.1.Alike Node.WrappedAs p'.1 ∧ p.2 = p'.2 →
                Matching (ε := ModelError) CpfEntry.Alike
                  (pure { cpf := { target, body := p.1 }, reads := p.2 })
                  (pure { cpf := { target, body := p'.1 }, reads := p'.2 }) := by
            rintro p p' ⟨hbody, hreads⟩
            exact .ok ⟨⟨rfl, hbody.node.sameValue, hbody.slots, hbody.label⟩, hreads.symm⟩
          by_cases harity : c.params.length = b.params.length
          · simp only [harity, ne_eq, not_true_eq_false, if_false]
            cases b.kind with
            | state => exact (hbody (.stateCpf target) (b.name ++ "'")).bind hentry
            | observation => exact (hbody (.observationCpf target) b.name).bind hentry
            | nonFluent => exact .error _
            | action => exact .error _
          · simp only [harity, ne_eq, not_false_eq_true, if_true]
            cases b.kind with
            | state => exact .error _
            | observation => exact .error _
            | nonFluent => exact .error _
            | action => exact .error _

/-- Among compiled functions with the same values, those found under a number
have the same values. -/
theorem entryFor_alike {es es' : List CpfEntry} (h : List.Forall₂ CpfEntry.Alike es es')
    (n : Nat) : entryFor es n = none ∧ entryFor es' n = none ∨
      ∃ e e', entryFor es n = some e ∧ entryFor es' n = some e' ∧ e.Alike e' := by
  induction h with
  | nil => exact .inl ⟨rfl, rfl⟩
  | @cons e e' es es' hfirst _ ih =>
      rw [entryFor, entryFor, List.find?_cons, List.find?_cons, hfirst.cpf.target]
      split
      · exact .inr ⟨e, e', rfl, rfl, hfirst⟩
      · exact ih

theorem filterMap_entryFor_alike {es es' : List CpfEntry}
    (h : List.Forall₂ CpfEntry.Alike es es') (ns : List Nat) :
    List.Forall₂ Cpf.Alike (ns.filterMap fun n => (entryFor es n).map (·.cpf))
      (ns.filterMap fun n => (entryFor es' n).map (·.cpf)) := by
  induction ns with
  | nil => exact .nil
  | cons n ns ih =>
      rcases entryFor_alike h n with ⟨hnone, hnone'⟩ | ⟨e, e', hsome, hsome', halike⟩
      · simpa only [List.filterMap_cons, hnone, hnone', Option.map_none] using ih
      · simpa only [List.filterMap_cons, hsome, hsome', Option.map_some] using
          List.Forall₂.cons halike.cpf ih

theorem checkComplete_eq {es es' : List CpfEntry} (h : List.Forall₂ CpfEntry.Alike es es')
    (blocks : Array FluentBlock) : checkComplete blocks es' = checkComplete blocks es := by
  have hnone : ∀ n, (entryFor es' n).isNone = (entryFor es n).isNone := by
    intro n
    rcases entryFor_alike h n with ⟨hnone, hnone'⟩ | ⟨e, e', hsome, hsome', _⟩
    · rw [hnone, hnone']
    · rw [hsome, hsome', Option.isNone_some, Option.isNone_some]
  simp only [checkComplete, hnone]

theorem matching_orderObservations {es es' : List CpfEntry}
    (h : List.Forall₂ CpfEntry.Alike es es') (blocks : Array FluentBlock) :
    Matching (List.Forall₂ Cpf.Alike) (orderObservations blocks es)
      (orderObservations blocks es') := by
  have hreads : readsOf es' = readsOf es := by
    funext n
    rcases entryFor_alike h n with ⟨hnone, hnone'⟩ | ⟨e, e', hsome, hsome', halike⟩
    · rw [readsOf, readsOf, hnone, hnone']
    · rw [readsOf, readsOf, hsome, hsome']
      exact halike.reads
  have horder : Dependency.order (readsOf es') (numbersOf blocks .observation) =
      Dependency.order (readsOf es) (numbersOf blocks .observation) := by
    rw [hreads]
  unfold orderObservations
  dsimp only
  split
  next order hok =>
    have hok' := horder.trans hok
    split
    next order' hother =>
      obtain rfl := Except.ok.inj (hok'.symm.trans hother)
      exact .ok (filterMap_entryFor_alike h order)
    next cycle' hother => cases hok'.symm.trans hother
  next cycle herror =>
    have herror' := horder.trans herror
    split
    next order' hother => cases herror'.symm.trans hother
    next cycle' hother =>
      obtain rfl := Except.error.inj (herror'.symm.trans hother)
      exact .error _

theorem matching_ofModel {α β : Type} {R : α → β → Prop} {x : Except ModelError α}
    {y : Except ModelError β} (h : Matching R x y) : Matching R (ofModel x) (ofModel y) := by
  cases h with
  | ok hab => exact .ok hab
  | error e => exact .error _

end Grounding

/-! ## Domains -/

namespace Domain.WrappedAs

variable {d d' : Domain}

theorem validate_eq (h : d.WrappedAs d') : d'.validate = d.validate := by
  have hcheck : d'.cpfs.forM checkCpf = d.cpfs.forM checkCpf := by
    refine forM_congr_of_forall₂ h.cpfs fun c c' hc => ?_
    rw [checkCpf, checkCpf, hc.fluent, hc.params, hc.expr.checkExpr_eq]
  have hnames : d'.cpfs.map (·.fluent) = d.cpfs.map (·.fluent) := by
    have hcpfs := h.cpfs
    generalize d.cpfs = cs, d'.cpfs = cs' at hcpfs
    induction hcpfs with
    | nil => rfl
    | cons hc _ ih => rw [List.map_cons, List.map_cons, hc.fluent, ih]
  rw [h.rest]
  simp only [validate, hcheck, hnames]

theorem checkInhabited_eq (h : d.WrappedAs d') (types : Array ObjectType) :
    checkInhabited d' types = checkInhabited d types := by
  have hbound : ∀ {cs cs' : List CpfDecl}, List.Forall₂ CpfDecl.WrappedAs cs cs' →
      (cs'.map (·.expr)).flatMap (fun e => e.parts.flatMap boundTypes) =
        (cs.map (·.expr)).flatMap fun e => e.parts.flatMap boundTypes := by
    intro cs cs' hcpfs
    induction hcpfs with
    | nil => rfl
    | cons hc _ ih =>
        simp only [List.map_cons, List.flatMap_cons]
        rw [hc.expr.flatMap_parts (fun _ => rfl) fun _ _ _ => rfl, ih]
  have hused : usedTypes d' = usedTypes d := by
    rw [h.rest]
    simp only [usedTypes, exprs, List.flatMap_append, hbound h.cpfs]
  rw [checkInhabited, checkInhabited, hused]

/-- Grounding a wrapped domain gives a model that differs at most in functions with
the same values and in the fingerprint, or fails with the same error. -/
theorem matching_ground (h : d.WrappedAs d') (i : Instance) :
    Matching (fun m m' => m.Interchangeable m') (Model.ground d i) (Model.ground d' i) := by
  have hname : d'.name = d.name := by rw [h.rest]
  have htypes : objectTypes d' i = objectTypes d i := by rw [h.rest]; rfl
  have hblocks : ∀ types, Grounding.blocks d' types = Grounding.blocks d types := by
    intro types
    rw [h.rest]
    rfl
  have hreward : d'.reward = d.reward := by rw [h.rest]
  have hconstraints : d'.constraints = d.constraints := by rw [h.rest]
  simp only [Model.ground, Model.groundBy, h.validate_eq, h.checkInhabited_eq, hname, htypes, hblocks, hreward,
    hconstraints]
  refine .bind_same _ fun _ => .bind_same _ fun _ => ?_
  by_cases hfits : i.domain = d.name
  · simp only [hfits, ne_eq, not_true_eq_false, if_false]
    refine .bind_same _ fun types => .bind_same _ fun blocks => .bind_same _ fun _ =>
      .bind_same _ fun nonFluents => .bind_same _ fun initialState => ?_
    have hcompiled : List.Forall₂ (fun c c' => Matching CpfEntry.Alike
        (compileCpf { types, blocks } c) (compileCpf { types, blocks } c')) d.cpfs d'.cpfs :=
      h.cpfs.imp fun c c' hc => matching_compileCpf hc _
    refine (matching_ofModel (Matching.mapM hcompiled)).bind fun entries entries' halike => ?_
    rw [checkComplete_eq halike]
    refine .bind_same _ fun _ => (matching_ofModel (matching_orderObservations halike blocks)).bind
      fun observations observations' hobservations => ?_
    refine .bind_same _ fun reward => .bind_same _ fun constraints => .bind_same _ fun _ =>
      .bind_same _ fun _ => .ok ?_
    exact Model.interchangeable_withFunctions (filterMap_entryFor_alike halike _) hobservations
      (fingerprint d' i)
  · simp only [hfits, ne_eq, not_false_eq_true, if_true]
    exact .error _

end Domain.WrappedAs

/-! ## Runs -/

namespace Model

/-- Engines over two models that are set up alike answer all calls in the same way
and look the same after each of them, down to the random stream and the slots, and
so do episodes. -/
def RunsAs (m m' : Model) : Prop :=
  ∀ c : EngineConfig,
    let look := fun e : Engine => (e.sight, e.scratch)
    let lookAt := fun e : Episode => (look e.engine, e.cumulativeReturn)
    Matching (fun e e' => look e' = look e ∧ ∀ calls : List Engine.Call,
      sightings Engine.call look e' calls = sightings Engine.call look e calls)
      (Engine.create m c) (Engine.create m' c) ∧
    Matching (fun e e' => lookAt e' = lookAt e ∧ ∀ calls : List Episode.Call,
      sightings Episode.call lookAt e' calls = sightings Episode.call lookAt e calls)
      (Episode.create m c) (Episode.create m' c)

theorem Interchangeable.runsAs {m m' : Model} (h : m.Interchangeable m') : m.RunsAs m' := by
  intro c look lookAt
  have hlook : ∀ e : Engine, e.model = m → look (e.withModel m') = look e :=
    fun e he => Prod.ext (Engine.sight_withModel (he.symm ▸ h)) rfl
  constructor
  · exact Engine.matching_create h hlook c
  · refine Episode.matching_create h (fun e he => ?_) c
    exact Prod.ext (hlook e.engine he) rfl

/-- At the root of a function and anywhere else, evaluation comes to the same value
or the same error, with the same draws, and leaves the same walk behind.  So point
masses around compiled expressions, and around branches of the conditionals at their
roots, change nothing, and neither does putting them around the functions of a
domain: it is grounded alike, and no run tells the difference. -/
theorem root_agrees_with_inline :
    (∀ (c : Context) (n : Node) (w : Walk),
      (n.distribution c >>= Eval.draw).run w = (n.value c).run w) ∧
    (∀ n n' : Node, n.WrappedAs n' → ∀ (c : Context) (w : Walk),
      (n'.value c).run w = (n.value c).run w ∧
        (n'.distribution c >>= Eval.draw).run w = (n.distribution c >>= Eval.draw).run w) ∧
    ∀ d d' : Domain, d.WrappedAs d' → ∀ i,
      Matching RunsAs (Model.ground d i) (Model.ground d' i) := by
  refine ⟨?_, ?_, ?_⟩
  · intro c n w
    rw [Node.distribution_bind_draw]
  · intro n n' hwrapped c w
    rw [Node.distribution_bind_draw, Node.distribution_bind_draw, hwrapped.sameValue c]
    exact ⟨rfl, rfl⟩
  · intro d d' hwrapped i
    exact (hwrapped.matching_ground i).mono fun m m' => Interchangeable.runsAs

/-- The lamps with point masses around all their functions. -/
theorem root_agrees_with_inline_lamps :
    let d' : Domain :=
      { Lamps.domain with
        cpfs := Lamps.domain.cpfs.map fun c => { c with expr := .kronDelta c.expr } }
    Lamps.domain.WrappedAs d' ∧
      ∃ m', Model.ground d' Lamps.house = .ok m' ∧ Lamps.model.RunsAs m' := by
  intro d'
  have hwrapped : Lamps.domain.WrappedAs d' := by
    refine ⟨?_, rfl⟩
    rw [List.forall₂_map_right_iff, List.forall₂_same]
    exact fun c _ => ⟨rfl, rfl, .point (.same c.expr)⟩
  exact ⟨hwrapped, (root_agrees_with_inline.2.2 _ d' hwrapped Lamps.house).exists_ok
    Lamps.ground_eq⟩

end Model
end LiftedPomdp
