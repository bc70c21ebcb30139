import LiftedPomdp.Proofs.Eval.Bindings
import LiftedPomdp.Proofs.Ground.Functions

/-!
# Compiled expressions mean what their sources mean

Evaluation on slots, ordinals and places is run in parallel with the meaning of
the source expression on names.  As long as the leading slots hold the ordinals
of the objects that the environment names, both take the same draws and end
with the same value or the same error.
-/

namespace LiftedPomdp

open Effects Grounding FluentBlock

/-! ## Runs in parallel -/

/-- A walk whose leading slots hold some ordinals has come to a sampler. -/
def At (ordinals : List Nat) (limit : Nat) (w : Walk) (s : Sampler) : Prop :=
  Stands ordinals limit w ∧ w.sampler = s

/-- An evaluation and a meaning have the same result and come to the same
sampler, and the evaluation keeps the leading slots where it succeeds. -/
abbrev Refines {α : Type} (ordinals : List Nat) (limit : Nat) (x : Eval α) (y : Meaning α) :
    Prop :=
  Parallel (At ordinals limit) x y (At ordinals limit) fun w s => w.sampler = s

namespace Refines

variable {α β : Type} {ordinals : List Nat} {limit : Nat}

theorem value (a : α) : Refines ordinals limit (pure a) (pure a) :=
  Parallel.value a fun _ _ hat => hat

theorem error (e : Fault DomainError) :
    Refines ordinals limit (throw e : Eval α) (throw e : Meaning α) :=
  Parallel.error e fun _ _ hat => hat.2

theorem bind {x : Eval α} {y : Meaning α} {f : α → Eval β} {g : α → Meaning β}
    (hxy : Refines ordinals limit x y) (hfg : ∀ a, Refines ordinals limit (f a) (g a)) :
    Refines ordinals limit (x >>= f) (y >>= g) :=
  Parallel.bind hxy hfg

/-- Evaluations that change nothing refine a meaning that changes nothing. -/
theorem of_run {x : Eval α} {y : Meaning α}
    (h : ∀ w, Stands ordinals limit w → ∃ r : Except (Fault DomainError) α,
      x.run w = (r, w) ∧ y.run w.sampler = (r, w.sampler)) : Refines ordinals limit x y := by
  rintro w _ ⟨hstands, rfl⟩
  obtain ⟨r, hx, hy⟩ := h w hstands
  refine ⟨r, w, w.sampler, hx, hy, ?_⟩
  cases r with
  | error e => exact rfl
  | ok a => exact ⟨hstands, rfl⟩

theorem draw (d : Distribution) : Refines ordinals limit (Eval.draw d) (Meaning.draw d) := by
  rintro w _ ⟨hstands, rfl⟩
  refine ⟨_, _, _, Eval.run_draw d w, Meaning.run_draw d w.sampler, ?_⟩
  cases (w.sampler.sample d).1 with
  | error e => exact rfl
  | ok v => exact ⟨⟨hstands.leading, hstands.room⟩, rfl⟩

section

variable {c : Context} {w : World} (hlabel : c.label = w.label)

include hlabel

theorem truth {x : Eval Value} {y : Meaning Value} (h : Refines ordinals limit x y) :
    Refines ordinals limit (c.truth x) (w.truth y) := by
  refine h.bind fun v => ?_
  cases v.truth? with
  | some b => exact value b
  | none =>
      rw [hlabel]
      exact error _

theorem coin (p : Float) :
    Refines ordinals limit (c.coin p) (Meaning.checked (Distribution.coin w.label p)) := by
  unfold Context.coin
  rw [hlabel]
  cases Distribution.coin w.label p with
  | ok d => exact value d
  | error e => exact error _

theorem interval (low high : Float) :
    Refines ordinals limit (c.interval low high)
      (Meaning.checked (Distribution.interval w.label low high)) := by
  unfold Context.interval
  rw [hlabel]
  cases Distribution.interval w.label low high with
  | ok d => exact value d
  | error e => exact error _

theorem arith (op : ArithOp) (v v' : Value) :
    Refines ordinals limit (c.arith op v v') (w.arith op v v') := by
  unfold Context.arith World.arith
  cases Value.arith? op v v' with
  | some r => exact value r
  | none =>
      rw [hlabel]
      exact error _

end

theorem real {c : Context} {w : World} {x : Eval Value} {y : Meaning Value}
    (h : Refines ordinals limit x y) : Refines ordinals limit (c.real x) (w.real y) :=
  h.bind fun v => value v.toReal

end Refines

/-! ## Terms -/

section Terms

variable {m : Model} {bound : List Binding} {ordinals : List Nat} {env : Environment}
  {limit : Nat} {w : Walk}

theorem run_object (henv : Denotes m.types bound ordinals env) (hw : Stands ordinals limit w)
    {type : Nat} {t : Term} {a : Arg} (harg : ArgFor m.scope bound type t a) (s : Sampler) :
    ∃ k decl o, m.types[type]? = some decl ∧ decl.objects[k]? = some o ∧
      (Eval.ordinal a).run w = (.ok k, w) ∧ (Meaning.object env t).run s = (.ok o, s) := by
  cases harg with
  | var hfind =>
      obtain ⟨k, decl, o, hslot, hdecl, ho, hlookup⟩ := henv.lookup hfind
      refine ⟨k, decl, o, hdecl, ho, hw.run_slot hslot, ?_⟩
      rw [Meaning.object, hlookup]
      rfl
  | @object o k hordinal =>
      obtain ⟨decl, hdecl, hk⟩ := Option.bind_eq_some_iff.mp hordinal
      exact ⟨k, decl, o, hdecl, ObjectType.getElem?_of_ordinal? hk, rfl, rfl⟩

/-- The arguments of a fluent are evaluated to the distance of the tuple of
objects that they denote. -/
theorem run_arguments (apart : NamedApart m.types) (henv : Denotes m.types bound ordinals env)
    (hw : Stands ordinals limit w) {types : List Nat} {terms : List Term} {args : List Arg}
    (hargs : ArgsFor m.scope bound types terms args) (s : Sampler) :
    ∃ ks names, m.ordinals? types names = some ks ∧
      (Eval.offset args (rowStrides (types.map (typeSize m.types)))).run w =
        (.ok (distance ks (types.map (typeSize m.types))), w) ∧
      (Meaning.objects env terms).run s = (.ok names, s) := by
  induction hargs with
  | nil => exact ⟨[], [], rfl, rfl, rfl⟩
  | @cons type types t ts a as head _ ih =>
      obtain ⟨k, decl, o, hdecl, ho, hk, hname⟩ := run_object henv hw head s
      obtain ⟨ks, names, hordinals, hoffset, hnames⟩ := ih
      refine ⟨k :: ks, o :: names, ?_, ?_, ?_⟩
      · exact Model.ordinals?_cons_eq_some_iff.mpr
          ⟨decl, k, ks, hdecl, ObjectType.ordinal?_of_getElem? (apart.objects_nodup hdecl) ho,
            hordinals, rfl⟩
      · rw [List.map_cons, rowStrides, Eval.offset, run_bind_of_ok hk, run_bind_of_ok hoffset]
        rfl
      · rw [Meaning.objects, run_bind_of_ok hname, run_bind_of_ok hnames]
        rfl

theorem Scope.objectAmong?_eq_some {o : String} {first type k : Nat} {ts : List ObjectType}
    (h : Scope.objectAmong? o first ts = some (type, k)) :
    ∃ n t, type = first + n ∧ ts[n]? = some t ∧ t.ordinal? o = some k := by
  induction ts generalizing first with
  | nil => cases h
  | cons t ts ih =>
      unfold Scope.objectAmong? at h
      split at h
      next hordinal =>
        cases h
        exact ⟨0, t, rfl, rfl, hordinal⟩
      · obtain ⟨n, u, htype, hu, hordinal⟩ := ih h
        exact ⟨n + 1, u, by omega, by simpa using hu, hordinal⟩

/-- An object that is compared is an argument of its own type. -/
theorem ObjectFor.argFor {t : Term} {ref : ObjectRef} (h : ObjectFor m.scope bound t ref) :
    ArgFor m.scope bound ref.type t ref.arg := by
  cases h with
  | var hfind => exact .var hfind
  | @object o type k hobject =>
      obtain ⟨n, decl, htype, hdecl, hk⟩ := Scope.objectAmong?_eq_some hobject
      have htypes : m.types[type]? = some decl := by
        rw [htype, Nat.zero_add, ← Array.getElem?_toList]
        exact hdecl
      exact .object (Option.bind_eq_some_iff.mpr ⟨decl, htypes, hk⟩)

/-- Two objects are the same where their types and their ordinals are. -/
theorem run_sameObject (apart : NamedApart m.types) (henv : Denotes m.types bound ordinals env)
    (hw : Stands ordinals limit w) {l r : Term} {lhs rhs : ObjectRef}
    (hl : ObjectFor m.scope bound l lhs) (hr : ObjectFor m.scope bound r rhs) (s : Sampler) :
    ∃ o o', (Meaning.object env l).run s = (.ok o, s) ∧
      (Meaning.object env r).run s = (.ok o', s) ∧
      (Eval.sameObject lhs rhs).run w = (.ok (o == o'), w) := by
  obtain ⟨k, decl, o, hdecl, ho, hk, hname⟩ := run_object henv hw hl.argFor s
  obtain ⟨k', decl', o', hdecl', ho', hk', hname'⟩ := run_object henv hw hr.argFor s
  refine ⟨o, o', hname, hname', ?_⟩
  unfold Eval.sameObject
  by_cases htype : lhs.type = rhs.type
  · rw [htype, hdecl', Option.some.injEq] at hdecl
    subst hdecl
    have hiff : (k == k') = (o == o') := by
      rw [Bool.eq_iff_iff, beq_iff_eq, beq_iff_eq]
      constructor
      · rintro rfl
        exact Option.some.inj (ho.symm.trans ho')
      · rintro rfl
        have hlt := (List.getElem?_eq_some_iff.mp ho).1
        exact (List.getElem?_inj hlt (apart.objects_nodup hdecl')).mp (ho.trans ho'.symm)
    rw [if_pos htype, run_bind_of_ok hk, run_bind_of_ok hk', hiff]
    rfl
  · have hne : (o == o') = false := by
      rw [beq_eq_false_iff_ne]
      rintro rfl
      exact htype (apart.type_unique hdecl hdecl' (List.mem_of_getElem? ho)
        (List.mem_of_getElem? ho'))
    rw [if_neg htype, hne]
    rfl

end Terms

/-! ## Fluents -/

/-- Tables that have an entry for each ground fluent, apart from observations. -/
structure Snapshot.Fits (m : Model) (s : Snapshot) : Prop where
  nonFluents : s.nonFluents.size = m.groundCount .nonFluent
  state : s.state.size = m.groundCount .state
  nextState : s.nextState.size = m.groundCount .state
  action : s.action.size = m.groundCount .action

/-- The tables that an expression may read fit a model; only the functions of
observations read observations. -/
structure Snapshot.FitsSite (m : Model) (s : Snapshot) (site : Site) : Prop
    extends Snapshot.Fits m s where
  observations : ∀ target, site = .observationCpf target →
    s.observations.size = m.groundCount .observation

theorem Snapshot.FitsSite.size_eq {m : Model} {s : Snapshot} {site : Site}
    (h : s.FitsSite m site) {fluent : Nat} {kind : FluentKind} {next : Bool} {layer : Layer}
    (hread : ReadAt site fluent kind next layer) :
    (s.table kind layer).size = m.groundCount kind ∧
      s.table kind layer = Model.readTable s kind next := by
  cases hread with
  | nonFluent => exact ⟨h.nonFluents, rfl⟩
  | action => exact ⟨h.action, rfl⟩
  | state => exact ⟨h.state, rfl⟩
  | nextState _ => exact ⟨h.nextState, rfl⟩
  | observation hsite _ => exact ⟨h.observations _ hsite, rfl⟩

section Fluents

variable {d : Domain} {i : Instance} {m : Model} {c : Compiler} {s : Snapshot} {label : String}
  {bound : List Binding} {ordinals : List Nat} {env : Environment} {limit : Nat}

/-- A read comes to the entry at a place of the block of its fluent. -/
theorem run_read (h : Grounded d i m) (hfits : s.FitsSite m c.site)
    (henv : Denotes m.types bound ordinals env) {w : Walk} (hw : Stands ordinals limit w)
    {terms : List Term} {args : List Arg} {next : Bool} {fluent : Nat} {b : FluentBlock}
    {layer : Layer} (hb : m.blocks[fluent]? = some b)
    (hread : ReadAt c.site fluent b.kind next layer)
    (hargs : ArgsFor m.scope bound b.params terms args) (label : String) (sampler : Sampler) :
    ∃ ks names v, m.ordinals? b.params names = some ks ∧
      (Eval.offset args b.strides).run w = (.ok (distance ks (m.sizesOf b)), w) ∧
      (Meaning.objects env terms).run sampler = (.ok names, sampler) ∧
      (s.table b.kind layer)[b.offset + distance ks (m.sizesOf b)]? = some v ∧
      ((m.context s label).read fluent b.kind layer args).run w = (.ok v, w) := by
  have hblock : b ∈ m.blocks := Array.mem_of_getElem? hb
  obtain ⟨ks, names, hordinals, hoffset, hnames⟩ := run_arguments h.namedApart henv hw hargs sampler
  obtain ⟨_, _, _, hplaced⟩ := h.exists_placed hblock
  have hlt := h.distance_lt_size hblock hordinals
  have hplace := (List.getElem?_eq_some_iff.mp
    (h.getElem?_groundFluents (Grounded.mem_blocksOf.mpr ⟨hblock, rfl⟩) hlt)).1
  rw [Grounded.length_groundFluents, ← (hfits.size_eq hread).1] at hplace
  have hcount : b.offset + distance ks (m.sizesOf b) < Memory.wordCount := by
    have hend := hplaced.endFits
    omega
  have hblocks : (m.context s label).blocks[fluent]? = some b := hb
  rw [← hplaced.strides] at hoffset
  refine ⟨ks, names, _, hordinals, hoffset, hnames, Array.getElem?_eq_getElem hplace, ?_⟩
  unfold Context.read
  rw [hblocks]
  dsimp only
  rw [run_bind_of_ok hoffset, checkCount_eq_ok_iff.mpr hcount]
  change (Except.ok ((s.table b.kind layer)[_]?.getD b.default), w) = _
  rw [Array.getElem?_eq_getElem hplace, Option.getD_some]

/-- The value at the place of a fluent is the value under its key. -/
theorem refines_read (h : Grounded d i m) (hscope : c.scope = m.scope)
    (hfits : s.FitsSite m c.site) (henv : Denotes m.types bound ordinals env) {name : String}
    {terms : List Term} {args : List Arg} {next : Bool} {fluent : Nat} {b : FluentBlock}
    {layer : Layer} (hfluent : c.scope.fluent? name = some fluent)
    (hb : c.scope.blocks[fluent]? = some b) (hread : ReadAt c.site fluent b.kind next layer)
    (hargs : ArgsFor c.scope bound b.params terms args) :
    Refines ordinals limit ((m.context s label).read fluent b.kind layer args)
      ((m.world s label).read env name terms next) := by
  rw [hscope] at hfluent hb hargs
  have hname : b.name = name := by
    obtain ⟨b', hb', hname⟩ := (findIdx?_key_eq_some_iff h.blocks_nodup).mp hfluent
    obtain rfl := Option.some.inj (hb.symm.trans hb')
    exact hname
  apply Refines.of_run
  intro w hw
  obtain ⟨ks, names, v, hordinals, _, hnames, hv, hvalue⟩ :=
    run_read h hfits henv hw hb hread hargs label w.sampler
  have hlocate : m.locate? name names =
      some (b.kind, b.offset + distance ks (m.sizesOf b)) :=
    h.locate?_eq_some_iff.mpr ⟨b, Grounded.mem_blocksOf.mpr ⟨Array.mem_of_getElem? hb, rfl⟩, hname,
      ks, hordinals, rfl⟩
  refine ⟨.ok v, hvalue, ?_⟩
  obtain ⟨b', hb', hkind⟩ := h.locate?_kind hlocate
  have hworld : (m.world s label).value? next { name, args := names } = some v := by
    simp only [Model.world, hb', hkind, ← (hfits.size_eq hread).2, h.get?_describe hlocate, hv]
  unfold World.read
  rw [run_bind_of_ok hnames, hworld]
  rfl

/-! ## Aggregates -/

/-- A step for each ordinal refines a step for each object, where one step
does. -/
theorem refines_overOrdinals {α : Type} {t : ObjectType} {step : α → Eval (ForInStep α)}
    {step' : String → α → Meaning (ForInStep α)} (hroom : ordinals.length < limit)
    (hstep : ∀ k o, t.objects[k]? = some o → ∀ a,
      Refines (k :: ordinals) limit (step a) (step' o a))
    {ks : List Nat} {names : List String}
    (hks : List.Forall₂ (fun k o => t.objects[k]? = some o) ks names) (a : α) :
    Refines ordinals limit (Eval.overOrdinals ordinals.length step ks a)
      (Meaning.overObjects step' names a) := by
  induction hks generalizing a with
  | nil => exact Refines.value _
  | @cons k o ks names hk _ ih =>
      have htail : ∀ (w : Walk) (s : Sampler), At (k :: ordinals) limit w s →
          At ordinals limit w s := fun w s hat => ⟨hat.1.tail, hat.2⟩
      intro w s hat
      obtain ⟨w', hset, hstands', hsampler'⟩ := hat.1.run_setSlot hroom k
      have hat' : At (k :: ordinals) limit w' s := ⟨hstands', hsampler'.trans hat.2⟩
      rw [Eval.overOrdinals, Meaning.overObjects, run_bind_of_ok hset]
      refine Parallel.bind (hstep k o hk a) (fun r => ?_) w' s hat'
      cases r with
      | done a => exact Parallel.value _ htail
      | yield a => exact (ih a).mono htail (fun _ _ hat => hat) fun _ _ hsampler => hsampler

theorem forall₂_range_objects (t : ObjectType) :
    List.Forall₂ (fun k o => t.objects[k]? = some o) (List.range t.size) t.objects := by
  refine List.forall₂_iff_get.mpr ⟨List.length_range, fun k hk hk' => ?_⟩
  rw [List.get_eq_getElem, List.get_eq_getElem, List.getElem_range]
  exact List.getElem?_eq_getElem hk'

/-- The bindings of the binders are run through in the order of the objects
that the variables range over. -/
theorem refines_overBindings (h : Grounded d i m) {α : Type}
    {step : α → Eval (ForInStep α)} {step' : Environment → α → Meaning (ForInStep α)}
    {bound' : List Binding} {vars : List TypedVar} {binders : List Binder}
    (hbinds : Binds m.scope bound vars binders bound') (hlimit : bound'.length ≤ limit)
    (hstep : ∀ ordinals' env', Denotes m.types bound' ordinals' env' → ∀ a,
      Refines ordinals' limit (step a) (step' env' a))
    (henv : Denotes m.types bound ordinals env) (a : α) :
    Refines ordinals limit ((m.context s label).overBindings step binders a)
      ((m.world s label).overBindings step' vars env a) := by
  induction hbinds generalizing ordinals env a with
  | nil => exact hstep ordinals env henv a
  | @cons bound bound' v vs type binders htype htail ih =>
      obtain ⟨t, ht, hname⟩ := (findIdx?_key_eq_some_iff h.namedApart.typeNames).mp htype
      have hfind : m.type? v.typeName = some t :=
        (find?_key_eq_some_iff h.namedApart.typeNames).mpr ⟨Array.mem_of_getElem? ht, hname⟩
      have htypes : (m.context s label).types[type]? = some t := ht
      have hobjects : (m.world s label).objects? v.typeName = some t.objects := by
        simp only [Model.world, hfind, Option.map_some]
      have hroom : ordinals.length < limit := by
        have hlen := htail.length_eq
        rw [List.length_cons] at hlen
        rw [henv.length_eq]
        omega
      simp only [Context.overBindings, World.overBindings, htypes, hobjects, ← henv.length_eq]
      refine refines_overOrdinals hroom (fun k o hk a => ?_) (forall₂_range_objects t) a
      exact ih hlimit hstep (henv.cons ht hk) a

theorem refines_combine {c : Context} {w : World} (hlabel : c.label = w.label)
    {body : Eval Value} {body' : Environment → Meaning Value}
    (hbody : Refines ordinals limit body (body' env)) (op : AggregateOp) (acc : Value) :
    Refines ordinals limit (c.combine body op acc) (w.combine body' op env acc) := by
  cases op with
  | «exists» =>
      refine (Refines.truth hlabel hbody).bind fun b => ?_
      cases b with
      | true => exact Refines.value _
      | false => exact Refines.value _
  | «forall» =>
      refine (Refines.truth hlabel hbody).bind fun b => ?_
      cases b with
      | true => exact Refines.value _
      | false => exact Refines.value _
  | sum =>
      exact hbody.bind fun v => (Refines.arith hlabel .add acc v).bind fun v => Refines.value _
  | prod =>
      exact hbody.bind fun v => (Refines.arith hlabel .mul acc v).bind fun v => Refines.value _

/-! ## Expressions -/

theorem refines_allTrue {c : Context} {w : World} (hlabel : c.label = w.label) {es : List Expr}
    {ns : List Node} (hlen : es.length = ns.length)
    (hargs : ∀ p ∈ es.zip ns, Refines ordinals limit (p.2.value c) (p.1.meaning w env)) :
    Refines ordinals limit (Node.allTrue c ns) (Expr.allMean w env es) := by
  induction es generalizing ns with
  | nil =>
      obtain rfl := List.length_eq_zero_iff.mp hlen.symm
      exact Refines.value true
  | cons e es ih =>
      cases ns with
      | nil => simp at hlen
      | cons n ns =>
          rw [List.zip_cons_cons, List.forall_mem_cons] at hargs
          refine (Refines.truth hlabel hargs.1).bind fun b => ?_
          cases b with
          | true => exact ih (by simpa using hlen) hargs.2
          | false => exact Refines.value false

theorem refines_someTrue {c : Context} {w : World} (hlabel : c.label = w.label) {es : List Expr}
    {ns : List Node} (hlen : es.length = ns.length)
    (hargs : ∀ p ∈ es.zip ns, Refines ordinals limit (p.2.value c) (p.1.meaning w env)) :
    Refines ordinals limit (Node.someTrue c ns) (Expr.someMeans w env es) := by
  induction es generalizing ns with
  | nil =>
      obtain rfl := List.length_eq_zero_iff.mp hlen.symm
      exact Refines.value false
  | cons e es ih =>
      cases ns with
      | nil => simp at hlen
      | cons n ns =>
          rw [List.zip_cons_cons, List.forall_mem_cons] at hargs
          refine (Refines.truth hlabel hargs.1).bind fun b => ?_
          cases b with
          | true => exact Refines.value true
          | false => exact ih (by simpa using hlen) hargs.2

/-- A compiled expression refines its source wherever the leading slots hold
the ordinals of the objects that its variables stand for. -/
theorem Lowers.refines (h : Grounded d i m) (hscope : c.scope = m.scope)
    (hfits : s.FitsSite m c.site) {e : Expr} {n : Node} (hlowers : Lowers c limit bound e n)
    (henv : Denotes m.types bound ordinals env) :
    Refines ordinals limit (n.value (m.context s label)) (e.meaning (m.world s label) env) := by
  have hlabel : (m.context s label).label = (m.world s label).label := rfl
  induction hlowers generalizing ordinals env with
  | const v => exact Refines.value v
  | read fluent_eq block readable arguments =>
      exact refines_read h hscope hfits henv fluent_eq block readable arguments
  | @same bound l r lhs rhs left right =>
      rw [hscope] at left right
      apply Refines.of_run
      intro w hw
      obtain ⟨o, o', hl, hr, hsame⟩ := run_sameObject h.namedApart henv hw left right w.sampler
      refine ⟨.ok (.bool (o == o')), ?_, ?_⟩
      · rw [Node.value, run_bind_of_ok hsame, Bool.bne_false]
        rfl
      · rw [Expr.meaning, World.compareObjects, run_bind_of_ok hl, run_bind_of_ok hr]
        rfl
  | @differ bound l r lhs rhs left right =>
      rw [hscope] at left right
      apply Refines.of_run
      intro w hw
      obtain ⟨o, o', hl, hr, hsame⟩ := run_sameObject h.namedApart henv hw left right w.sampler
      refine ⟨.ok (.bool (o != o')), ?_, ?_⟩
      · rw [Node.value, run_bind_of_ok hsame, Bool.bne_true]
        rfl
      · rw [Expr.meaning, World.compareObjects, run_bind_of_ok hl, run_bind_of_ok hr]
        rfl
  | not _ ih =>
      rw [Node.value, Expr.meaning]
      exact (Refines.truth hlabel (ih henv)).bind fun b => Refines.value _
  | and length _ ih =>
      have hall := refines_allTrue hlabel length fun p hp => ih p hp henv
      rw [Node.value, Expr.meaning]
      exact hall.bind fun b => Refines.value _
  | or length _ ih =>
      have hsome := refines_someTrue hlabel length fun p hp => ih p hp henv
      rw [Node.value, Expr.meaning]
      exact hsome.bind fun b => Refines.value _
  | implies _ _ ihl ihr =>
      have hl := Refines.truth hlabel (ihl henv)
      have hr := Refines.truth hlabel (ihr henv)
      rw [Node.value, Expr.meaning]
      refine hl.bind fun b => ?_
      cases b with
      | true => exact hr.bind fun b => Refines.value _
      | false => exact Refines.value _
  | equiv _ _ ihl ihr =>
      have hl := Refines.truth hlabel (ihl henv)
      have hr := Refines.truth hlabel (ihr henv)
      rw [Node.value, Expr.meaning]
      exact hl.bind fun b => hr.bind fun b' => Refines.value _
  | compare left _ ihl ihr =>
      have hl := ihl henv
      have hr := ihr henv
      rw [Node.value, Expr.meaning]
      · exact hl.bind fun v => hr.bind fun v' => Refines.value _
      · rintro t u rfl _
        exact Lowers.not_term left
  | arith _ _ ihl ihr =>
      have hl := ihl henv
      have hr := ihr henv
      rw [Node.value, Expr.meaning]
      exact hl.bind fun v => hr.bind fun v' => Refines.arith hlabel _ v v'
  | neg _ ih =>
      rw [Node.value, Expr.meaning]
      exact (ih henv).bind fun v => Refines.value _
  | ite _ _ _ ihc iht ihe =>
      rw [Node.value, Expr.meaning]
      refine (Refines.truth hlabel (ihc henv)).bind fun b => ?_
      cases b with
      | true => exact iht henv
      | false => exact ihe henv
  | aggregate _ binds within _ ih =>
      rw [hscope] at binds
      rw [Node.value, Expr.meaning]
      refine Refines.bind (refines_overBindings h binds within (fun ks env' henv' acc =>
        refines_combine hlabel (ih henv') _ acc) henv _) fun r => ?_
      cases r with
      | done v => exact Refines.value v
      | yield v => exact Refines.value v
  | kronDelta _ ih =>
      rw [Node.value, Expr.meaning]
      exact (ih henv).bind fun v => Refines.draw _
  | diracDelta _ ih =>
      rw [Node.value, Expr.meaning]
      exact (Refines.real (ih henv)).bind fun x => Refines.draw _
  | bernoulli _ ih =>
      have harg := ih henv
      rw [Node.value, Expr.meaning]
      exact (Refines.real harg).bind fun p => (Refines.coin hlabel p).bind fun d => Refines.draw d
  | uniform _ _ ihl ihh =>
      have hlow := ihl henv
      have hhigh := ihh henv
      rw [Node.value, Expr.meaning]
      exact (Refines.real hlow).bind fun low => (Refines.real hhigh).bind fun high =>
        (Refines.interval hlabel low high).bind fun d => Refines.draw d

end Fluents

/-! ## Models -/

theorem Denotes.params {m : Model} {types : List Nat} {names args : List String}
    {ks : List Nat} (hlen : names.length = types.length)
    (hordinals : m.ordinals? types args = some ks) {bound : List Binding} {ordinals : List Nat}
    {env : Environment} (henv : Denotes m.types bound ordinals env) :
    Denotes m.types ((List.zipWith Binding.mk names types).reverse ++ bound)
      (ks.reverse ++ ordinals) ((names.zip args).reverse ++ env) := by
  induction types generalizing names args ks bound ordinals env with
  | nil =>
      obtain rfl := List.length_eq_zero_iff.mp hlen
      cases args with
      | nil =>
          cases hordinals
          exact henv
      | cons o args => cases hordinals
  | cons type types ih =>
      cases names with
      | nil => simp at hlen
      | cons v names =>
          cases args with
          | nil => cases hordinals
          | cons o args =>
              obtain ⟨t, k, rest, ht, hk, hrest, rfl⟩ :=
                Model.ordinals?_cons_eq_some_iff.mp hordinals
              rw [List.zipWith_cons_cons, List.zip_cons_cons, List.reverse_cons,
                List.reverse_cons, List.reverse_cons, List.append_assoc, List.append_assoc,
                List.append_assoc]
              exact ih (by simpa using hlen) hrest
                (henv.cons ht (ObjectType.getElem?_of_ordinal? hk))

namespace Model

variable {d : Domain} {i : Instance} {m : Model}

/-- A compiled expression has the value that its source means under an
environment, and draws the same values, on all tables that fit, whatever the
slots hold after the given ordinals.  Only where `observing` holds need there
be observations. -/
def Implements (m : Model) (observing : Prop) (body : Compiled) (e : Expr)
    (ordinals : List Nat) (env : Environment) : Prop :=
  ∀ (s : Snapshot) (w : Walk), s.Fits m →
    (observing → s.observations.size = m.groundCount .observation) →
      ordinals <+: w.slots.toList → body.slots ≤ w.slots.size →
        ∃ r w', (m.value s body).run w = (r, w') ∧
          (e.meaning (m.world s body.label) env).run w.sampler = (r, w'.sampler)

theorem implements_of_compile (h : Grounded d i m) {site : Site} {label : String}
    {params : List Binding} {e : Expr} {body : Compiled} {reads : List Nat}
    (hcompile : Compiler.compile { scope := m.scope, site, label } params e = .ok (body, reads))
    {observing : Prop} (hsite : ∀ target, site = .observationCpf target → observing)
    {ordinals : List Nat} {env : Environment}
    (henv : Denotes m.types params.reverse ordinals.reverse env) :
    m.Implements observing body e ordinals env := by
  intro s w hfits hobservations hleading hroom
  have hlowers := (Compiler.compile_spec hcompile).2 body.slots (Nat.le_refl _)
  have hfits' : s.FitsSite m site :=
    { hfits with observations := fun target htarget => hobservations (hsite target htarget) }
  have hstands : Stands ordinals.reverse body.slots w :=
    ⟨by rwa [List.reverse_reverse], hroom⟩
  have hrefines : Refines ordinals.reverse body.slots (m.value s body)
      (e.meaning (m.world s body.label) env) := hlowers.refines h rfl hfits' henv
  obtain ⟨r, w', s', hvalue, hmeaning, hend⟩ := hrefines w w.sampler ⟨hstands, rfl⟩
  refine ⟨r, w', hvalue, ?_⟩
  cases r with
  | error e => rw [hmeaning, hend]
  | ok v => rw [hmeaning, hend.2]

/-- Compilation keeps the meaning of every expression of a domain: of each
conditional probability function under every assignment of objects to its
parameters, of the reward, and of the constraints. -/
theorem compiled_implements (h : Model.ground d i = .ok m) :
    (∀ c ∈ d.cpfs, ∃ cpf ∈ m.stateCpfs ++ m.observationCpfs, ∃ b,
      m.blocks[cpf.target]? = some b ∧ b.name = c.fluent ∧
        c.params.length = b.params.length ∧
          ∀ args ordinals, m.ordinals? b.params args = some ordinals →
            m.Implements (b.kind = .observation) cpf.body c.expr ordinals
              (c.params.zip args).reverse) ∧
      m.Implements False m.reward d.reward [] [] ∧
      List.Forall₂ (fun e body => m.Implements False body e [] []) d.constraints
        m.constraints := by
  have hg := grounded_of_ground h
  refine ⟨?_, ?_, ?_⟩
  · intro c hc
    obtain ⟨e, b, hcompiled, hmem⟩ := hg.exists_cpf hc
    obtain ⟨site, hsite, label, hbody⟩ := hcompiled.body
    refine ⟨e.cpf, hmem, b, hcompiled.block, hcompiled.name, hcompiled.arity, ?_⟩
    intro args ordinals hordinals
    apply implements_of_compile hg hbody
    · intro target htarget
      rcases hsite with ⟨_, rfl⟩ | ⟨hkind, _⟩
      · cases htarget
      · exact hkind
    · have henv := Denotes.params hcompiled.arity hordinals (Denotes.nil : Denotes m.types [] [] [])
      rwa [List.append_nil, List.append_nil, List.append_nil] at henv
  · obtain ⟨reads, hreward⟩ := hg.reward
    exact implements_of_compile hg hreward (fun target htarget => by cases htarget) .nil
  · refine (compileConstraints_eq_ok hg.constraints).imp ?_
    rintro e body ⟨label, reads, hbody⟩
    exact implements_of_compile hg hbody (fun target htarget => by cases htarget) .nil

/-- The function of the third declaration for the second lamp, and the reward
on the tables that the lamps start with. -/
theorem compiled_implements_lamps :
    let m := Lamps.model
    let s := Snapshot.current m.nonFluents m.initialState m.defaultAction
    let w : Walk := { slots := #[0], sampler := Sampler.ofSeed 7 }
    (∃ cpf ∈ m.stateCpfs ++ m.observationCpfs, ∃ b, m.blocks[cpf.target]? = some b ∧
      m.ordinals? b.params ["l1"] = some [1] ∧
        m.Implements (b.kind = .observation) cpf.body Lamps.domain.cpfs[2].expr [1]
          [("l", "l1")]) ∧
      s.Fits m ∧ m.reward.slots ≤ w.slots.size ∧
        ∃ r w', (m.value s m.reward).run w = (r, w') ∧
          (Lamps.domain.reward.meaning (m.world s m.reward.label) []).run w.sampler =
            (r, w'.sampler) := by
  intro m s w
  obtain ⟨hcpfs, hreward, _⟩ := compiled_implements Lamps.ground_eq
  have hfits : s.Fits m :=
    ⟨by decide +kernel, by decide +kernel, by decide +kernel, by decide +kernel⟩
  have hslots : m.reward.slots ≤ w.slots.size := by decide +kernel
  refine ⟨?_, hfits, hslots, hreward s w hfits False.elim List.nil_prefix hslots⟩
  obtain ⟨cpf, hcpf, b, hb, hname, _, himplements⟩ :=
    hcpfs Lamps.domain.cpfs[2] (List.getElem_mem _)
  have hparams : (m.block? "lit").map (·.params) = some [0] := by decide +kernel
  have hblock : m.block? "lit" = some b :=
    Lamps.grounded.block?_eq_some_iff.mpr ⟨Array.mem_of_getElem? hb, hname⟩
  rw [hblock, Option.map_some, Option.some.injEq] at hparams
  have hordinals : m.ordinals? b.params ["l1"] = some [1] := by
    rw [hparams]
    decide +kernel
  exact ⟨cpf, hcpf, b, hb, hordinals, himplements ["l1"] [1] hordinals⟩

end Model
end LiftedPomdp
