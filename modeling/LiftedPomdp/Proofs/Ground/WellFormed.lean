import LiftedPomdp.Ground.WellFormed
import LiftedPomdp.Proofs.Ground.Grounded
import LiftedPomdp.Proofs.Ground.Lowering

/-!
# Compilation accepts the well-formed expressions

Against the scope that a valid domain and a valid instance give rise to, an expression can be
compiled exactly if it is well-formed.  A number stands for the type or the fluent of its name, and
the stack of variables in scope for their names and types; with this, what an expression was
compiled to tells that each of its places is proper, and where each place is proper no part of the
compilation fails.
-/

namespace LiftedPomdp

open Effects Grounding

/-! ## Names and numbers -/

namespace Scope

/-- The name of a fluent. -/
def fluentName (s : Scope) (fluent : Nat) : String :=
  match s.blocks[fluent]? with
  | some b => b.name
  | none => ""

/-- The name of the observation whose function an expression is. -/
def observer? (s : Scope) : Site → Option String
  | .observationCpf target => some (s.fluentName target)
  | .stateCpf _ | .reward | .constraint => none

/-- The names of some variables in scope and of their types. -/
def typing (s : Scope) (bound : List Binding) : Typing :=
  bound.map fun b => (b.name, s.typeName b.type)

theorem exists_of_isSome_observer? {s : Scope} {site : Site}
    (h : (s.observer? site).isSome = true) : ∃ target, site = .observationCpf target := by
  cases site with
  | observationCpf target => exact ⟨target, rfl⟩
  | stateCpf target => cases h
  | reward => cases h
  | constraint => cases h

theorem lookup_typing (s : Scope) (bound : List Binding) (v : String) :
    (s.typing bound).lookup v =
      (Binding.find? v bound).map fun found => s.typeName found.2 := by
  induction bound with
  | nil => rfl
  | cons b bound ih =>
      rw [typing, List.map_cons, List.lookup_cons, Binding.find?]
      by_cases hname : b.name = v
      · rw [hname, beq_self_eq_true]
        rfl
      · have hother : (v == b.name) = false := by simpa using fun heq => hname heq.symm
        rw [hother, if_neg (by simpa using hname)]
        exact ih

namespace Built

variable {d : Domain} {i : Instance} {s : Scope}

/-- A number has the name of a block if it is the number of that block. -/
theorem fluentName_eq_iff (h : s.Built d i) {n k : Nat} {b : FluentBlock}
    (hb : s.blocks[n]? = some b) : s.fluentName k = b.name ↔ k = n := by
  constructor
  · intro hname
    obtain ⟨f, hf, _, hplaced⟩ := h.exists_decl hb
    have hne : b.name ≠ "" := by
      rw [hplaced.name]
      exact (Domain.ne_empty_of_validate h.domainValid).2 f hf
    unfold fluentName at hname
    split at hname
    next b' hb' => exact key_injective h.blocks_nodup hb' hb hname
    · exact absurd hname.symm hne
  · rintro rfl
    rw [fluentName, hb]

/-- The compiler lets a fluent be read exactly where the declarations do. -/
theorem exists_readAt_iff (h : s.Built d i) {n place : Nat} {b : FluentBlock} {f : FluentDecl}
    (hb : s.blocks[n]? = some b) (hplaced : Placed s.types place f b) (site : Site)
    (next : Bool) :
    (∃ layer, ReadAt site n b.kind next layer) ↔ f.MayBeRead (s.observer? site) next := by
  have hname : ∀ target, s.fluentName target = f.name ↔ target = n := by
    intro target
    rw [← hplaced.name]
    exact h.fluentName_eq_iff hb
  unfold FluentDecl.MayBeRead
  rw [hplaced.kind]
  constructor
  · rintro ⟨layer, hread⟩
    generalize f.kind = kind at hread
    cases hread with
    | nonFluent => exact rfl
    | action => exact rfl
    | state => exact nofun
    | nextState hsite =>
        rw [hsite]
        exact fun _ => rfl
    | observation hsite hne =>
        rw [hsite]
        exact ⟨rfl, fun heq => hne ((hname _).mp (Option.some.inj heq))⟩
  · intro hread
    cases hkind : f.kind with
    | nonFluent =>
        rw [hkind] at hread
        subst hread
        exact ⟨_, .nonFluent⟩
    | action =>
        rw [hkind] at hread
        subst hread
        exact ⟨_, .action⟩
    | state =>
        rw [hkind] at hread
        cases next with
        | false => exact ⟨_, .state⟩
        | true =>
            obtain ⟨target, rfl⟩ := exists_of_isSome_observer? (hread rfl)
            exact ⟨_, .nextState rfl⟩
    | observation =>
        rw [hkind] at hread
        obtain ⟨target, rfl⟩ := exists_of_isSome_observer? hread.1
        exact ⟨_, .observation rfl fun heq => hread.2 (congrArg some ((hname target).mpr heq))⟩

/-- A term has an argument for a parameter exactly if it fits. -/
theorem exists_argFor_iff (h : s.Built d i) {type : String} {n : Nat}
    (htype : s.type? type = some n) (bound : List Binding) (t : Term) :
    (∃ a, ArgFor s bound n t a) ↔ t.Fits i (s.typing bound) type := by
  constructor
  · rintro ⟨a, harg⟩
    cases harg with
    | var hfind =>
        rw [Term.Fits, s.lookup_typing, hfind, Option.map_some]
        exact congrArg some ((h.typeName_eq_iff htype).mpr rfl)
    | object hk => exact (h.exists_ordinal?_iff htype).mp ⟨_, hk⟩
  · intro hfits
    cases t with
    | var v =>
        rw [Term.Fits, s.lookup_typing, Option.map_eq_some_iff] at hfits
        obtain ⟨⟨slot, k⟩, hfind, hname⟩ := hfits
        obtain rfl := (h.typeName_eq_iff htype).mp hname
        exact ⟨_, .var hfind⟩
    | object o =>
        obtain ⟨k, hk⟩ := (h.exists_ordinal?_iff htype).mpr hfits
        exact ⟨_, .object hk⟩

theorem exists_argsFor_iff (h : s.Built d i) {types : List String} {ns : List Nat}
    (htypes : List.Forall₂ (fun type n => s.type? type = some n) types ns)
    (bound : List Binding) (ts : List Term) :
    (∃ as, ArgsFor s bound ns ts as) ↔ ts.length = types.length ∧
      ∀ p ∈ ts.zip types, p.1.Fits i (s.typing bound) p.2 := by
  induction htypes generalizing ts with
  | nil =>
      constructor
      · rintro ⟨as, hargs⟩
        cases hargs
        exact ⟨rfl, nofun⟩
      · rintro ⟨hlength, _⟩
        obtain rfl := List.length_eq_zero_iff.mp hlength
        exact ⟨[], .nil⟩
  | @cons type n types ns htype _ ih =>
      constructor
      · rintro ⟨as, hargs⟩
        cases hargs with
        | cons head tail =>
            obtain ⟨hlength, hfits⟩ := (ih _).mp ⟨_, tail⟩
            have hfirst := (h.exists_argFor_iff htype bound _).mp ⟨_, head⟩
            rw [List.zip_cons_cons, List.forall_mem_cons]
            exact ⟨congrArg (· + 1) hlength, hfirst, hfits⟩
      · rintro ⟨hlength, hfits⟩
        cases ts with
        | nil => cases hlength
        | cons t ts =>
            rw [List.zip_cons_cons, List.forall_mem_cons] at hfits
            obtain ⟨a, ha⟩ := (h.exists_argFor_iff htype bound t).mpr hfits.1
            obtain ⟨as, has⟩ := (ih ts).mpr ⟨Nat.succ.inj hlength, hfits.2⟩
            exact ⟨a :: as, .cons ha has⟩

/-- A term has a side of a comparison exactly if it stands for an object. -/
theorem exists_objectFor_iff (h : s.Built d i) (bound : List Binding) (t : Term) :
    (∃ ref, ObjectFor s bound t ref) ↔ t.StandsFor i (s.typing bound) := by
  constructor
  · rintro ⟨ref, href⟩
    cases href with
    | var hfind =>
        rw [Term.StandsFor, s.lookup_typing, hfind]
        rfl
    | object hobject => exact h.exists_object?_iff.mp ⟨_, hobject⟩
  · intro hstands
    cases t with
    | var v =>
        rw [Term.StandsFor, s.lookup_typing, Option.isSome_map, Option.isSome_iff_exists] at hstands
        obtain ⟨⟨slot, type⟩, hfind⟩ := hstands
        exact ⟨_, .var hfind⟩
    | object o =>
        obtain ⟨⟨type, k⟩, hobject⟩ := h.exists_object?_iff.mpr hstands
        exact ⟨_, .object hobject⟩

/-- Variables can be bound exactly if their types are declared. -/
theorem exists_binds_iff (h : s.Built d i) (bound : List Binding) (vs : List TypedVar) :
    (∃ binders bound', Binds s bound vs binders bound') ↔ ∀ v ∈ vs, v.typeName ∈ d.types := by
  induction vs generalizing bound with
  | nil => exact iff_of_true ⟨[], bound, .nil⟩ nofun
  | cons v vs ih =>
      rw [List.forall_mem_cons, ← h.exists_type?_iff]
      constructor
      · rintro ⟨binders, bound', hbinds⟩
        cases hbinds with
        | cons head tail => exact ⟨⟨_, head⟩, (ih _).mp ⟨_, _, tail⟩⟩
      · rintro ⟨⟨type, htype⟩, hrest⟩
        obtain ⟨binders, bound', hbinds⟩ := (ih ({ name := v.var, type } :: bound)).mpr hrest
        exact ⟨_, bound', .cons htype hbinds⟩
end Built

/-- Binding some variables extends the names in scope. -/
theorem typing_of_binds {s : Scope} {bound bound' : List Binding} {vs : List TypedVar}
    {binders : List Binder} (h : Binds s bound vs binders bound') :
    s.typing bound' = (s.typing bound).extend vs := by
  induction h with
  | nil => rfl
  | @cons bound bound' v vs type binders head tail ih =>
      rw [ih, typing, List.map_cons, typeName_of_type? head, Typing.extend, Typing.extend,
        List.map_cons, List.reverse_cons, List.append_assoc]
      rfl

end Scope
/-! ## Places -/

namespace Expr

variable {d : Domain} {i : Instance} {observer : Option String} {vars : Typing}

/-- An expression is well-formed if its root is proper and so are the places below
it. -/
theorem wellFormed_iff_of_places {e : Expr} {rest : List (Typing × Expr)}
    (h : e.places vars = (vars, e) :: rest) :
    e.WellFormed d i observer vars ↔
      e.Proper d i observer vars ∧ ∀ p ∈ rest, p.2.Proper d i observer p.1 := by
  rw [WellFormed, h, List.forall_mem_cons]

/-- Of most expressions nothing is asked at the root. -/
theorem wellFormed_iff_below {e : Expr} {rest : List (Typing × Expr)}
    (h : e.places vars = (vars, e) :: rest) (hroot : e.Proper d i observer vars) :
    e.WellFormed d i observer vars ↔ ∀ p ∈ rest, p.2.Proper d i observer p.1 :=
  (wellFormed_iff_of_places h).trans (and_iff_right hroot)

theorem forall_mem_placesOfAll {es : List Expr} :
    (∀ p ∈ placesOfAll vars es, p.2.Proper d i observer p.1) ↔
      ∀ e ∈ es, e.WellFormed d i observer vars := by
  induction es with
  | nil => exact iff_of_true nofun nofun
  | cons e es ih => rw [placesOfAll, List.forall_mem_append, List.forall_mem_cons, ih, WellFormed]

theorem wellFormed_const (v : Value) : (const v).WellFormed d i observer vars :=
  (wellFormed_iff_below rfl (by trivial)).mpr nofun

theorem wellFormed_fluent {name : String} {args : List Term} {next : Bool} :
    (fluent name args next).WellFormed d i observer vars ↔
      ∃ f ∈ d.fluents, f.name = name ∧ args.length = f.params.length ∧
        (∀ p ∈ args.zip f.params, p.1.Fits i vars p.2) ∧ f.MayBeRead observer next :=
  (wellFormed_iff_of_places rfl).trans (and_iff_left nofun)

theorem not_wellFormed_term {t : Term} : ¬(term t).WellFormed d i observer vars :=
  fun h => ((wellFormed_iff_of_places rfl).mp h).1

theorem wellFormed_not {a : Expr} :
    (not a).WellFormed d i observer vars ↔ a.WellFormed d i observer vars :=
  wellFormed_iff_below rfl (by trivial)

theorem wellFormed_and {as : List Expr} :
    (and as).WellFormed d i observer vars ↔ ∀ a ∈ as, a.WellFormed d i observer vars :=
  (wellFormed_iff_below rfl (by trivial)).trans forall_mem_placesOfAll

theorem wellFormed_or {as : List Expr} :
    (or as).WellFormed d i observer vars ↔ ∀ a ∈ as, a.WellFormed d i observer vars :=
  (wellFormed_iff_below rfl (by trivial)).trans forall_mem_placesOfAll

theorem wellFormed_implies {l r : Expr} :
    (implies l r).WellFormed d i observer vars ↔
      l.WellFormed d i observer vars ∧ r.WellFormed d i observer vars :=
  (wellFormed_iff_below rfl (by trivial)).trans List.forall_mem_append

theorem wellFormed_equiv {l r : Expr} :
    (equiv l r).WellFormed d i observer vars ↔
      l.WellFormed d i observer vars ∧ r.WellFormed d i observer vars :=
  (wellFormed_iff_below rfl (by trivial)).trans List.forall_mem_append

theorem wellFormed_compare_terms {op : CompareOp} {t u : Term} :
    (compare op (term t) (term u)).WellFormed d i observer vars ↔
      (op = .eq ∨ op = .neq) ∧ t.StandsFor i vars ∧ u.StandsFor i vars :=
  (wellFormed_iff_of_places rfl).trans (and_iff_left nofun)

theorem wellFormed_compare {op : CompareOp} {l r : Expr} (h : Compiler.termPair? l r = none) :
    (compare op l r).WellFormed d i observer vars ↔
      l.WellFormed d i observer vars ∧ r.WellFormed d i observer vars := by
  have hplaces : (compare op l r).places vars =
      (vars, compare op l r) :: (l.places vars ++ r.places vars) := by
    rw [places, h]
    rfl
  have hroot : (compare op l r).Proper d i observer vars := by
    rw [Proper, h]
    trivial
  exact (wellFormed_iff_below hplaces hroot).trans List.forall_mem_append

theorem wellFormed_arith {op : ArithOp} {l r : Expr} :
    (arith op l r).WellFormed d i observer vars ↔
      l.WellFormed d i observer vars ∧ r.WellFormed d i observer vars :=
  (wellFormed_iff_below rfl (by trivial)).trans List.forall_mem_append

theorem wellFormed_neg {a : Expr} :
    (neg a).WellFormed d i observer vars ↔ a.WellFormed d i observer vars :=
  wellFormed_iff_below rfl (by trivial)

theorem wellFormed_ite {c t e : Expr} :
    (ite c t e).WellFormed d i observer vars ↔ c.WellFormed d i observer vars ∧
      t.WellFormed d i observer vars ∧ e.WellFormed d i observer vars := by
  rw [wellFormed_iff_below rfl (by trivial), List.forall_mem_append, List.forall_mem_append,
    and_assoc]
  exact Iff.rfl

theorem wellFormed_aggregate {op : AggregateOp} {vs : List TypedVar} {body : Expr} :
    (aggregate op vs body).WellFormed d i observer vars ↔
      (vs ≠ [] ∧ ∀ v ∈ vs, v.typeName ∈ d.types) ∧
        body.WellFormed d i observer (vars.extend vs) :=
  wellFormed_iff_of_places rfl

theorem wellFormed_kronDelta {a : Expr} :
    (kronDelta a).WellFormed d i observer vars ↔ a.WellFormed d i observer vars :=
  wellFormed_iff_below rfl (by trivial)

theorem wellFormed_diracDelta {a : Expr} :
    (diracDelta a).WellFormed d i observer vars ↔ a.WellFormed d i observer vars :=
  wellFormed_iff_below rfl (by trivial)

theorem wellFormed_bernoulli {p : Expr} :
    (bernoulli p).WellFormed d i observer vars ↔ p.WellFormed d i observer vars :=
  wellFormed_iff_below rfl (by trivial)

theorem wellFormed_uniform {l u : Expr} :
    (uniform l u).WellFormed d i observer vars ↔
      l.WellFormed d i observer vars ∧ u.WellFormed d i observer vars :=
  (wellFormed_iff_below rfl (by trivial)).trans List.forall_mem_append

end Expr

/-! ## What is compiled is well-formed -/

section Sound

variable {d : Domain} {i : Instance} {c : Compiler} {limit : Nat} {bound : List Binding}

/-- Terms cannot be compiled, so that what is compiled of a comparison with two
compiled sides is no comparison of objects. -/
theorem Lowers.termPair?_eq_none {l r : Expr} {n : Node} (h : Lowers c limit bound l n) :
    Compiler.termPair? l r = none := by
  cases hpair : Compiler.termPair? l r with
  | none => rfl
  | some pair =>
      obtain ⟨rfl, _⟩ := Compiler.termPair?_eq_some hpair
      exact h.not_term.elim

/-- What an expression was compiled to tells that each of its places is proper. -/
theorem Lowers.wellFormed (h : c.scope.Built d i) {e : Expr} {n : Node}
    (hlowers : Lowers c limit bound e n) :
    e.WellFormed d i (c.scope.observer? c.site) (c.scope.typing bound) := by
  induction hlowers with
  | const v => exact Expr.wellFormed_const v
  | read fluent_eq block readable arguments =>
      obtain ⟨f, hf, place, hplaced⟩ := h.exists_decl block
      obtain ⟨b, hb, hname⟩ := h.fluent?_eq_some_iff.mp fluent_eq
      obtain rfl := Option.some.inj (hb.symm.trans block)
      obtain ⟨hlength, hfits⟩ := (h.exists_argsFor_iff hplaced.params _ _).mp ⟨_, arguments⟩
      have hread := (h.exists_readAt_iff block hplaced c.site _).mp ⟨_, readable⟩
      exact Expr.wellFormed_fluent.mpr
        ⟨f, hf, hplaced.name.symm.trans hname, hlength, hfits, hread⟩
  | same left right =>
      have hl := (h.exists_objectFor_iff _ _).mp ⟨_, left⟩
      have hr := (h.exists_objectFor_iff _ _).mp ⟨_, right⟩
      exact Expr.wellFormed_compare_terms.mpr ⟨.inl rfl, hl, hr⟩
  | differ left right =>
      have hl := (h.exists_objectFor_iff _ _).mp ⟨_, left⟩
      have hr := (h.exists_objectFor_iff _ _).mp ⟨_, right⟩
      exact Expr.wellFormed_compare_terms.mpr ⟨.inr rfl, hl, hr⟩
  | not _ ih => exact Expr.wellFormed_not.mpr ih
  | and length _ ih => exact Expr.wellFormed_and.mpr (forall_mem_of_zip_left length ih)
  | or length _ ih => exact Expr.wellFormed_or.mpr (forall_mem_of_zip_left length ih)
  | implies _ _ ihl ihr => exact Expr.wellFormed_implies.mpr ⟨ihl, ihr⟩
  | equiv _ _ ihl ihr => exact Expr.wellFormed_equiv.mpr ⟨ihl, ihr⟩
  | compare left _ ihl ihr =>
      exact (Expr.wellFormed_compare left.termPair?_eq_none).mpr ⟨ihl, ihr⟩
  | arith _ _ ihl ihr => exact Expr.wellFormed_arith.mpr ⟨ihl, ihr⟩
  | neg _ ih => exact Expr.wellFormed_neg.mpr ih
  | ite _ _ _ ihc iht ihe => exact Expr.wellFormed_ite.mpr ⟨ihc, iht, ihe⟩
  | aggregate nonempty binds _ _ ih =>
      rw [Scope.typing_of_binds binds] at ih
      have hdeclared := (h.exists_binds_iff _ _).mp ⟨_, _, binds⟩
      exact Expr.wellFormed_aggregate.mpr ⟨⟨nonempty, hdeclared⟩, ih⟩
  | kronDelta _ ih => exact Expr.wellFormed_kronDelta.mpr ih
  | diracDelta _ ih => exact Expr.wellFormed_diracDelta.mpr ih
  | bernoulli _ ih => exact Expr.wellFormed_bernoulli.mpr ih
  | uniform _ _ ihl ihh => exact Expr.wellFormed_uniform.mpr ⟨ihl, ihh⟩

end Sound

/-! ## What is well-formed is compiled -/

namespace Compiler

variable {c : Compiler} {bound : List Binding} {f : Footprint}

theorem run_lookup {v : String} {found : Nat × Nat} (h : Binding.find? v bound = some found) :
    (c.lookup bound v).run f = .ok (found, f) := by
  rw [lookup, h]
  rfl

theorem run_argument {b : FluentBlock} {type : Nat} {t : Term} {a : Arg}
    (h : ArgFor c.scope bound type t a) : (c.argument bound b type t).run f = .ok (a, f) := by
  cases h with
  | var hfind =>
      rw [argument]
      refine run_bind_eq_ok_iff.mpr ⟨_, f, run_lookup hfind, ?_⟩
      dsimp only
      rw [if_pos rfl]
      rfl
  | object hk =>
      rw [argument, hk]
      rfl

theorem run_arguments {b : FluentBlock} {types : List Nat} {ts : List Term} {as : List Arg}
    (h : ArgsFor c.scope bound types ts as) :
    (c.arguments bound b types ts).run f = .ok (as, f) := by
  induction h with
  | nil => rfl
  | cons head _ ih =>
      rw [arguments]
      refine run_bind_eq_ok_iff.mpr ⟨_, f, run_argument head, ?_⟩
      exact run_bind_eq_ok_iff.mpr ⟨_, f, ih, rfl⟩

theorem run_objectRef {t : Term} {ref : ObjectRef} (h : ObjectFor c.scope bound t ref) :
    (c.objectRef bound t).run f = .ok (ref, f) := by
  cases h with
  | var hfind =>
      rw [objectRef]
      exact run_bind_eq_ok_iff.mpr ⟨_, f, run_lookup hfind, rfl⟩
  | object hobject =>
      rw [objectRef, hobject]
      rfl

theorem succeeds_checkRead {fluent : Nat} {b : FluentBlock} {next : Bool} {layer : Layer}
    (h : ReadAt c.site fluent b.kind next layer) :
    Succeeds (c.checkRead fluent b next) fun _ => True := by
  generalize hkind : b.kind = kind at h
  unfold checkRead
  rw [hkind]
  cases h with
  | nonFluent => exact .value trivial
  | action => exact .value trivial
  | state => exact .value trivial
  | nextState hsite =>
      rw [hsite]
      exact .value trivial
  | observation hsite hne =>
      rw [hsite]
      dsimp only
      rw [if_neg hne]
      exact (Succeeds.modify _).bind fun _ _ => .value trivial

theorem succeeds_bind {vs : List TypedVar} {binders : List Binder} {bound' : List Binding}
    (h : Binds c.scope bound vs binders bound') :
    Succeeds (c.bind bound vs) fun found => found.2 = bound' := by
  induction h with
  | nil => exact .value rfl
  | cons head _ ih =>
      rw [bind, head]
      exact (Succeeds.modify _).bind fun _ _ => ih.bind fun _ hbound => .value hbound

variable {d : Domain} {i : Instance}

theorem succeeds_read (h : c.scope.Built d i) {name : String} {args : List Term} {next : Bool}
    (hread : (Expr.fluent name args next).WellFormed d i (c.scope.observer? c.site)
      (c.scope.typing bound)) :
    Succeeds (c.read bound name args next) fun _ => True := by
  obtain ⟨f, hf, rfl, hlength, hfits, hmay⟩ := Expr.wellFormed_fluent.mp hread
  obtain ⟨n, b, place, hfluent, hb, hplaced⟩ := h.exists_block hf
  obtain ⟨as, has⟩ := (h.exists_argsFor_iff hplaced.params bound args).mpr ⟨hlength, hfits⟩
  obtain ⟨layer, hlayer⟩ := (h.exists_readAt_iff hb hplaced c.site next).mpr hmay
  have harity : b.params.length = args.length := by
    rw [hlength, hplaced.params.length_eq]
  rw [read, hfluent]
  dsimp only
  rw [hb]
  dsimp only
  rw [if_neg (not_not_intro harity)]
  refine (succeeds_checkRead hlayer).bind fun _ _ => ?_
  intro s
  exact ⟨_, s, run_bind_eq_ok_iff.mpr ⟨as, s, run_arguments has, rfl⟩, trivial⟩

theorem succeeds_compareObjects (h : c.scope.Built d i) {op : CompareOp} {t u : Term}
    (hcompare : (Expr.compare op (.term t) (.term u)).WellFormed d i (c.scope.observer? c.site)
      (c.scope.typing bound)) :
    Succeeds (c.compareObjects bound op t u) fun _ => True := by
  obtain ⟨hop, ht, hu⟩ := Expr.wellFormed_compare_terms.mp hcompare
  obtain ⟨lhs, hl⟩ := (h.exists_objectFor_iff bound t).mpr ht
  obtain ⟨rhs, hr⟩ := (h.exists_objectFor_iff bound u).mpr hu
  intro s
  have hrefs : ∀ negate, (do
      let lhs ← c.objectRef bound t
      let rhs ← c.objectRef bound u
      return Node.sameObject lhs rhs negate).run s = .ok (.sameObject lhs rhs negate, s) := by
    intro negate
    refine run_bind_eq_ok_iff.mpr ⟨lhs, s, run_objectRef hl, ?_⟩
    exact run_bind_eq_ok_iff.mpr ⟨rhs, s, run_objectRef hr, rfl⟩
  rcases hop with rfl | rfl
  · exact ⟨_, s, hrefs false, trivial⟩
  · exact ⟨_, s, hrefs true, trivial⟩

mutual

/-- Where each place is proper, no part of the compilation fails. -/
theorem succeeds_lower (h : c.scope.Built d i) (bound : List Binding) (e : Expr)
    (he : e.WellFormed d i (c.scope.observer? c.site) (c.scope.typing bound)) :
    Succeeds (c.lower bound e) fun _ => True := by
  cases e with
  | const v => exact .value trivial
  | fluent name args next =>
      rw [lower]
      exact succeeds_read h he
  | term t => exact (Expr.not_wellFormed_term he).elim
  | not a =>
      rw [lower]
      exact (succeeds_lower h bound a (Expr.wellFormed_not.mp he)).bind fun _ _ => .value trivial
  | and as =>
      rw [lower]
      exact (succeeds_lowerAll h bound as (Expr.wellFormed_and.mp he)).bind fun _ _ =>
        .value trivial
  | or as =>
      rw [lower]
      exact (succeeds_lowerAll h bound as (Expr.wellFormed_or.mp he)).bind fun _ _ =>
        .value trivial
  | implies l r =>
      obtain ⟨hl, hr⟩ := Expr.wellFormed_implies.mp he
      rw [lower]
      exact (succeeds_lower h bound l hl).bind fun _ _ =>
        (succeeds_lower h bound r hr).bind fun _ _ => .value trivial
  | equiv l r =>
      obtain ⟨hl, hr⟩ := Expr.wellFormed_equiv.mp he
      rw [lower]
      exact (succeeds_lower h bound l hl).bind fun _ _ =>
        (succeeds_lower h bound r hr).bind fun _ _ => .value trivial
  | compare op l r =>
      rw [lower]
      cases hpair : termPair? l r with
      | some pair =>
          obtain ⟨rfl, rfl⟩ := termPair?_eq_some hpair
          exact succeeds_compareObjects h he
      | none =>
          obtain ⟨hl, hr⟩ := (Expr.wellFormed_compare hpair).mp he
          exact (succeeds_lower h bound l hl).bind fun _ _ =>
            (succeeds_lower h bound r hr).bind fun _ _ => .value trivial
  | arith op l r =>
      obtain ⟨hl, hr⟩ := Expr.wellFormed_arith.mp he
      rw [lower]
      exact (succeeds_lower h bound l hl).bind fun _ _ =>
        (succeeds_lower h bound r hr).bind fun _ _ => .value trivial
  | neg a =>
      rw [lower]
      exact (succeeds_lower h bound a (Expr.wellFormed_neg.mp he)).bind fun _ _ => .value trivial
  | ite cond t e =>
      obtain ⟨hcond, ht, he⟩ := Expr.wellFormed_ite.mp he
      rw [lower]
      exact (succeeds_lower h bound cond hcond).bind fun _ _ =>
        (succeeds_lower h bound t ht).bind fun _ _ =>
          (succeeds_lower h bound e he).bind fun _ _ => .value trivial
  | aggregate op vs body =>
      obtain ⟨⟨hnonempty, hdeclared⟩, hbody⟩ := Expr.wellFormed_aggregate.mp he
      obtain ⟨binders, bound', hbinds⟩ := (h.exists_binds_iff bound vs).mpr hdeclared
      rw [← Scope.typing_of_binds hbinds] at hbody
      rw [lower, if_neg (by simpa using hnonempty)]
      refine (succeeds_bind hbinds).bind ?_
      rintro ⟨_, _⟩ rfl
      exact (succeeds_lower h _ body hbody).bind fun _ _ => .value trivial
  | kronDelta a =>
      rw [lower]
      exact (succeeds_lower h bound a (Expr.wellFormed_kronDelta.mp he)).bind fun _ _ =>
        .value trivial
  | diracDelta a =>
      rw [lower]
      exact (succeeds_lower h bound a (Expr.wellFormed_diracDelta.mp he)).bind fun _ _ =>
        .value trivial
  | bernoulli p =>
      rw [lower]
      exact (succeeds_lower h bound p (Expr.wellFormed_bernoulli.mp he)).bind fun _ _ =>
        .value trivial
  | uniform l u =>
      obtain ⟨hl, hu⟩ := Expr.wellFormed_uniform.mp he
      rw [lower]
      exact (succeeds_lower h bound l hl).bind fun _ _ =>
        (succeeds_lower h bound u hu).bind fun _ _ => .value trivial

theorem succeeds_lowerAll (h : c.scope.Built d i) (bound : List Binding) (es : List Expr)
    (hes : ∀ e ∈ es, e.WellFormed d i (c.scope.observer? c.site) (c.scope.typing bound)) :
    Succeeds (c.lowerAll bound es) fun _ => True := by
  cases es with
  | nil => exact .value trivial
  | cons e es =>
      rw [List.forall_mem_cons] at hes
      rw [lowerAll]
      exact (succeeds_lower h bound e hes.1).bind fun _ _ =>
        (succeeds_lowerAll h bound es hes.2).bind fun _ _ => .value trivial

end

/-- Against the scope of a valid domain and a valid instance, compilation accepts
exactly the well-formed expressions, at every site and under all parameters. -/
theorem compile_ok_iff_wellFormed {s : Scope} (h : s.Built d i) (site : Site) (label : String)
    (params : List Binding) (e : Expr) :
    (∃ body reads, compile { scope := s, site, label } params e = .ok (body, reads)) ↔
      e.WellFormed d i (s.observer? site) (s.typing params.reverse) := by
  constructor
  · rintro ⟨body, reads, hcompile⟩
    exact ((compile_spec hcompile).2 body.slots (Nat.le_refl _)).wellFormed h
  · intro he
    have hlower := succeeds_lower (c := { scope := s, site, label }) h params.reverse e he
    obtain ⟨node, f, hrun, _⟩ := hlower { slots := params.length, reads := [] }
    refine ⟨{ node, slots := f.slots, label }, f.reads, ?_⟩
    rw [compile, hrun]

/-- The function that counts, in which a variable hides another of the same name
but of another type, can be compiled; with the two variables exchanged it cannot. -/
theorem compile_ok_iff_wellFormed_lamps :
    let s := Lamps.model.scope
    let count := fun vars => Expr.quantify .sum vars (.now "IN" ["l1", "?x"])
    let accepts := fun vars => ∃ body reads,
      compile { scope := s, site := .stateCpf 2, label := "count'" } [] (count vars) =
        .ok (body, reads)
    s.Built Lamps.domain Lamps.house ∧ accepts [("?x", "lamp"), ("?x", "room")] ∧
      ¬accepts [("?x", "room"), ("?x", "lamp")] := by
  intro s count accepts
  have hbuilt : s.Built Lamps.domain Lamps.house := Lamps.grounded.built
  have hwell : (count [("?x", "lamp"), ("?x", "room")]).WellFormed Lamps.domain Lamps.house none
      [] := by
    decide +kernel
  have hill : ¬(count [("?x", "room"), ("?x", "lamp")]).WellFormed Lamps.domain Lamps.house none
      [] := by
    decide +kernel
  refine ⟨hbuilt, (compile_ok_iff_wellFormed hbuilt _ _ [] _).mpr hwell, ?_⟩
  exact fun haccepts => hill ((compile_ok_iff_wellFormed hbuilt _ _ [] _).mp haccepts)

end Compiler

end LiftedPomdp
