import LiftedPomdp.Ground.Compile
import LiftedPomdp.Proofs.Effects.Except

/-!
# What compilation produces

`Lowers c limit bound e n` says that `n` is what the expression `e` is compiled
to under the variables `bound`, and that it uses no slot from `limit` on.  It
has one rule for each constructor and says what each name was resolved to.  A
compilation that succeeds produces such a node, for every limit from the number
of slots on that it has noted; later facts about compiled expressions are drawn
from the rules.
-/

namespace LiftedPomdp

open Effects

/-! ## Names -/

/-- An argument that a term is compiled to for a parameter of a type. -/
inductive ArgFor (s : Scope) (bound : List Binding) (type : Nat) : Term → Arg → Prop
  | var {v : String} {slot : Nat} (h : Binding.find? v bound = some (slot, type)) :
      ArgFor s bound type (.var v) (.slot slot)
  | object {o : String} {k : Nat} (h : s.ordinal? type o = some k) :
      ArgFor s bound type (.object o) (.object k)

/-- The arguments that terms are compiled to for parameters of some types. -/
inductive ArgsFor (s : Scope) (bound : List Binding) :
    List Nat → List Term → List Arg → Prop
  | nil : ArgsFor s bound [] [] []
  | cons {type : Nat} {types : List Nat} {t : Term} {ts : List Term} {a : Arg} {as : List Arg}
      (head : ArgFor s bound type t a) (tail : ArgsFor s bound types ts as) :
      ArgsFor s bound (type :: types) (t :: ts) (a :: as)

theorem ArgsFor.length_eq {s : Scope} {bound : List Binding} {types : List Nat}
    {terms : List Term} {args : List Arg} (h : ArgsFor s bound types terms args) :
    args.length = types.length := by
  induction h with
  | nil => rfl
  | cons _ _ ih => rw [List.length_cons, List.length_cons, ih]

/-- The side of a comparison that a term is compiled to. -/
inductive ObjectFor (s : Scope) (bound : List Binding) : Term → ObjectRef → Prop
  | var {v : String} {slot type : Nat} (h : Binding.find? v bound = some (slot, type)) :
      ObjectFor s bound (.var v) { arg := .slot slot, type }
  | object {o : String} {type k : Nat} (h : s.object? o = some (type, k)) :
      ObjectFor s bound (.object o) { arg := .object k, type }

/-- Where a fluent may be read, and on which side of the transition. -/
inductive ReadAt (site : Site) (fluent : Nat) : FluentKind → Bool → Layer → Prop
  | nonFluent : ReadAt site fluent .nonFluent false .current
  | action : ReadAt site fluent .action false .current
  | state : ReadAt site fluent .state false .current
  | nextState {target : Nat} (h : site = .observationCpf target) :
      ReadAt site fluent .state true .next
  | observation {next : Bool} {target : Nat} (h : site = .observationCpf target)
      (hne : target ≠ fluent) : ReadAt site fluent .observation next .next

/-- The binders of some variables, with the variables in scope before and
after. -/
inductive Binds (s : Scope) :
    List Binding → List TypedVar → List Binder → List Binding → Prop
  | nil {bound : List Binding} : Binds s bound [] [] bound
  | cons {bound bound' : List Binding} {v : TypedVar} {vs : List TypedVar} {type : Nat}
      {binders : List Binder} (head : s.type? v.typeName = some type)
      (tail : Binds s ({ name := v.var, type } :: bound) vs binders bound') :
      Binds s bound (v :: vs) ({ slot := bound.length, type } :: binders) bound'

theorem Binds.length_eq {s : Scope} {bound bound' : List Binding} {vs : List TypedVar}
    {binders : List Binder} (h : Binds s bound vs binders bound') :
    bound'.length = bound.length + binders.length := by
  induction h with
  | nil => rfl
  | cons _ _ ih =>
      rw [ih, List.length_cons, List.length_cons]
      omega

/-- The variables of an aggregate take the slots up to the number of variables in
scope within it. -/
theorem Binds.slot_lt {s : Scope} {bound bound' : List Binding} {vars : List TypedVar}
    {binders : List Binder} (h : Binds s bound vars binders bound') :
    ∀ b ∈ binders, b.slot < bound'.length := by
  induction h with
  | nil => exact nofun
  | cons _ tail ih =>
      have hlen := tail.length_eq
      rw [List.length_cons] at hlen
      rw [List.forall_mem_cons]
      refine ⟨?_, ih⟩
      dsimp only
      omega

theorem Binds.forall₂ {s : Scope} {bound bound' : List Binding} {vars : List TypedVar}
    {binders : List Binder} (h : Binds s bound vars binders bound') :
    List.Forall₂ (fun v b => s.type? v.typeName = some b.type) vars binders := by
  induction h with
  | nil => exact .nil
  | cons head _ ih => exact .cons head ih

theorem Binding.slot_lt {v : String} {bound : List Binding} {slot type : Nat}
    (h : Binding.find? v bound = some (slot, type)) : slot < bound.length := by
  induction bound with
  | nil => cases h
  | cons b bound ih =>
      rw [Binding.find?] at h
      split at h
      · cases h
        exact Nat.lt_succ_self _
      · exact Nat.lt_succ_of_lt (ih h)

/-! ## Expressions -/

/-- What an expression is compiled to under some variables, within a number of
slots. -/
inductive Lowers (c : Compiler) (limit : Nat) : List Binding → Expr → Node → Prop
  | const {bound : List Binding} (v : Value) : Lowers c limit bound (.const v) (.const v)
  | read {bound : List Binding} {name : String} {terms : List Term} {args : List Arg}
      {next : Bool} {fluent : Nat} {b : FluentBlock} {layer : Layer}
      (fluent_eq : c.scope.fluent? name = some fluent)
      (block : c.scope.blocks[fluent]? = some b)
      (readable : ReadAt c.site fluent b.kind next layer)
      (arguments : ArgsFor c.scope bound b.params terms args) :
      Lowers c limit bound (.fluent name terms next) (.read fluent b.kind layer args)
  | same {bound : List Binding} {l r : Term} {lhs rhs : ObjectRef}
      (left : ObjectFor c.scope bound l lhs) (right : ObjectFor c.scope bound r rhs) :
      Lowers c limit bound (.compare .eq (.term l) (.term r)) (.sameObject lhs rhs false)
  | differ {bound : List Binding} {l r : Term} {lhs rhs : ObjectRef}
      (left : ObjectFor c.scope bound l lhs) (right : ObjectFor c.scope bound r rhs) :
      Lowers c limit bound (.compare .neq (.term l) (.term r)) (.sameObject lhs rhs true)
  | not {bound : List Binding} {e : Expr} {n : Node} (arg : Lowers c limit bound e n) :
      Lowers c limit bound (.not e) (.not n)
  | and {bound : List Binding} {es : List Expr} {ns : List Node} (length : es.length = ns.length)
      (args : ∀ p ∈ es.zip ns, Lowers c limit bound p.1 p.2) :
      Lowers c limit bound (.and es) (.and ns)
  | or {bound : List Binding} {es : List Expr} {ns : List Node} (length : es.length = ns.length)
      (args : ∀ p ∈ es.zip ns, Lowers c limit bound p.1 p.2) :
      Lowers c limit bound (.or es) (.or ns)
  | implies {bound : List Binding} {l r : Expr} {nl nr : Node}
      (left : Lowers c limit bound l nl) (right : Lowers c limit bound r nr) :
      Lowers c limit bound (.implies l r) (.implies nl nr)
  | equiv {bound : List Binding} {l r : Expr} {nl nr : Node}
      (left : Lowers c limit bound l nl) (right : Lowers c limit bound r nr) :
      Lowers c limit bound (.equiv l r) (.equiv nl nr)
  | compare {bound : List Binding} {op : CompareOp} {l r : Expr} {nl nr : Node}
      (left : Lowers c limit bound l nl) (right : Lowers c limit bound r nr) :
      Lowers c limit bound (.compare op l r) (.compare op nl nr)
  | arith {bound : List Binding} {op : ArithOp} {l r : Expr} {nl nr : Node}
      (left : Lowers c limit bound l nl) (right : Lowers c limit bound r nr) :
      Lowers c limit bound (.arith op l r) (.arith op nl nr)
  | neg {bound : List Binding} {e : Expr} {n : Node} (arg : Lowers c limit bound e n) :
      Lowers c limit bound (.neg e) (.neg n)
  | ite {bound : List Binding} {cond t e : Expr} {nc nt ne : Node}
      (condition : Lowers c limit bound cond nc) (thenBranch : Lowers c limit bound t nt)
      (elseBranch : Lowers c limit bound e ne) :
      Lowers c limit bound (.ite cond t e) (.ite nc nt ne)
  | aggregate {bound bound' : List Binding} {op : AggregateOp} {vars : List TypedVar}
      {binders : List Binder} {e : Expr} {n : Node} (nonempty : vars ≠ [])
      (binds : Binds c.scope bound vars binders bound') (within : bound'.length ≤ limit)
      (body : Lowers c limit bound' e n) :
      Lowers c limit bound (.aggregate op vars e) (.aggregate op binders n)
  | kronDelta {bound : List Binding} {e : Expr} {n : Node} (arg : Lowers c limit bound e n) :
      Lowers c limit bound (.kronDelta e) (.kronDelta n)
  | diracDelta {bound : List Binding} {e : Expr} {n : Node} (arg : Lowers c limit bound e n) :
      Lowers c limit bound (.diracDelta e) (.diracDelta n)
  | bernoulli {bound : List Binding} {e : Expr} {n : Node} (arg : Lowers c limit bound e n) :
      Lowers c limit bound (.bernoulli e) (.bernoulli n)
  | uniform {bound : List Binding} {l h : Expr} {nl nh : Node}
      (low : Lowers c limit bound l nl) (high : Lowers c limit bound h nh) :
      Lowers c limit bound (.uniform l h) (.uniform nl nh)

theorem Lowers.not_term {c : Compiler} {limit : Nat} {bound : List Binding} {t : Term}
    {n : Node} : ¬Lowers c limit bound (.term t) n := by
  intro h
  cases h

theorem forall_mem_of_zip_left {α β : Type} {P : α → Prop} {xs : List α} {ys : List β}
    (hlen : xs.length = ys.length) (h : ∀ p ∈ xs.zip ys, P p.1) : ∀ x ∈ xs, P x := by
  intro x hx
  rw [← List.map_fst_zip (Nat.le_of_eq hlen)] at hx
  obtain ⟨p, hp, rfl⟩ := List.mem_map.mp hx
  exact h p hp

theorem exists_mem_zip {α β : Type} {xs : List α} {ys : List β} (hlen : xs.length = ys.length)
    {y : β} (hy : y ∈ ys) : ∃ x, (x, y) ∈ xs.zip ys := by
  rw [← List.map_snd_zip (Nat.le_of_eq hlen.symm)] at hy
  obtain ⟨p, hp, rfl⟩ := List.mem_map.mp hy
  exact ⟨p.1, hp⟩

theorem forall_mem_of_zip_right {α β : Type} {P : β → Prop} {xs : List α} {ys : List β}
    (hlen : xs.length = ys.length) (h : ∀ p ∈ xs.zip ys, P p.2) : ∀ y ∈ ys, P y := by
  intro y hy
  obtain ⟨x, hxy⟩ := exists_mem_zip hlen hy
  exact h (x, y) hxy

/-! ## Compilation -/

/-- A footprint grows to another, and something holds for every number of slots
from there on. -/
def Within (f f' : Footprint) (P : Nat → Prop) : Prop :=
  f.slots ≤ f'.slots ∧ ∀ limit, f'.slots ≤ limit → P limit

namespace Within

variable {f f' f'' : Footprint} {P Q : Nat → Prop}

theorem refl (h : ∀ limit, P limit) : Within f f P :=
  ⟨Nat.le_refl _, fun limit _ => h limit⟩

theorem mono (h : Within f f' P) (hPQ : ∀ limit, P limit → Q limit) : Within f f' Q :=
  ⟨h.1, fun limit hle => hPQ limit (h.2 limit hle)⟩

theorem and (h : Within f f' P) (h' : Within f' f'' Q) :
    Within f f'' fun limit => P limit ∧ Q limit :=
  ⟨Nat.le_trans h.1 h'.1, fun limit hle =>
    ⟨h.2 limit (Nat.le_trans h'.1 hle), h'.2 limit hle⟩⟩

end Within

namespace Compiler

variable {c : Compiler} {bound : List Binding} {f f' : Footprint}

theorem lookup_spec {name : String} {found : Nat × Nat}
    (h : (c.lookup bound name).run f = .ok (found, f')) :
    Binding.find? name bound = some found ∧ f = f' := by
  unfold lookup at h
  split at h
  next other hother =>
    rw [run_pure_eq_ok_iff] at h
    exact ⟨h.1 ▸ hother, h.2⟩
  · rw [run_throw_ne_ok] at h
    exact h.elim

theorem objectRef_spec {t : Term} {ref : ObjectRef}
    (h : (c.objectRef bound t).run f = .ok (ref, f')) :
    ObjectFor c.scope bound t ref ∧ f = f' := by
  cases t with
  | var v =>
      rw [objectRef, run_bind_eq_ok_iff] at h
      obtain ⟨⟨slot, type⟩, f₁, hlookup, h⟩ := h
      obtain ⟨hfound, rfl⟩ := lookup_spec hlookup
      rw [run_pure_eq_ok_iff] at h
      exact ⟨h.1 ▸ .var hfound, h.2⟩
  | object o =>
      simp only [objectRef] at h
      split at h
      next type k hobject =>
        rw [run_pure_eq_ok_iff] at h
        exact ⟨h.1 ▸ .object hobject, h.2⟩
      · exact (run_throw_ne_ok.mp h).elim

theorem argument_spec {b : FluentBlock} {type : Nat} {t : Term} {a : Arg}
    (h : (c.argument bound b type t).run f = .ok (a, f')) :
    ArgFor c.scope bound type t a ∧ f = f' := by
  cases t with
  | var v =>
      rw [argument, run_bind_eq_ok_iff] at h
      obtain ⟨⟨slot, actual⟩, f₁, hlookup, h⟩ := h
      obtain ⟨hfound, rfl⟩ := lookup_spec hlookup
      dsimp only at h
      split at h
      next heq =>
        rw [run_pure_eq_ok_iff] at h
        exact ⟨h.1 ▸ .var (heq ▸ hfound), h.2⟩
      · exact (run_throw_ne_ok.mp h).elim
  | object o =>
      simp only [argument] at h
      split at h
      next k hk =>
        rw [run_pure_eq_ok_iff] at h
        exact ⟨h.1 ▸ .object hk, h.2⟩
      · exact (run_throw_ne_ok.mp h).elim

theorem arguments_spec {b : FluentBlock} {types : List Nat} {ts : List Term} {as : List Arg}
    (hlen : types.length = ts.length)
    (h : (c.arguments bound b types ts).run f = .ok (as, f')) :
    ArgsFor c.scope bound types ts as ∧ f = f' := by
  induction types generalizing ts as f with
  | nil =>
      cases ts with
      | nil =>
          rw [arguments, run_pure_eq_ok_iff] at h
          · exact ⟨h.1 ▸ .nil, h.2⟩
          · simp
      | cons t ts => simp at hlen
  | cons type types ih =>
      cases ts with
      | nil => simp at hlen
      | cons t ts =>
          simp only [arguments, run_bind_eq_ok_iff, run_pure_eq_ok_iff] at h
          obtain ⟨a, f₁, ha, rest, f₂, hrest, rfl, rfl⟩ := h
          obtain ⟨hhead, rfl⟩ := argument_spec ha
          obtain ⟨htail, rfl⟩ := ih (by simpa using hlen) hrest
          exact ⟨.cons hhead htail, rfl⟩

theorem checkRead_spec {fluent : Nat} {b : FluentBlock} {next : Bool} {layer : Layer}
    (h : (c.checkRead fluent b next).run f = .ok (layer, f')) :
    ReadAt c.site fluent b.kind next layer ∧ f.slots = f'.slots := by
  unfold checkRead at h
  split at h
  · exact (run_throw_ne_ok.mp h).elim
  next hkind =>
    rw [run_pure_eq_ok_iff] at h
    rw [hkind, ← h.1, ← h.2]
    exact ⟨.nonFluent, rfl⟩
  · exact (run_throw_ne_ok.mp h).elim
  next hkind =>
    rw [run_pure_eq_ok_iff] at h
    rw [hkind, ← h.1, ← h.2]
    exact ⟨.action, rfl⟩
  next hkind =>
    rw [run_pure_eq_ok_iff] at h
    rw [hkind, ← h.1, ← h.2]
    exact ⟨.state, rfl⟩
  next hkind hsite =>
    rw [run_pure_eq_ok_iff] at h
    rw [hkind, ← h.1, ← h.2]
    exact ⟨.nextState hsite, rfl⟩
  · exact (run_throw_ne_ok.mp h).elim
  · exact (run_throw_ne_ok.mp h).elim
  · exact (run_throw_ne_ok.mp h).elim
  next hkind hsite =>
    split at h
    · exact (run_throw_ne_ok.mp h).elim
    next hne =>
      rw [run_bind_eq_ok_iff] at h
      obtain ⟨_, f₁, hmodify, h⟩ := h
      rw [run_pure_eq_ok_iff] at h
      obtain ⟨rfl, rfl⟩ := h
      cases hmodify
      rw [hkind]
      exact ⟨.observation hsite hne, rfl⟩
  · exact (run_throw_ne_ok.mp h).elim

theorem read_spec {name : String} {terms : List Term} {next : Bool} {n : Node}
    (h : (c.read bound name terms next).run f = .ok (n, f')) :
    Within f f' fun limit => Lowers c limit bound (.fluent name terms next) n := by
  unfold read at h
  split at h
  · exact (run_throw_ne_ok.mp h).elim
  next fluent hfluent =>
    split at h
    · exact (run_throw_ne_ok.mp h).elim
    next b hb =>
      split at h
      · exact (run_throw_ne_ok.mp h).elim
      next harity =>
        simp only [run_bind_eq_ok_iff, run_pure_eq_ok_iff] at h
        obtain ⟨layer, f₁, hlayer, args, f₂, hargs, rfl, rfl⟩ := h
        obtain ⟨hread, hslots⟩ := checkRead_spec hlayer
        obtain ⟨hfor, rfl⟩ := arguments_spec (not_not.mp harity) hargs
        exact ⟨Nat.le_of_eq hslots, fun limit _ => .read hfluent hb hread hfor⟩

theorem bind_spec {vars : List TypedVar} {binders : List Binder} {bound' : List Binding}
    (h : (c.bind bound vars).run f = .ok ((binders, bound'), f')) :
    Binds c.scope bound vars binders bound' ∧ f.slots ≤ f'.slots ∧
      (vars ≠ [] → bound'.length ≤ f'.slots) := by
  induction vars generalizing bound binders f with
  | nil =>
      simp only [bind, run_pure_eq_ok_iff, Prod.mk.injEq] at h
      obtain ⟨⟨rfl, rfl⟩, rfl⟩ := h
      exact ⟨.nil, Nat.le_refl _, fun hne => absurd rfl hne⟩
  | cons v vs ih =>
      simp only [bind] at h
      split at h
      · exact (run_throw_ne_ok.mp h).elim
      next type htype =>
        simp only [run_bind_eq_ok_iff, run_pure_eq_ok_iff, Prod.mk.injEq] at h
        obtain ⟨_, f₁, hmodify, ⟨rest, bound''⟩, f₂, hrest, ⟨rfl, rfl⟩, rfl⟩ := h
        cases hmodify
        obtain ⟨hbinds, hle, hlen⟩ := ih hrest
        simp only [Footprint.useSlots] at hle
        refine ⟨.cons htype hbinds, by omega, fun _ => ?_⟩
        by_cases hvs : vs = []
        · subst hvs
          cases hbinds
          rw [List.length_cons]
          omega
        · exact hlen hvs

theorem compareObjects_spec {op : CompareOp} {l r : Term} {n : Node}
    (h : (c.compareObjects bound op l r).run f = .ok (n, f')) :
    Within f f' fun limit => Lowers c limit bound (.compare op (.term l) (.term r)) n := by
  have hrefs : ∀ negate, (do
      let lhs ← c.objectRef bound l
      let rhs ← c.objectRef bound r
      return Node.sameObject lhs rhs negate).run f = .ok (n, f') →
      ∃ lhs rhs, ObjectFor c.scope bound l lhs ∧ ObjectFor c.scope bound r rhs ∧
        n = .sameObject lhs rhs negate ∧ f = f' := by
    intro negate hrun
    simp only [run_bind_eq_ok_iff, run_pure_eq_ok_iff] at hrun
    obtain ⟨lhs, f₁, hlhs, rhs, f₂, hrhs, rfl, rfl⟩ := hrun
    obtain ⟨hl, rfl⟩ := objectRef_spec hlhs
    obtain ⟨hr, rfl⟩ := objectRef_spec hrhs
    exact ⟨lhs, rhs, hl, hr, rfl, rfl⟩
  cases op with
  | eq =>
      obtain ⟨lhs, rhs, hl, hr, rfl, rfl⟩ := hrefs false h
      exact Within.refl fun limit => .same hl hr
  | neq =>
      obtain ⟨lhs, rhs, hl, hr, rfl, rfl⟩ := hrefs true h
      exact Within.refl fun limit => .differ hl hr
  | lt => exact (run_throw_ne_ok.mp h).elim
  | le => exact (run_throw_ne_ok.mp h).elim
  | gt => exact (run_throw_ne_ok.mp h).elim
  | ge => exact (run_throw_ne_ok.mp h).elim

theorem termPair?_eq_some {l r : Expr} {t u : Term} (h : termPair? l r = some (t, u)) :
    l = .term t ∧ r = .term u := by
  unfold termPair? at h
  split at h
  · cases h
    exact ⟨rfl, rfl⟩
  · cases h

mutual

/-- A compilation that succeeds notes enough slots for the node that it
produces. -/
theorem lower_spec {c : Compiler} {bound : List Binding} {f f' : Footprint} {n : Node}
    (e : Expr) (h : (c.lower bound e).run f = .ok (n, f')) :
    Within f f' fun limit => Lowers c limit bound e n := by
  cases e with
  | const v =>
      rw [lower, run_pure_eq_ok_iff] at h
      obtain ⟨rfl, rfl⟩ := h
      exact Within.refl fun limit => .const v
  | fluent name terms next =>
      rw [lower] at h
      exact read_spec h
  | term t => exact (run_throw_ne_ok.mp h).elim
  | not a =>
      simp only [lower, run_bind_eq_ok_iff, run_pure_eq_ok_iff] at h
      obtain ⟨na, f₁, ha, rfl, rfl⟩ := h
      exact (lower_spec a ha).mono fun limit ha => .not ha
  | and as =>
      simp only [lower, run_bind_eq_ok_iff, run_pure_eq_ok_iff] at h
      obtain ⟨ns, f₁, has, rfl, rfl⟩ := h
      exact (lowerAll_spec as has).mono fun limit ⟨hlen, has⟩ => .and hlen has
  | or as =>
      simp only [lower, run_bind_eq_ok_iff, run_pure_eq_ok_iff] at h
      obtain ⟨ns, f₁, has, rfl, rfl⟩ := h
      exact (lowerAll_spec as has).mono fun limit ⟨hlen, has⟩ => .or hlen has
  | implies l r =>
      simp only [lower, run_bind_eq_ok_iff, run_pure_eq_ok_iff] at h
      obtain ⟨nl, f₁, hl, nr, f₂, hr, rfl, rfl⟩ := h
      exact ((lower_spec l hl).and (lower_spec r hr)).mono fun limit ⟨hl, hr⟩ => .implies hl hr
  | equiv l r =>
      simp only [lower, run_bind_eq_ok_iff, run_pure_eq_ok_iff] at h
      obtain ⟨nl, f₁, hl, nr, f₂, hr, rfl, rfl⟩ := h
      exact ((lower_spec l hl).and (lower_spec r hr)).mono fun limit ⟨hl, hr⟩ => .equiv hl hr
  | compare op l r =>
      rw [lower] at h
      split at h
      next t u hpair =>
        obtain ⟨rfl, rfl⟩ := termPair?_eq_some hpair
        exact compareObjects_spec h
      · simp only [run_bind_eq_ok_iff, run_pure_eq_ok_iff] at h
        obtain ⟨nl, f₁, hl, nr, f₂, hr, rfl, rfl⟩ := h
        exact ((lower_spec l hl).and (lower_spec r hr)).mono fun limit ⟨hl, hr⟩ => .compare hl hr
  | arith op l r =>
      simp only [lower, run_bind_eq_ok_iff, run_pure_eq_ok_iff] at h
      obtain ⟨nl, f₁, hl, nr, f₂, hr, rfl, rfl⟩ := h
      exact ((lower_spec l hl).and (lower_spec r hr)).mono fun limit ⟨hl, hr⟩ => .arith hl hr
  | neg a =>
      simp only [lower, run_bind_eq_ok_iff, run_pure_eq_ok_iff] at h
      obtain ⟨na, f₁, ha, rfl, rfl⟩ := h
      exact (lower_spec a ha).mono fun limit ha => .neg ha
  | ite cond t e =>
      simp only [lower, run_bind_eq_ok_iff, run_pure_eq_ok_iff] at h
      obtain ⟨nc, f₁, hc, nt, f₂, ht, ne, f₃, he, rfl, rfl⟩ := h
      exact ((lower_spec cond hc).and ((lower_spec t ht).and (lower_spec e he))).mono
        fun limit ⟨hc, ht, he⟩ => .ite hc ht he
  | aggregate op vars body =>
      rw [lower] at h
      split at h
      · exact (run_throw_ne_ok.mp h).elim
      next hvars =>
        simp only [run_bind_eq_ok_iff, run_pure_eq_ok_iff] at h
        obtain ⟨⟨binders, bound'⟩, f₁, hbind, nb, f₂, hbody, rfl, rfl⟩ := h
        obtain ⟨hbinds, hle, hlen⟩ := bind_spec hbind
        have hne : vars ≠ [] := fun hnil => hvars (by rw [hnil]; rfl)
        obtain ⟨hle', hlowers⟩ := lower_spec body hbody
        refine ⟨Nat.le_trans hle hle', ?_⟩
        intro limit hlimit
        have hbound := hlen hne
        exact .aggregate hne hbinds (by omega) (hlowers limit hlimit)
  | kronDelta a =>
      simp only [lower, run_bind_eq_ok_iff, run_pure_eq_ok_iff] at h
      obtain ⟨na, f₁, ha, rfl, rfl⟩ := h
      exact (lower_spec a ha).mono fun limit ha => .kronDelta ha
  | diracDelta a =>
      simp only [lower, run_bind_eq_ok_iff, run_pure_eq_ok_iff] at h
      obtain ⟨na, f₁, ha, rfl, rfl⟩ := h
      exact (lower_spec a ha).mono fun limit ha => .diracDelta ha
  | bernoulli p =>
      simp only [lower, run_bind_eq_ok_iff, run_pure_eq_ok_iff] at h
      obtain ⟨np, f₁, hp, rfl, rfl⟩ := h
      exact (lower_spec p hp).mono fun limit hp => .bernoulli hp
  | uniform l u =>
      simp only [lower, run_bind_eq_ok_iff, run_pure_eq_ok_iff] at h
      obtain ⟨nl, f₁, hl, nu, f₂, hu, rfl, rfl⟩ := h
      exact ((lower_spec l hl).and (lower_spec u hu)).mono fun limit ⟨hl, hu⟩ => .uniform hl hu

theorem lowerAll_spec {c : Compiler} {bound : List Binding} {f f' : Footprint}
    {ns : List Node} (es : List Expr) (h : (c.lowerAll bound es).run f = .ok (ns, f')) :
    Within f f' fun limit => es.length = ns.length ∧
      ∀ p ∈ es.zip ns, Lowers c limit bound p.1 p.2 := by
  cases es with
  | nil =>
      rw [lowerAll, run_pure_eq_ok_iff] at h
      obtain ⟨rfl, rfl⟩ := h
      exact Within.refl fun limit => ⟨rfl, by simp⟩
  | cons e es =>
      simp only [lowerAll, run_bind_eq_ok_iff, run_pure_eq_ok_iff] at h
      obtain ⟨n, f₁, he, rest, f₂, hes, rfl, rfl⟩ := h
      refine ((lower_spec e he).and (lowerAll_spec es hes)).mono fun limit ⟨he, hlen, hes⟩ => ?_
      refine ⟨by rw [List.length_cons, hlen, List.length_cons], ?_⟩
      rw [List.zip_cons_cons, List.forall_mem_cons]
      exact ⟨he, hes⟩

end

/-- A compiled expression is what its source is compiled to within the slots
that it asks for, or more. -/
theorem compile_spec {params : List Binding} {e : Expr} {body : Compiled} {reads : List Nat}
    (h : c.compile params e = .ok (body, reads)) :
    params.length ≤ body.slots ∧
      ∀ limit, body.slots ≤ limit → Lowers c limit params.reverse e body.node := by
  unfold compile at h
  split at h
  · cases h
  next node f hrun =>
    cases h
    exact lower_spec e hrun

/-- A compiled expression is what its source is compiled to under as many
variables as it has parameters, which all have slots. -/
theorem exists_lowers {params : List Binding} {e : Expr} {body : Compiled} {reads : List Nat}
    (h : c.compile params e = .ok (body, reads)) :
    ∃ bound, bound.length = params.length ∧ bound.length ≤ body.slots ∧
      Lowers c body.slots bound e body.node := by
  obtain ⟨hparams, hlowers⟩ := compile_spec h
  have hlen : params.reverse.length = params.length := List.length_reverse
  exact ⟨params.reverse, hlen, hlen ▸ hparams, hlowers body.slots (Nat.le_refl _)⟩

end Compiler

/-! ## Two compilations side by side -/

/-- Two compiled expressions that ask for the same slots, have the same name in
errors, and whose trees are related. -/
structure Compiled.Alike (R : Node → Node → Prop) (body body' : Compiled) : Prop where
  node : R body.node body'.node
  slots : body.slots = body'.slots
  label : body.label = body'.label

theorem Compiler.matching_compile {c : Compiler} {R : Node → Node → Prop} {e e' : Expr}
    (h : ∀ bound, MatchingRuns R (c.lower bound e) (c.lower bound e')) (params : List Binding) :
    Matching (fun p p' => p.1.Alike R p'.1 ∧ p.2 = p'.2) (c.compile params e)
      (c.compile params e') := by
  have hrun := h params.reverse { slots := params.length, reads := [] }
  rw [compile, compile]
  generalize (c.lower params.reverse e).run _ = x, (c.lower params.reverse e').run _ = y at hrun
  cases hrun with
  | ok hrelated =>
      obtain ⟨hnode, hfootprint⟩ := hrelated
      exact .ok ⟨⟨hnode, congrArg Footprint.slots hfootprint, rfl⟩,
        congrArg Footprint.reads hfootprint⟩
  | error err => exact .error err

end LiftedPomdp
