import LiftedPomdp.Proofs.Ground.Grounded
import LiftedPomdp.Proofs.Ground.Mentions
import LiftedPomdp.Proofs.Ground.Parts

/-!
# What a compiled expression reads

The reads of a tree are those that the site of the expression allows: next values
and observations are read in functions of observations only, and no observation
is read in its own function.  The compilation tells exactly which observations
the tree reads, whether an evaluation would come to them or not.
-/

namespace LiftedPomdp

/-- Somewhere in a tree, a fluent is read. -/
def Node.Reads (n : Node) (fluent : Nat) : Prop :=
  ∃ kind layer args, n.Contains (.read fluent kind layer args)

/-! ## Sites -/

section Sites

variable {site : Site} {fluent : Nat} {kind : FluentKind} {next : Bool} {layer : Layer}

theorem ReadAt.layer_eq_current (h : ReadAt site fluent kind next layer)
    (hsite : ∀ p, site ≠ .observationCpf p) : layer = .current := by
  cases h with
  | nonFluent => rfl
  | action => rfl
  | state => rfl
  | nextState h => exact absurd h (hsite _)
  | observation h _ => exact absurd h (hsite _)

/-- An observation is read in the functions of the other observations only. -/
theorem ReadAt.exists_target (h : ReadAt site fluent .observation next layer) :
    ∃ p, site = .observationCpf p ∧ p ≠ fluent := by
  cases h with
  | observation h hne => exact ⟨_, h, hne⟩

end Sites

/-! ## Trees -/

section Reads

variable {c : Compiler} {limit : Nat} {bound : List Binding} {e : Expr} {n : Node}

/-- Every read of the tree has the kind and the arguments that its fluent is
declared with, and it may be made at the site. -/
theorem Lowers.readAt_of_contains (h : Lowers c limit bound e n) (hroom : bound.length ≤ limit)
    {fluent : Nat} {kind : FluentKind} {layer : Layer} {args : List Arg}
    (hread : n.Contains (.read fluent kind layer args)) :
    ∃ b next, c.scope.blocks[fluent]? = some b ∧ kind = b.kind ∧
      args.length = b.params.length ∧ ReadAt c.site fluent kind next layer := by
  obtain ⟨_, _, _, _, _, hlowers⟩ := h.exists_source hroom hread
  cases hlowers with
  | read _ block readable arguments =>
      exact ⟨_, _, block, rfl, arguments.length_eq, readable⟩

/-- An observation that is read in the tree is read in the function of another
one. -/
theorem Lowers.exists_target (h : Lowers c limit bound e n) (hroom : bound.length ≤ limit)
    {fluent : Nat} (hobservation : c.scope.IsObservation fluent) (hread : n.Reads fluent) :
    ∃ p, c.site = .observationCpf p ∧ p ≠ fluent := by
  obtain ⟨b, hb, hkind⟩ := hobservation
  obtain ⟨_, _, _, hread⟩ := hread
  obtain ⟨b', _, hb', rfl, _, hat⟩ := h.readAt_of_contains hroom hread
  obtain rfl := Option.some.inj (hb.symm.trans hb')
  rw [hkind] at hat
  exact hat.exists_target

/-- The fluents that are read in the tree are those that the parts of the
expression name. -/
theorem Lowers.reads_iff (h : Lowers c limit bound e n) (hroom : bound.length ≤ limit)
    {fluent : Nat} : n.Reads fluent ↔ ∃ name terms next, .fluent name terms next ∈ e.parts ∧
      c.scope.fluent? name = some fluent := by
  constructor
  · rintro ⟨_, _, _, hread⟩
    obtain ⟨_, hpart, _, _, _, hlowers⟩ := h.exists_source hroom hread
    cases hlowers with
    | read fluent_eq _ _ _ => exact ⟨_, _, _, hpart, fluent_eq⟩
  · rintro ⟨name, terms, next, hpart, hfluent⟩
    obtain ⟨a, ha, _, hlowers⟩ := h.exists_image hroom hpart nofun
    cases hlowers with
    | read fluent_eq _ _ _ =>
        obtain rfl := Option.some.inj (fluent_eq.symm.trans hfluent)
        exact ⟨_, _, _, ha⟩

end Reads

/-! ## Compilation -/

namespace Compiler

variable {c : Compiler} {params : List Binding} {e : Expr} {body : Compiled} {reads : List Nat}

/-- The observations that a compilation notes are those that the tree reads. -/
theorem mem_reads_iff (h : c.compile params e = .ok (body, reads)) {k : Nat} :
    k ∈ reads ↔ c.scope.IsObservation k ∧ body.node.Reads k := by
  obtain ⟨_, _, hroom, hlowers⟩ := exists_lowers h
  rw [(compile_noted h).mem_iff, hlowers.reads_iff hroom]
  constructor
  · rintro (hk | ⟨p, hp, hobserves⟩)
    · exact absurd hk List.not_mem_nil
    · cases p with
      | fluent name terms next => exact ⟨hobserves.2, name, terms, next, hp, hobserves.1⟩
      | _ => exact hobserves.elim
  · rintro ⟨hobservation, name, terms, next, hp, hfluent⟩
    exact .inr ⟨_, hp, hfluent, hobservation⟩

/-- Each read of a compiled expression has the kind of its fluent and as many
arguments as the fluent has parameters.  In the function of an observation, the
observation itself is not read, and the compilation tells exactly which others
are, in ascending order.  Elsewhere only current values are read, no observation
is read, and the compilation tells of none. -/
theorem compile_visible (h : c.compile params e = .ok (body, reads)) :
    (∀ fluent kind layer args, body.node.Contains (.read fluent kind layer args) →
      ∃ b, c.scope.blocks[fluent]? = some b ∧ kind = b.kind ∧ args.length = b.params.length) ∧
    (∀ p, c.site = .observationCpf p →
      (c.scope.IsObservation p → ¬body.node.Reads p) ∧ reads.Pairwise (· < ·) ∧
        ∀ k, k ∈ reads ↔ c.scope.IsObservation k ∧ body.node.Reads k) ∧
    ((∀ p, c.site ≠ .observationCpf p) →
      (∀ fluent kind layer args, body.node.Contains (.read fluent kind layer args) →
        layer = .current) ∧
      (∀ k, c.scope.IsObservation k → ¬body.node.Reads k) ∧ reads = []) := by
  obtain ⟨_, _, hroom, hlowers⟩ := exists_lowers h
  refine ⟨fun fluent kind layer args hread => ?_, fun p hsite => ?_, fun hsite => ?_⟩
  · obtain ⟨b, _, hb, hkind, harity, _⟩ := hlowers.readAt_of_contains hroom hread
    exact ⟨b, hb, hkind, harity⟩
  · refine ⟨fun hobservation hread => ?_, (compile_noted h).ascends .nil, fun k => mem_reads_iff h⟩
    obtain ⟨target, htarget, hne⟩ := hlowers.exists_target hroom hobservation hread
    cases hsite.symm.trans htarget
    exact hne rfl
  · have hnone : ∀ k, c.scope.IsObservation k → ¬body.node.Reads k := fun k hk hread => by
      obtain ⟨p, hp, _⟩ := hlowers.exists_target hroom hk hread
      exact hsite p hp
    refine ⟨fun fluent kind layer args hread => ?_, hnone, ?_⟩
    · obtain ⟨_, _, _, _, _, hat⟩ := hlowers.readAt_of_contains hroom hread
      exact hat.layer_eq_current hsite
    · refine List.eq_nil_iff_forall_not_mem.mpr fun k hk => ?_
      obtain ⟨hobservation, hread⟩ := (mem_reads_iff h).mp hk
      exact hnone k hobservation hread

/-- The function of `seen-any` reads the rooms even where it asks for them only
in the branch that is never taken.  The reward reads no observation. -/
theorem compile_visible_lamps :
    let c : Compiler := { scope := Lamps.scope, site := .observationCpf 5, label := "seen-any" }
    let c' : Compiler := { scope := Lamps.scope, site := .reward, label := "reward" }
    let anySeen : Expr :=
      .aggregate .exists [{ var := "r", typeName := "room" }] (.fluent "seen" [.var "r"] false)
    let e : Expr := .bernoulli (.ite (.const (.bool true)) (.const (.real 0.5)) anySeen)
    (∃ body, c.compile [] e = .ok (body, [4]) ∧ Lamps.scope.IsObservation 5 ∧
      body.node.Reads 4 ∧ ¬body.node.Reads 5) ∧
    c'.compile [] Lamps.domain.reward = .ok Lamps.rewardCompiled ∧
      (∀ k, Lamps.scope.IsObservation k → ¬Lamps.rewardCompiled.1.node.Reads k) ∧
      Lamps.rewardCompiled.2 = [] := by
  intro c c' anySeen e
  constructor
  · have hsome : (c.compile [] e).toOption.isSome = true := by decide +kernel
    obtain ⟨body, reads, hcompile⟩ : ∃ body reads, c.compile [] e = .ok (body, reads) :=
      ⟨_, _, Lamps.eq_ok_resultOf hsome⟩
    have hnoted : (c.compile [] e).toOption.map (·.2) = some [4] := by decide +kernel
    obtain rfl : reads = [4] := by
      rw [hcompile] at hnoted
      exact Option.some.inj hnoted
    have hobservation : Lamps.scope.IsObservation 5 :=
      Option.map_eq_some_iff.mp (by decide +kernel :
        Lamps.scope.blocks[5]?.map (·.kind) = some .observation)
    obtain ⟨_, hown, _⟩ := compile_visible hcompile
    obtain ⟨hself, _, hreads⟩ := hown 5 rfl
    exact ⟨body, hcompile, hobservation, ((hreads 4).mp List.mem_cons_self).2,
      hself hobservation⟩
  · have hreward : c'.compile [] Lamps.domain.reward = .ok Lamps.rewardCompiled :=
      Lamps.eq_ok_resultOf _
    obtain ⟨_, _, helsewhere⟩ := compile_visible hreward
    obtain ⟨_, hnone, hempty⟩ := helsewhere nofun
    exact ⟨hreward, hnone, hempty⟩

end Compiler
end LiftedPomdp
