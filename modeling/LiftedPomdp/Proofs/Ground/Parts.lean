import LiftedPomdp.Proofs.Definition.Expr
import LiftedPomdp.Proofs.Ground.Lowering
import Mathlib.Logic.Relation

/-!
# The parts of a compiled expression

The tree that an expression is compiled to has the form of the expression, but
for comparisons of objects, whose two terms are not nodes of the tree.  So each
node of the tree was compiled from a part of the expression, and each part that
is not a term was compiled to a node of the tree.  The variables in scope at a
node are those around the tree and those of the aggregates around the node.
-/

namespace LiftedPomdp

open Effects Relation

namespace Node

/-- The nodes that a node is directly made of. -/
def operands : Node → List Node
  | .const _ | .read _ _ _ _ | .sameObject _ _ _ => []
  | .not a | .neg a | .kronDelta a | .diracDelta a | .bernoulli a | .aggregate _ _ a => [a]
  | .and as | .or as => as
  | .implies l r | .equiv l r | .compare _ l r | .arith _ l r | .uniform l r => [l, r]
  | .ite c t e => [c, t, e]

/-- A node occurs in a tree, whether an evaluation of the tree comes to it or
not. -/
abbrev Contains : Node → Node → Prop :=
  ReflTransGen fun n a => a ∈ n.operands

end Node

/-! ## Operands -/

/-- Each of some nodes was compiled from one of some expressions, and each of the
expressions that is not a term was compiled to one of the nodes. -/
structure Matched (c : Compiler) (limit : Nat) (bound : List Binding) (es : List Expr)
    (ns : List Node) : Prop where
  source : ∀ n ∈ ns, ∃ e ∈ es, Lowers c limit bound e n
  image : ∀ e ∈ es, (∃ t, e = .term t) ∨ ∃ n ∈ ns, Lowers c limit bound e n

section Parts

variable {c : Compiler} {limit : Nat} {bound : List Binding} {e : Expr} {n : Node}

theorem matched_of_forall₂ {es : List Expr} {ns : List Node}
    (h : List.Forall₂ (Lowers c limit bound) es ns) : Matched c limit bound es ns where
  source := fun _ hn => exists_of_mem_of_forall₂ h.flip hn
  image := fun _ he => .inr (exists_of_mem_of_forall₂ h he)

theorem forall₂_of_zip {es : List Expr} {ns : List Node} (hlen : es.length = ns.length)
    (h : ∀ p ∈ es.zip ns, Lowers c limit bound p.1 p.2) :
    List.Forall₂ (Lowers c limit bound) es ns :=
  List.forall₂_iff_zip.mpr ⟨hlen, fun hp => h _ hp⟩

/-- The operands of an expression and of the node that it was compiled to match
under the variables in scope at them, which have slots. -/
theorem Lowers.matched (h : Lowers c limit bound e n) (hroom : bound.length ≤ limit) :
    ∃ bound', bound.length ≤ bound'.length ∧ bound'.length ≤ limit ∧
      Matched c limit bound' e.operands n.operands := by
  -- Only the body of an aggregate has further variables in scope.
  have hsame (hoperands : List.Forall₂ (Lowers c limit bound) e.operands n.operands) :
      ∃ bound', bound.length ≤ bound'.length ∧ bound'.length ≤ limit ∧
        Matched c limit bound' e.operands n.operands :=
    ⟨bound, Nat.le_refl _, hroom, matched_of_forall₂ hoperands⟩
  have hterms (l r : Term) : Matched c limit bound [.term l, .term r] [] :=
    ⟨nofun, by simp⟩
  cases h with
  | const => exact hsame .nil
  | read => exact hsame .nil
  | same => exact ⟨bound, Nat.le_refl _, hroom, hterms _ _⟩
  | differ => exact ⟨bound, Nat.le_refl _, hroom, hterms _ _⟩
  | not arg => exact hsame (.cons arg .nil)
  | and length args => exact hsame (forall₂_of_zip length args)
  | or length args => exact hsame (forall₂_of_zip length args)
  | implies left right => exact hsame (.cons left (.cons right .nil))
  | equiv left right => exact hsame (.cons left (.cons right .nil))
  | compare left right => exact hsame (.cons left (.cons right .nil))
  | arith left right => exact hsame (.cons left (.cons right .nil))
  | neg arg => exact hsame (.cons arg .nil)
  | ite condition thenBranch elseBranch =>
      exact hsame (.cons condition (.cons thenBranch (.cons elseBranch .nil)))
  | @aggregate _ bound' _ _ _ _ _ _ binds within body =>
      have hlen := binds.length_eq
      exact ⟨bound', by omega, within, matched_of_forall₂ (.cons body .nil)⟩
  | kronDelta arg => exact hsame (.cons arg .nil)
  | diracDelta arg => exact hsame (.cons arg .nil)
  | bernoulli arg => exact hsame (.cons arg .nil)
  | uniform low high => exact hsame (.cons low (.cons high .nil))

/-! ## Parts -/

/-- Every node of the tree was compiled from a part of the expression, under the
variables around the tree and further ones, which all have slots. -/
theorem Lowers.exists_source (h : Lowers c limit bound e n) (hroom : bound.length ≤ limit)
    {p : Node} (hp : n.Contains p) :
    ∃ e' ∈ e.parts, ∃ bound', bound.length ≤ bound'.length ∧ bound'.length ≤ limit ∧
      Lowers c limit bound' e' p := by
  induction hp using ReflTransGen.head_induction_on generalizing e bound with
  | refl => exact ⟨e, Expr.mem_parts_iff.mpr (.inl rfl), bound, Nat.le_refl _, hroom, h⟩
  | head ha _ ih =>
      obtain ⟨bound₁, hle, hroom₁, hmatched⟩ := h.matched hroom
      obtain ⟨e₁, he₁, hlowers₁⟩ := hmatched.source _ ha
      obtain ⟨e', he', bound', hle', hroom', hlowers'⟩ := ih hlowers₁ hroom₁
      exact ⟨e', Expr.mem_parts_iff.mpr (.inr ⟨e₁, he₁, he'⟩), bound', Nat.le_trans hle hle',
        hroom', hlowers'⟩

/-- Every part of the expression that is not a term was compiled to a node of the
tree. -/
theorem Lowers.exists_image (h : Lowers c limit bound e n) (hroom : bound.length ≤ limit)
    {p : Expr} (hp : p ∈ e.parts) (hterm : ∀ t, p ≠ .term t) :
    ∃ a, n.Contains a ∧ ∃ bound', Lowers c limit bound' p a := by
  induction e using Expr.operands_induction generalizing bound n with
  | h e ih =>
      rcases Expr.mem_parts_iff.mp hp with rfl | ⟨a, ha, hpart⟩
      · exact ⟨n, .refl, bound, h⟩
      · obtain ⟨bound₁, _, hroom₁, hmatched⟩ := h.matched hroom
        rcases hmatched.image a ha with ⟨t, rfl⟩ | ⟨b, hb, hlowers⟩
        · exact absurd (List.mem_singleton.mp hpart) (hterm t)
        · obtain ⟨node, hnode, hsource⟩ := ih a ha hlowers hroom₁ hpart
          exact ⟨node, .head hb hnode, hsource⟩

end Parts
end LiftedPomdp
