import LiftedPomdp.Definition.Expr

/-!
# The operands of expressions

The parts of an expression are the expression itself and the parts of its
operands, so that what is to be shown of all parts can be shown by induction on
the operands.
-/

namespace LiftedPomdp

namespace Expr

/-- The expressions that an expression is directly made of. -/
def operands : Expr → List Expr
  | .const _ | .fluent _ _ _ | .term _ => []
  | .not a | .neg a | .kronDelta a | .diracDelta a | .bernoulli a | .aggregate _ _ a => [a]
  | .and as | .or as => as
  | .implies l r | .equiv l r | .compare _ l r | .arith _ l r | .uniform l r => [l, r]
  | .ite c t e => [c, t, e]

theorem partsOfAll_eq (es : List Expr) : partsOfAll es = es.flatMap parts := by
  induction es with
  | nil => rfl
  | cons e es ih => rw [partsOfAll, ih, List.flatMap_cons]

theorem mem_parts_iff {p e : Expr} : p ∈ e.parts ↔ p = e ∨ ∃ a ∈ e.operands, p ∈ a.parts := by
  cases e <;> simp [parts, operands, partsOfAll_eq]

theorem sizeOf_lt_of_mem_operands {a e : Expr} (ha : a ∈ e.operands) : sizeOf a < sizeOf e := by
  cases e <;> simp only [operands, List.mem_cons, List.not_mem_nil, or_false] at ha
  case and as =>
    have hlt := List.sizeOf_lt_of_mem ha
    simp only [and.sizeOf_spec]
    omega
  case or as =>
    have hlt := List.sizeOf_lt_of_mem ha
    simp only [or.sizeOf_spec]
    omega
  all_goals
    rcases ha with rfl | rfl | rfl <;> simp +arith

/-- What holds of an expression whenever it holds of its operands holds of all
expressions. -/
theorem operands_induction {motive : Expr → Prop}
    (h : ∀ e, (∀ a ∈ e.operands, motive a) → motive e) (e : Expr) : motive e :=
  h e fun a _ => operands_induction h a
termination_by e
decreasing_by exact sizeOf_lt_of_mem_operands ‹_›

end Expr
end LiftedPomdp
