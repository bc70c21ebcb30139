import LiftedPomdp.Proofs.Eval.Truth

/-!
# Totals of reals

A sum over the objects of a type starts from the integer zero and becomes a real
with the first real that is added.  Where all terms are reals, its real value is
the total of them, added in the order of the objects.
-/

namespace LiftedPomdp

open Effects Grounding

/-- A value is a real with a property. -/
def Value.IsReal (P : Float → Prop) (v : Value) : Prop :=
  ∃ x, v = .real x ∧ P x

/-- Adding a real to a value gives a real. -/
theorem Value.arith?_add_real (v : Value) (x : Float) :
    Value.arith? .add v (.real x) = some (.real (v.toReal + x)) := by
  cases v <;> rfl

namespace Meaning.Returns

variable {w : World} {env : Environment} {body : Environment → Meaning Value} {var : String}
  {P : String → Float → Prop}

/-- Real values are added one after the other. -/
theorem addObjects (hbody : ∀ o, (body ((var, o) :: env)).Returns (Value.IsReal (P o)))
    (os : List String) (acc : Value) :
    (Meaning.overObjects (fun o acc => w.combine body .sum ((var, o) :: env) acc) os acc).Returns
      fun r => ∃ total xs, r = .yield total ∧ List.Forall₂ P os xs ∧
        total.toReal = xs.foldl (· + ·) acc.toReal := by
  induction os generalizing acc with
  | nil => exact Keeps.value ⟨acc, [], rfl, .nil, rfl⟩
  | cons o os ih =>
      have hstep : (w.combine body .sum ((var, o) :: env) acc).Returns fun r =>
          ∃ x, r = .yield (.real (acc.toReal + x)) ∧ P o x := by
        refine Keeps.bind (hbody o) ?_
        rintro _ ⟨x, rfl, hx⟩
        rw [World.arith, Value.arith?_add_real]
        exact Keeps.value ⟨x, rfl, hx⟩
      refine Keeps.bind hstep ?_
      rintro _ ⟨x, rfl, hx⟩
      refine (ih (.real (acc.toReal + x))).mono ?_
      rintro r ⟨total, xs, hr, hxs, htotal⟩
      exact ⟨total, x :: xs, hr, .cons hx hxs, htotal⟩

/-- The sum of real values over the objects of a type is their total. -/
theorem sumOver (hbody : ∀ o, (body ((var, o) :: env)).Returns (Value.IsReal (P o)))
    {type : String} {os : List String} (hos : w.objects? type = some os) :
    (w.aggregate env .sum [{ var, typeName := type }] body).Returns fun v =>
      ∃ xs, List.Forall₂ P os xs ∧ v.toReal = xs.foldl (· + ·) 0 := by
  have hall : (w.overBindings (w.combine body .sum) [{ var, typeName := type }] env
      (Context.start .sum)).Returns fun r => ∃ total xs, r = .yield total ∧ List.Forall₂ P os xs ∧
        total.toReal = xs.foldl (· + ·) 0 := by
    refine Keeps.bind (refer type (w.objects? type)) fun os' hos' => ?_
    obtain rfl := Option.some.inj (hos.symm.trans hos')
    exact addObjects hbody os (Context.start .sum)
  refine Keeps.bind hall ?_
  rintro _ ⟨total, xs, rfl, hxs, htotal⟩
  exact Keeps.value ⟨xs, hxs, htotal⟩

end Meaning.Returns
end LiftedPomdp
