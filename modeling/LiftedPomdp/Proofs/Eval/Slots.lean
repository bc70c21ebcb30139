import LiftedPomdp.Proofs.Eval.Bindings
import LiftedPomdp.Proofs.Eval.Respecting

/-!
# What evaluation sees of the slots

Evaluation reads no slot but those of the variables in scope, which are the
leading ones and those that it has written itself.  So from two walks that
agree on the leading slots and on the sampler it has the same result, draws the
same values, and leaves two walks behind that still agree.

Drawing from the distribution that an expression denotes is the same as
evaluating the expression.
-/

namespace LiftedPomdp

open Effects

/-! ## Two walks -/

/-- Two walks with the same leading slots and the same sampler. -/
structure Beside (ordinals : List Nat) (limit : Nat) (w w' : Walk) : Prop where
  left : Stands ordinals limit w
  right : Stands ordinals limit w'
  sampler : w.sampler = w'.sampler

namespace Beside

variable {ordinals : List Nat} {limit : Nat} {w w' : Walk}

theorem tail {k : Nat} (h : Beside (k :: ordinals) limit w w') : Beside ordinals limit w w' :=
  ⟨h.left.tail, h.right.tail, h.sampler⟩

end Beside

/-- An evaluation sees nothing but some leading slots and the sampler. -/
abbrev Local {α : Type} (ordinals : List Nat) (limit : Nat) (x : Eval α) : Prop :=
  Respects (Beside ordinals limit) x

/-- Reading a variable and bringing one into scope sees the leading slots only. -/
theorem framed_beside (limit : Nat) : Framed limit fun ordinals => Beside ordinals limit where
  slot := by
    intro ordinals s hlt
    rw [← List.length_reverse] at hlt
    apply Parallel.of_run_eq
    intro w w' hbeside
    have hslot := List.getElem?_eq_getElem hlt
    exact ⟨_, hbeside.left.run_slot hslot, hbeside.right.run_slot hslot⟩
  setSlot := by
    intro ordinals k hroom w w' hbeside
    obtain ⟨u, hset, hstands, hsampler⟩ := hbeside.left.run_setSlot hroom k
    obtain ⟨u', hset', hstands', hsampler'⟩ := hbeside.right.run_setSlot hroom k
    exact ⟨_, u, u', hset, hset', hstands, hstands', by rw [hsampler, hsampler', hbeside.sampler]⟩
  tail := fun hbeside => hbeside.tail

theorem Local.draw {ordinals : List Nat} {limit : Nat} (d : Distribution) :
    Local ordinals limit (Eval.draw d) := by
  intro w w' hbeside
  have hrun' := Eval.run_draw d w'
  rw [← hbeside.sampler] at hrun'
  have hafter : Beside ordinals limit { w with sampler := (w.sampler.sample d).2 }
      { w' with sampler := (w.sampler.sample d).2 } :=
    ⟨⟨hbeside.left.leading, hbeside.left.room⟩, ⟨hbeside.right.leading, hbeside.right.room⟩, rfl⟩
  refine ⟨_, _, _, Eval.run_draw d w, hrun', ?_⟩
  cases (w.sampler.sample d).1 with
  | error e => exact hafter
  | ok v => exact hafter

/-- A compiled expression sees nothing but the slots of the variables in scope
and the sampler. -/
theorem Lowers.local {c : Compiler} {limit : Nat} {bound : List Binding} {e : Expr} {n : Node}
    (hlowers : Lowers c limit bound e n) (context : Context) {ordinals : List Nat}
    (hlen : ordinals.length = bound.length) : Local ordinals limit (n.value context) :=
  hlowers.respects (framed_beside limit) (fun _ _ _ _ d => Local.draw d) context hlen

/-- So does the evaluation of its distribution. -/
theorem Lowers.local_distribution {c : Compiler} {limit : Nat} {bound : List Binding} {e : Expr}
    {n : Node} (hlowers : Lowers c limit bound e n) (context : Context) {ordinals : List Nat}
    (hlen : ordinals.length = bound.length) : Local ordinals limit (n.distribution context) :=
  hlowers.respects_distribution (framed_beside limit) (fun _ _ _ _ d => Local.draw d) context hlen

/-! ## Distributions -/

theorem Eval.draw_kronDelta (v : Value) : Eval.draw (.kronDelta v) = pure v :=
  rfl

/-- Drawing from the distribution of an expression is evaluating it. -/
theorem Node.distribution_bind_draw (c : Context) (n : Node) :
    n.distribution c >>= Eval.draw = n.value c := by
  fun_induction Node.distribution c n with
  | case1 a => simp only [Node.value, bind_assoc, pure_bind]
  | case2 a => simp only [Node.value, bind_assoc, pure_bind]
  | case3 p => simp only [Node.value, bind_assoc]
  | case4 l h => simp only [Node.value, bind_assoc]
  | case5 cond t e iht ihe =>
      rw [Node.value, bind_assoc]
      apply bind_congr
      intro b
      cases b with
      | true => exact iht
      | false => exact ihe
  | case6 n => simp only [bind_assoc, pure_bind, Eval.draw_kronDelta, bind_pure]

end LiftedPomdp
