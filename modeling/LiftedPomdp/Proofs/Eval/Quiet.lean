import LiftedPomdp.Proofs.Eval.Bindings
import LiftedPomdp.Proofs.Eval.Respecting
import LiftedPomdp.Proofs.Eval.Steady

/-!
# Evaluations that leave the random stream alone

What an expression without a coin and without a uniform real is compiled to is
evaluated with the same result from whatever place in whatever random stream, and
leaves the stream at that place.  This holds whatever the slots are, even where
there are too few of them.
-/

namespace LiftedPomdp

open Effects

/-- An evaluation that has one result and leaves one array of slots behind for
every sampler, which it leaves as it is. -/
def Eval.Quiet {α : Type} (x : Eval α) : Prop :=
  ∀ slots, ∃ r slots', ∀ sampler, x.run { slots, sampler } = (r, { slots := slots', sampler })

/-! ## Two places in random streams -/

/-- Two walks with the same slots, and with two given samplers. -/
structure Apart (s s' : Sampler) (w w' : Walk) : Prop where
  slots : w.slots = w'.slots
  left : w.sampler = s
  right : w'.sampler = s'

theorem Apart.eq_with_sampler {s s' : Sampler} {w w' : Walk} (h : Apart s s' w w') :
    w' = { w with sampler := s' } := by
  rw [h.slots, ← h.right]

/-- Slots are read and written in the same way wherever the random stream
stands. -/
theorem framed_apart (limit : Nat) (s s' : Sampler) :
    Framed limit fun _ => Apart s s' where
  slot := by
    intro _ n _
    apply Parallel.of_run_eq
    rintro w w' hapart
    unfold Eval.slot
    rw [run_bind_of_ok (rfl : (get : Eval Walk).run w = (.ok w, w)),
      run_bind_of_ok (rfl : (get : Eval Walk).run w' = (.ok w', w')), ← hapart.slots]
    cases w.slots[n]? with
    | none => exact ⟨_, rfl, rfl⟩
    | some o => exact ⟨_, rfl, rfl⟩
  setSlot := by
    intro ordinals k _
    apply Parallel.get_bind
    intro w w' hapart
    have hsize : w.slots.size = w'.slots.size := congrArg Array.size hapart.slots
    by_cases hlt : ordinals.length < w.slots.size
    · rw [dif_pos hlt, dif_pos (hsize ▸ hlt)]
      rintro u u' -
      refine ⟨.ok (), _, _, rfl, rfl, ?_, hapart.left, hapart.right⟩
      simp only [hapart.slots]
    · rw [dif_neg hlt, dif_neg (hsize ▸ hlt)]
      exact Parallel.error _ fun _ _ hend => hend
  tail := fun hapart => hapart

theorem Eval.quiet_of_respects {α : Type} {x : Eval α}
    (h : ∀ s s', Respects (Apart s s') x) : x.Quiet := by
  intro slots
  obtain ⟨r, u, _, hrun, _, hend⟩ := h (Sampler.ofSeed 0) (Sampler.ofSeed 0)
    { slots, sampler := Sampler.ofSeed 0 } _ ⟨rfl, rfl, rfl⟩
  refine ⟨r, u.slots, fun sampler => ?_⟩
  obtain ⟨r', u', u'', hrun', hother, hend'⟩ := h (Sampler.ofSeed 0) sampler
    { slots, sampler := Sampler.ofSeed 0 } { slots, sampler } ⟨rfl, rfl, rfl⟩
  obtain ⟨rfl, rfl⟩ := Prod.mk.inj (hrun.symm.trans hrun')
  rw [hother, hend'.of_same.eq_with_sampler]

/-! ## Compiled expressions -/

section Compiled

variable {c : Compiler} {limit : Nat} {bound : List Binding} {e : Expr} {n : Node}

theorem Expr.Steady.drawsRespect (h : e.Steady) (R : List Nat → Walk → Walk → Prop) :
    e.DrawsRespect R := by
  rintro p hp (hbernoulli | huniform)
  · exact absurd hbernoulli (h p hp).1
  · exact absurd huniform (h p hp).2

theorem Lowers.apart_value (hlowers : Lowers c limit bound e n) (hsteady : e.Steady)
    (context : Context) (s s' : Sampler) : Respects (Apart s s') (n.value context) :=
  hlowers.respects (framed_apart limit s s') (hsteady.drawsRespect _) context
    (List.length_map Binding.type)

/-- The distribution of an expression without coins and uniform reals is found
without a look at the random stream. -/
theorem Lowers.apart_distribution (hlowers : Lowers c limit bound e n) (hsteady : e.Steady)
    (context : Context) (s s' : Sampler) : Respects (Apart s s') (n.distribution context) :=
  hlowers.respects_distribution (framed_apart limit s s') (hsteady.drawsRespect _) context
    (List.length_map Binding.type)

end Compiled

/-- Every use of a compiled expression without coins and uniform reals leaves the
random stream alone. -/
theorem Compiler.quiet_of_compile {c : Compiler} {params : List Binding} {e : Expr}
    {body : Compiled} {reads : List Nat} (hcompile : c.compile params e = .ok (body, reads))
    (hsteady : e.Steady) (m : Model) (s : Snapshot) :
    (m.value s body).Quiet ∧ (m.truth s body).Quiet ∧ (m.real s body).Quiet ∧
      (m.distribution s body).Quiet := by
  have hlowers := (compile_spec hcompile).2 body.slots (Nat.le_refl _)
  have hvalue := hlowers.apart_value hsteady (m.context s body.label)
  refine ⟨?_, ?_, ?_, ?_⟩
  · exact Eval.quiet_of_respects hvalue
  · exact Eval.quiet_of_respects fun a b => (hvalue a b).truth
  · exact Eval.quiet_of_respects fun a b => (hvalue a b).real
  · exact Eval.quiet_of_respects (hlowers.apart_distribution hsteady _)

end LiftedPomdp
