import LiftedPomdp.Proofs.Eval.Reading
import LiftedPomdp.Proofs.Eval.Refinement
import LiftedPomdp.Proofs.Eval.Slots

/-!
# Distributions on two snapshots

A compiled expression denotes the same distribution on two snapshots that
agree on all that its source names, and the random stream is left at the same
place.  Its value does so because on either snapshot it refines one meaning,
and the distribution at the root is put together from such values.
-/

namespace LiftedPomdp

open Effects

/-- Two evaluations have the same result, and leave the same sampler, from
walks that agree on some leading slots and on the sampler. -/
abbrev Concur {α : Type} (ordinals : List Nat) (limit : Nat) (x x' : Eval α) : Prop :=
  Parallel (Beside ordinals limit) x x' (Beside ordinals limit) fun w w' =>
    w.sampler = w'.sampler

namespace Concur

variable {α β : Type} {ordinals : List Nat} {limit : Nat}

theorem value (a : α) : Concur ordinals limit (pure a) (pure a) :=
  Parallel.value a fun _ _ hbeside => hbeside

theorem error (e : Fault DomainError) : Concur ordinals limit (throw e : Eval α) (throw e) :=
  Parallel.error e fun _ _ hbeside => hbeside.sampler

theorem bind {x x' : Eval α} {f f' : α → Eval β} (hx : Concur ordinals limit x x')
    (hf : ∀ a, Concur ordinals limit (f a) (f' a)) :
    Concur ordinals limit (x >>= f) (x' >>= f') :=
  Parallel.bind hx hf

theorem of_refines {x x' : Eval α} {y : Meaning α} (hx : Refines ordinals limit x y)
    (hx' : Refines ordinals limit x' y) : Concur ordinals limit x x' := by
  intro w w' hbeside
  obtain ⟨r, u, s, hrun, hmeaning, hend⟩ := hx w w.sampler ⟨hbeside.left, rfl⟩
  obtain ⟨r', u', s', hrun', hmeaning', hend'⟩ :=
    hx' w' w.sampler ⟨hbeside.right, hbeside.sampler.symm⟩
  obtain ⟨rfl, rfl⟩ := Prod.mk.inj (hmeaning.symm.trans hmeaning')
  refine ⟨r, u, u', hrun, hrun', ?_⟩
  cases r with
  | error e => exact hend.trans hend'.symm
  | ok a => exact ⟨hend.1, hend'.1, hend.2.trans hend'.2.symm⟩

theorem real {c c' : Context} {x x' : Eval Value} (hx : Concur ordinals limit x x') :
    Concur ordinals limit (c.real x) (c'.real x') :=
  hx.bind fun v => value v.toReal

variable {c c' : Context} (hlabel : c.label = c'.label)

include hlabel

theorem truth {x x' : Eval Value} (hx : Concur ordinals limit x x') :
    Concur ordinals limit (c.truth x) (c'.truth x') := by
  refine hx.bind fun v => ?_
  cases v.truth? with
  | some b => exact value b
  | none =>
      rw [hlabel]
      exact error _

theorem coin (p : Float) : Concur ordinals limit (c.coin p) (c'.coin p) := by
  unfold Context.coin
  rw [hlabel]
  cases Distribution.coin c'.label p with
  | ok d => exact value d
  | error e => exact error _

theorem interval (low high : Float) :
    Concur ordinals limit (c.interval low high) (c'.interval low high) := by
  unfold Context.interval
  rw [hlabel]
  cases Distribution.interval c'.label low high with
  | ok d => exact value d
  | error e => exact error _

end Concur

/-! ## Compiled expressions -/

namespace Lowers

variable {d : Domain} {i : Instance} {m : Model} {c : Compiler} {s s' : Snapshot}
  {label : String} {bound : List Binding} {ordinals : List Nat} {env : Environment}
  {limit : Nat} {e : Expr} {n : Node}

theorem concur_value (h : Grounded d i m) (hscope : c.scope = m.scope)
    (hfits : s.FitsSite m c.site) (hfits' : s'.FitsSite m c.site)
    (hlowers : Lowers c limit bound e n) (henv : Denotes m.types bound ordinals env)
    (hagree : ∀ p ∈ e.parts, (m.world s label).AgreesAt (m.world s' label) p) :
    Concur ordinals limit (n.value (m.context s label)) (n.value (m.context s' label)) := by
  have hleft : Refines ordinals limit (n.value (m.context s label))
      (e.meaning (m.world s label) env) := hlowers.refines h hscope hfits henv
  have hright : Refines ordinals limit (n.value (m.context s' label))
      (e.meaning (m.world s' label) env) := hlowers.refines h hscope hfits' henv
  rw [Expr.meaning_congr (m.akin_world s s' label) env e hagree] at hleft
  exact Concur.of_refines hleft hright

/-- A compiled expression denotes the same distribution on snapshots that agree
on all that its source names. -/
theorem concur_distribution (h : Grounded d i m) (hscope : c.scope = m.scope)
    (hfits : s.FitsSite m c.site) (hfits' : s'.FitsSite m c.site)
    (hlowers : Lowers c limit bound e n) (henv : Denotes m.types bound ordinals env)
    (hagree : ∀ p ∈ e.parts, (m.world s label).AgreesAt (m.world s' label) p) :
    Concur ordinals limit (n.distribution (m.context s label))
      (n.distribution (m.context s' label)) := by
  have hlabel : (m.context s label).label = (m.context s' label).label := rfl
  have hvalue : ∀ {e n}, Lowers c limit bound e n →
      (∀ p ∈ e.parts, (m.world s label).AgreesAt (m.world s' label) p) →
        Concur ordinals limit (n.value (m.context s label)) (n.value (m.context s' label)) :=
    fun hlowers hagree => hlowers.concur_value h hscope hfits hfits' henv hagree
  fun_induction Node.distribution (m.context s label) n generalizing e with
  | case1 a =>
      cases hlowers with
      | kronDelta arg =>
          rw [Expr.parts, List.forall_mem_cons] at hagree
          exact (hvalue arg hagree.2).bind fun v => Concur.value _
  | case2 a =>
      cases hlowers with
      | diracDelta arg =>
          rw [Expr.parts, List.forall_mem_cons] at hagree
          exact (hvalue arg hagree.2).real.bind fun x => Concur.value _
  | case3 p =>
      cases hlowers with
      | bernoulli arg =>
          rw [Expr.parts, List.forall_mem_cons] at hagree
          exact (hvalue arg hagree.2).real.bind fun p => Concur.coin hlabel p
  | case4 l u =>
      cases hlowers with
      | uniform low high =>
          rw [Expr.parts, List.forall_mem_cons, List.forall_mem_append] at hagree
          exact (hvalue low hagree.2.1).real.bind fun l =>
            (hvalue high hagree.2.2).real.bind fun u => Concur.interval hlabel l u
  | case5 cond t e iht ihe =>
      cases hlowers with
      | ite condition thenBranch elseBranch =>
          rw [Expr.parts, List.forall_mem_cons, List.forall_mem_append, List.forall_mem_append]
            at hagree
          refine (Concur.truth hlabel (hvalue condition hagree.2.1.1)).bind fun b => ?_
          cases b with
          | true => exact iht thenBranch hagree.2.1.2
          | false => exact ihe elseBranch hagree.2.2
  | case6 n hkron hdirac hbernoulli huniform hite =>
      have hright : n.distribution (m.context s' label) = (do
          let v ← n.value (m.context s' label)
          return .kronDelta v) := by
        rw [Node.distribution]
        · exact hkron
        · exact hdirac
        · exact hbernoulli
        · exact huniform
        · exact hite
      rw [hright]
      exact (hvalue hlowers hagree).bind fun v => Concur.value _

end Lowers
end LiftedPomdp
