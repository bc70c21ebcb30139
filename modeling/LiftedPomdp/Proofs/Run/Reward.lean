import LiftedPomdp.Proofs.Eval.Quiet
import LiftedPomdp.Proofs.Run.Transition

/-!
# Rewards without distributions

Where no distribution occurs in an expression, what it is compiled to neither
looks at the random stream nor moves on in it.  So if none occurs in the reward of
a domain, the reward of a step that succeeds depends on the committed state before
the step and on the action alone, whatever was drawn for the next state and the
observations.
-/

namespace LiftedPomdp

open Effects Grounding

namespace Grounded

variable {d : Domain} {i : Instance} {m : Model}

/-- The compiled reward has the value that the declared one means, whatever the
slots hold and wherever the random stream stands. -/
theorem run_reward (h : Grounded d i m) (hsteady : d.reward.Steady) {s : Snapshot}
    (hfits : s.Fits m) {v : Value} {t t' : Sampler}
    (hmeaning : (d.reward.meaning (m.world s m.reward.label) []).run t = (.ok v, t'))
    {walk : Walk} (hroom : m.maxSlots ≤ walk.slots.size) :
    ∃ slots, (m.real s m.reward).run walk = (.ok v.toReal, { walk with slots }) := by
  obtain ⟨reads, hcompile⟩ := h.reward
  have hslots : m.reward.slots ≤ m.maxSlots :=
    Model.slots_le_maxSlots (List.mem_append_right _ List.mem_cons_self)
  have himplements : m.Implements False m.reward d.reward [] [] :=
    Model.implements_of_compile h hcompile (fun _ htarget => by cases htarget) .nil
  obtain ⟨r, u, hvalue, hmeaning'⟩ := himplements s walk hfits False.elim List.nil_prefix
    (Nat.le_trans hslots hroom)
  obtain ⟨r', hr'⟩ := Expr.meaning_steady (m.world s m.reward.label) [] d.reward hsteady
  obtain ⟨rfl, -⟩ := Prod.mk.inj (hmeaning.symm.trans (hr' t))
  obtain ⟨rfl, hsampler⟩ := Prod.mk.inj (hmeaning'.symm.trans (hr' walk.sampler))
  have hreal : (m.real s m.reward).run walk = (.ok v.toReal, u) := run_bind_of_ok hvalue
  refine ⟨u.slots, ?_⟩
  rw [hreal, ← hsampler]

end Grounded

namespace Model

/-- Expressions without distributions are independent of the random stream.  The
value, the truth value, the real value and the distribution of what such an
expression is compiled to are the same for every sampler, which is left as it is,
whatever the tables and the slots hold.  If no distribution occurs in the reward of
a domain, then the reward of a committed step is a function of the committed state
before it and of the resolved action alone, for engines of all configurations,
seeds and histories: it is what the compiled reward evaluates to there, from
whatever walk. -/
theorem independent_of_stream :
    (∀ (c : Compiler) (params : List Binding) (e : Expr) (body : Compiled) (reads : List Nat),
      e.hasDistribution = false → c.compile params e = .ok (body, reads) →
        ∀ (m : Model) (s : Snapshot), (m.value s body).Quiet ∧ (m.truth s body).Quiet ∧
          (m.real s body).Quiet ∧ (m.distribution s body).Quiet) ∧
    ∀ (d : Domain) (i : Instance) (m : Model), Model.ground d i = .ok m →
      d.reward.hasDistribution = false →
        ∃ rewardOf : Table → Table → Float,
          ∀ (c : EngineConfig) (e : Engine) (a : Action) (t : Transition),
            Engine.Reachable m c e → (e.step a).1 = .ok t →
              ∃ action, a.resolve m = .ok action ∧ t.reward = rewardOf e.current action ∧
                ∀ walk : Walk, m.maxSlots ≤ walk.slots.size → ∃ slots,
                  (m.real (.current m.nonFluents e.current action) m.reward).run walk =
                    (.ok t.reward, { walk with slots }) := by
  constructor
  · intro c params e body reads hpure hcompile m s
    exact Compiler.quiet_of_compile hcompile (Expr.steady_of_hasDistribution hpure) m s
  · intro d i m hground hpure
    have h := grounded_of_ground hground
    have hsteady := Expr.steady_of_hasDistribution hpure
    let blank : Walk :=
      { slots := Array.replicate m.maxSlots 0, sampler := Sampler.ofSeed 0 }
    let rewardOf := fun state action : Table =>
      match ((m.real (.current m.nonFluents state action) m.reward).run blank).1 with
      | .ok reward => reward
      | .error _ => 0
    refine ⟨rewardOf, ?_⟩
    intro c e a t he hstep
    obtain ⟨action, hresolve, htransits⟩ := Engine.exists_transits h he hstep
    obtain ⟨v, s, s', hmeaning, hv⟩ := htransits.rewarded
    have hfits := h.fits_current (Engine.typed_of_reachable h he).current.size_eq
      (Action.typed_of_resolve h hresolve).size_eq
    have hrun : ∀ walk : Walk, m.maxSlots ≤ walk.slots.size → ∃ slots,
        (m.real (.current m.nonFluents e.current action) m.reward).run walk =
          (.ok t.reward, { walk with slots }) := by
      intro walk hroom
      rw [← hv]
      exact h.run_reward hsteady hfits hmeaning hroom
    obtain ⟨slots, hblank⟩ := hrun blank Array.size_replicate.ge
    refine ⟨action, hresolve, ?_, hrun⟩
    simp only [rewardOf, hblank]

/-- The reward of the lamps leaves the random stream alone, and when the lamps are
left alone under two seeds, it is the same both times. -/
theorem independent_of_stream_lamps :
    Lamps.domain.reward.hasDistribution = false ∧
      (∀ s, (Lamps.model.real s Lamps.model.reward).Quiet) ∧
        EngineConfig.standard.validate = .ok () ∧
          ∃ e, Engine.create Lamps.model .standard = .ok e ∧
            ∃ t t', ((e.reset 7).step Action.noop).1 = .ok t ∧
              ((e.reset 8).step Action.noop).1 = .ok t' ∧ t.reward = t'.reward := by
  have hpure : Lamps.domain.reward.hasDistribution = false := by decide +kernel
  have hquiet : ∀ s, (Lamps.model.real s Lamps.model.reward).Quiet := by
    intro s
    obtain ⟨reads, hcompile⟩ := Lamps.grounded.reward
    exact (independent_of_stream.1 _ _ _ _ _ hpure hcompile Lamps.model s).2.2.1
  have hc : EngineConfig.standard.validate = .ok () := by decide +kernel
  obtain ⟨e, he⟩ := Engine.exists_create Lamps.model hc
  have hok : ((e.reset 7).step Action.noop).1.isOk = true ∧
      ((e.reset 8).step Action.noop).1.isOk = true ∧
        (e.reset 7).current = (e.reset 8).current := by
    have hcreate := he
    cases hcreate
    decide +kernel
  obtain ⟨hseven, height, hsame⟩ := hok
  have hexists : ∀ {x : Except (Fault SimError) Transition}, x.isOk = true → ∃ t, x = .ok t := by
    rintro (f | t) hx
    · cases hx
    · exact ⟨t, rfl⟩
  obtain ⟨t, ht⟩ := hexists hseven
  obtain ⟨t', ht'⟩ := hexists height
  have hcreated := Engine.Reachable.create he
  obtain ⟨rewardOf, hreward⟩ := independent_of_stream.2 _ _ _ Lamps.ground_eq hpure
  obtain ⟨action, hresolve, hr, -⟩ := hreward _ _ _ _ (hcreated.reset 7) ht
  obtain ⟨action', hresolve', hr', -⟩ := hreward _ _ _ _ (hcreated.reset 8) ht'
  obtain rfl := Except.ok.inj (hresolve.symm.trans hresolve')
  refine ⟨hpure, hquiet, hc, e, he, t, t', ht, ht', ?_⟩
  rw [hr, hr', hsame]

end Model
end LiftedPomdp
