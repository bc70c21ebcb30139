import LiftedPomdp.Proofs.Eval.Truth
import LiftedPomdp.Proofs.Run.Ledger
import LiftedPomdp.Proofs.Run.ObservationPhase

/-!
# Transitions of the committed state

A step that succeeds leads from the committed state to one whose values were
each drawn as the domain declares, from the state before the step and the
action alone, and its reward is what the reward of the domain means there.
`Model.Transits` records this, and facts about all states of all runs follow
from it by induction: what holds at the start and passes from one side of
every transition to the other holds in every reachable state.

The observations that a step returns were drawn likewise, from the new state,
the action and the observations themselves, of which each function sees only
those drawn before it.
-/

namespace LiftedPomdp

open Effects Grounding

/-! ## Transitions -/

/-- Every value of the table of a kind of fluents was drawn as the domain
declares. -/
def Model.Drawn (m : Model) (d : Domain) (s : Snapshot) (kind : FluentKind) (table : Table) :
    Prop :=
  List.Forall₂ (fun g v => ∃ r t : Sampler, (m.declared d s g).run r = (.ok v, t))
    (m.groundFluents kind) table.toList

/-- An action may lead from a state to another one with a reward. -/
structure Model.Transits (m : Model) (d : Domain) (state action next : Table) (reward : Float) :
    Prop where
  drawn : m.Drawn d (.current m.nonFluents state action) .state next
  rewarded : ∃ (v : Value) (s t : Sampler),
    (d.reward.meaning (m.world (.current m.nonFluents state action) m.reward.label) []).run s =
      (.ok v, t) ∧ v.toReal = reward

namespace Work

variable {d : Domain} {i : Instance} {m : Model} {state action : Table} {w w' : Workspace}
  {reward : Float}

/-- The observation phase leaves enough slots. -/
theorem roomy_of_observationPhase (h : Grounded d i m) {nextState : Table}
    (hnext : nextState.size = m.groundCount .state)
    (haction : action.size = m.groundCount .action) (hw : Roomy m w)
    (hsize : w.observed.size = m.groundCount .observation)
    (hrun : (m.observationCpfs.forM (stepBlock m (stepObservation m nextState action))).run w =
      (.ok (), w')) : Roomy m w' := by
  have hall : m.drawings m.observationCpfs = [] ++ (m.drawings m.observationCpfs ++ []) := by
    rw [List.append_nil, List.nil_append]
  rw [h.forM_drawings (List.subset_append_right m.stateCpfs m.observationCpfs)] at hrun
  obtain ⟨_, _, hend⟩ := (parallel_observations h hnext haction hall).run_ok
    (Abreast.refl hw hsize []) hrun
  exact hend.left

/-- The reward of a step is the real value of what the domain declares. -/
theorem exists_rewarded (h : Grounded d i m) {s : Snapshot} (hfits : s.Fits m) (hw : Roomy m w)
    (hrun : (eval (m.real s m.reward)).run w = (.ok reward, w')) :
    ∃ (v : Value) (t : Sampler), (d.reward.meaning (m.world s m.reward.label) []).run w.sampler =
      (.ok v, t) ∧ v.toReal = reward := by
  obtain ⟨reads, hcompile⟩ := h.reward
  have hslots : m.reward.slots ≤ m.maxSlots :=
    Model.slots_le_maxSlots (List.mem_append_right _ List.mem_cons_self)
  have himplements : m.Implements False m.reward d.reward [] [] :=
    Model.implements_of_compile h hcompile (fun _ htarget => by cases htarget) .nil
  obtain ⟨r, u, hvalue, hmeaning⟩ := himplements s w.walk hfits False.elim List.nil_prefix
    (Nat.le_trans hslots hw.slots)
  obtain ⟨u', hreal⟩ := exists_of_eval_eq_ok hrun
  obtain ⟨v, u'', hvalue', hlast⟩ := run_of_bind_eq_ok hreal
  obtain ⟨rfl, rfl⟩ := Prod.mk.inj (hvalue.symm.trans hvalue')
  cases hlast
  exact ⟨v, _, hmeaning, rfl⟩

/-- A step that succeeds is a transition. -/
theorem transits_of_advance (h : Grounded d i m) (hstate : state.size = m.groundCount .state)
    (haction : action.size = m.groundCount .action) (hw : Roomy m w)
    (hsize : w.observed.size = m.groundCount .observation)
    (hrun : (advance m state action).run w = (.ok reward, w')) :
    m.Transits d state action w'.next reward := by
  have hfits := h.fits_current hstate haction
  obtain ⟨w₁, w₂, hstates, hobservations, hreward, hnext, _⟩ := exists_phases hrun
  obtain ⟨hw₁, hobserved⟩ := roomy_of_statePhase h hw hstates
  have hw₂ := roomy_of_observationPhase h hw₁.next haction hw₁ (hobserved ▸ hsize) hobservations
  obtain ⟨v, t, hmeaning, hv⟩ := exists_rewarded h hfits hw₂ hreward
  constructor
  · rw [hnext]
    exact forall₂_of_run_mapM (run_statePhase h hfits hw hstates)
  · exact ⟨v, _, t, hmeaning, hv⟩

/-- The observations of a step that succeeds are drawn from the new state. -/
theorem drawn_of_advance (h : Grounded d i m) (haction : action.size = m.groundCount .action)
    (hw : Roomy m w) (hsize : w.observed.size = m.groundCount .observation)
    (hrun : (advance m state action).run w = (.ok reward, w')) :
    m.Drawn d (.observing m.nonFluents w'.next action w'.observed) .observation w'.observed := by
  obtain ⟨w₁, w₂, hstates, hobservations, _, hnext, hobserved⟩ := exists_phases hrun
  obtain ⟨hw₁, hkept⟩ := roomy_of_statePhase h hw hstates
  rw [h.forM_drawings (List.subset_append_right m.stateCpfs m.observationCpfs)] at hobservations
  have hsize₁ : w₁.observed.size = m.groundCount .observation := by rw [hkept, hsize]
  have hsize₂ : w₂.observed.size = m.groundCount .observation := by
    rw [size_observed_of_observations hobservations, hsize₁]
  have hlength : (m.groundFluents .observation).length = w₂.observed.toList.length := by
    rw [Grounded.length_groundFluents, Array.length_toList, hsize₂]
  rw [hnext, hobserved]
  refine List.forall₂_iff_get.mpr ⟨hlength, fun n hn hn' => ?_⟩
  have hplace := h.map_index_observationDrawings.mem_iff.mpr
    (List.mem_range.mpr (Grounded.length_groundFluents (m := m) .observation ▸ hn))
  obtain ⟨x, hx, rfl⟩ := List.mem_map.mp hplace
  obtain ⟨v, hv, hdrawn⟩ :=
    exists_drawn_of_observations h hw₁.next haction hw₁ hsize₁ hobservations hx
  rw [← Array.getElem?_toList] at hv
  rw [List.get_eq_getElem, List.get_eq_getElem, (List.getElem?_eq_some_iff.mp hv).2,
    (List.getElem?_eq_some_iff.mp (h.getElem?_groundFluents_index hx)).2]
  exact hdrawn

/-- Checking the constraints first makes no difference to a step that succeeds. -/
theorem exists_advance_of_step (h : Grounded d i m) {check : Bool} (hw : Roomy m w)
    (htyped : Typed m w) (hrun : (step m check state action).run w = (.ok reward, w')) :
    ∃ w₀, Roomy m w₀ ∧ w₀.observed.size = m.groundCount .observation ∧
      (advance m state action).run w₀ = (.ok reward, w') := by
  unfold step at hrun
  cases check with
  | false => exact ⟨w, hw, htyped.observed.size_eq, hrun⟩
  | true =>
      rw [if_pos rfl] at hrun
      obtain ⟨_, w₀, henforce, hadvance⟩ := run_of_bind_eq_ok hrun
      have halong : Alongside m 0 w w := ⟨hw, hw, rfl, rfl, fun _ _ => rfl⟩
      obtain ⟨_, _, hend⟩ :=
        (advances_enforce h _ 0 fun _ hbody => hbody).run_ok halong henforce
      have hkeeps : Keeps (Typed m)
          (enforce m (.current m.nonFluents state action) 0 m.constraints) fun _ => True :=
        keeps_enforce blind_typed _ 0 _
      have htyped₀ := hkeeps.after htyped henforce
      exact ⟨w₀, hend.left, htyped₀.observed.size_eq, hadvance⟩

end Work

/-! ## Reachable states -/

namespace Engine

variable {d : Domain} {i : Instance} {m : Model} {c : EngineConfig} {e : Engine}

/-- A step of a reachable engine that succeeds is a transition by the action that
it was given, and returns observations that are drawn from the new state. -/
theorem exists_observed (h : Grounded d i m) (he : Reachable m c e) {a : Action} {t : Transition}
    (hstep : (e.step a).1 = .ok t) :
    ∃ action observed, a.resolve m = .ok action ∧
      m.Transits d e.current action (e.step a).2.current t.reward ∧
      m.Drawn d (.observing m.nonFluents (e.step a).2.current action observed) .observation
        observed ∧
      t.observation = m.describe .observation observed := by
  have htyped := typed_of_reachable h he
  have hroomy := (roomy_of_reachable h he).1
  have hready := ready_of_ok hstep
  obtain ⟨rfl, hcurrent, _, hnext⟩ := htyped
  cases hresolve : a.resolve e.model with
  | error f => simp [step, hready, hresolve] at hstep
  | ok action =>
      have htable : e.step a = e.stepTable action := by simp [step, hready, hresolve]
      rw [htable] at hstep ⊢
      have haction := (Action.typed_of_resolve h hresolve).size_eq
      have hw : Work.Typed e.model e.workspace := ⟨hnext, h.typed_defaultObservation⟩
      rcases hrun : (Work.step e.model e.checkConstraints e.current action).run e.workspace
        with ⟨f | reward, w⟩
      · rw [stepTable_of_error hrun] at hstep
        cases hstep
      · rw [stepTable_of_ok hrun] at hstep ⊢
        cases hstep
        obtain ⟨w₀, hw₀, hsize, hadvance⟩ := Work.exists_advance_of_step h hroomy hw hrun
        exact ⟨action, w.observed, rfl,
          Work.transits_of_advance h hcurrent.size_eq haction hw₀ hsize hadvance,
          Work.drawn_of_advance h haction hw₀ hsize hadvance, rfl⟩

/-- A step of a reachable engine that succeeds is a transition by the action that
it was given. -/
theorem exists_transits (h : Grounded d i m) (he : Reachable m c e) {a : Action} {t : Transition}
    (hstep : (e.step a).1 = .ok t) :
    ∃ action, a.resolve m = .ok action ∧
      m.Transits d e.current action (e.step a).2.current t.reward := by
  obtain ⟨action, _, hresolve, htransits, _⟩ := exists_observed h he hstep
  exact ⟨action, hresolve, htransits⟩

theorem step_current_of_error {a : Action} {f : Fault SimError} (hstep : (e.step a).1 = .error f) :
    (e.step a).2.current = e.current := by
  obtain ⟨scratch, hsame⟩ := step_eq_of_error hstep
  rw [hsame]

/-- A step either leaves the committed state as it was or makes a transition. -/
theorem step_current_cases (h : Grounded d i m) (he : Reachable m c e) (a : Action) :
    (e.step a).2.current = e.current ∨ ∃ action reward, a.resolve m = .ok action ∧
      m.Transits d e.current action (e.step a).2.current reward := by
  cases hstep : (e.step a).1 with
  | error f => exact .inl (step_current_of_error hstep)
  | ok t =>
      obtain ⟨action, hresolve, htransits⟩ := exists_transits h he hstep
      exact .inr ⟨action, t.reward, hresolve, htransits⟩

/-- What holds of the initial state and passes through every transition by an
accepted action holds of every reachable state. -/
theorem current_preserves (h : Grounded d i m) {P : Table → Prop} (hinitial : P m.initialState)
    (htransits : ∀ state a action next reward, m.Typed .state state → P state →
      Action.resolve m a = .ok action → m.Transits d state action next reward → P next)
    (he : Reachable m c e) : P e.current := by
  induction he with
  | create hcreate =>
      unfold create at hcreate
      split at hcreate
      · cases hcreate
      · cases hcreate
        exact hinitial
  | @reset e he seed _ =>
      have hmodel := (typed_of_reachable h he).model
      change P e.model.initialState
      rw [hmodel]
      exact hinitial
  | @step e he a ih =>
      rcases step_current_cases h he a with hsame | ⟨action, reward, hresolve, hstep⟩
      · rw [hsame]
        exact ih
      · exact htransits _ a action _ reward (typed_of_reachable h he).current ih hresolve hstep

/-! ## Runs -/

/-- The engines along a run of steps, from an engine on. -/
def along (e : Engine) (as : ℕ → Action) : ℕ → Engine
  | 0 => e
  | n + 1 => ((along e as n).step (as n)).2

theorem reachable_along (he : Reachable m c e) (as : ℕ → Action) (n : ℕ) :
    Reachable m c (e.along as n) := by
  induction n with
  | zero => exact he
  | succ n ih => exact ih.step (as n)

/-- What every transition keeps stays true along a run from where it holds. -/
theorem along_preserves (h : Grounded d i m) {P : Table → Prop}
    (htransits : ∀ state action next reward, P state →
      m.Transits d state action next reward → P next)
    (he : Reachable m c e) (as : ℕ → Action) {n k : ℕ} (hnk : n ≤ k)
    (hn : P (e.along as n).current) : P (e.along as k).current := by
  induction k, hnk using Nat.le_induction with
  | base => exact hn
  | succ k _ ih =>
      rcases step_current_cases h (reachable_along he as k) (as k) with
        hsame | ⟨action, reward, _, hstep⟩
      · rw [along, hsame]
        exact ih
      · exact htransits _ action _ reward ih hstep

end Engine

/-! ## Truth values after a transition -/

namespace Model

variable {d : Domain} {i : Instance} {m : Model} {s : Snapshot} {kind : FluentKind} {table : Table}

/-- The value of a ground fluent is drawn as the domain declares. -/
theorem Drawn.exists_drawn (hdrawn : m.Drawn d s kind table) (h : Grounded d i m)
    {g : GroundFluent} (hg : g ∈ m.groundFluents kind) :
    ∃ v, m.lookup? kind table g.name g.args = some v ∧ ∃ r t : Sampler,
      (m.declared d s g).run r = (.ok v, t) := by
  obtain ⟨n, hn, hplace⟩ := h.locate?_eq_some_of_mem hg
  have hget := h.locate?_iff_getElem?.mp hplace
  have hlength := hdrawn.length_eq
  rw [Grounded.length_groundFluents] at hlength
  obtain ⟨v, hv⟩ : ∃ v, table.toList[n]? = some v :=
    ⟨_, List.getElem?_eq_getElem (hlength ▸ hn)⟩
  have hdraw := (List.forall₂_iff_get.mp hdrawn).2 n
    (List.getElem?_eq_some_iff.mp hget).1 (List.getElem?_eq_some_iff.mp hv).1
  rw [List.get_eq_getElem, List.get_eq_getElem, (List.getElem?_eq_some_iff.mp hget).2,
    (List.getElem?_eq_some_iff.mp hv).2] at hdraw
  rw [h.lookup?_eq hplace, ← Array.getElem?_toList]
  exact ⟨v, hv, hdraw⟩

/-- The truth value of a boolean fluent is one that its function allows in the
scene that the snapshot shows. -/
theorem Drawn.exists_allowed (hdrawn : m.Drawn d s kind table) (h : Grounded d i m)
    {c : CpfDecl} (hc : c ∈ d.cpfs) (hchance : c.expr.isChance = true) {f : FluentDecl}
    (hf : d.fluent? c.fluent = some f) (hkind : f.kind = kind) (hrange : f.range = .bool)
    {args : List String} (hargs : List.Forall₂ (fun o p => o ∈ objectsOf i p) args f.params) :
    ∃ b, m.lookup? kind table c.fluent args = some (.bool b) ∧
      c.expr.Allows (m.scene s) (c.params.zip args).reverse b := by
  have hg : ⟨c.fluent, args⟩ ∈ m.groundFluents kind :=
    h.mem_groundFluents_iff.mpr (hkind ▸ (h.declares_iff hf).mpr hargs)
  obtain ⟨v, hv, r, t, hdraw⟩ := hdrawn.exists_drawn h hg
  obtain ⟨b, hb, _, hbrange⟩ := h.exists_block_of_fluent? hf
  have hcpfs : (d.cpfs.toArray.toList.map (·.fluent)).Nodup :=
    (Domain.nodup_of_validate h.domainValid).2.2
  have hfind : d.cpfs.find? (fun c' => c'.fluent == c.fluent) = some c := by
    rw [← List.find?_toArray]
    exact (find?_key_eq_some_iff hcpfs).mpr ⟨List.mem_toArray.mpr hc, rfl⟩
  simp only [Model.declared, hfind, hb] at hdraw
  obtain ⟨v', r', hmeaning, hcoerced⟩ := run_of_bind_eq_ok hdraw
  rw [Model.coerced, hbrange, hrange] at hcoerced
  cases v' with
  | bool b =>
      cases hcoerced
      have hallows := (Expr.meaning_allowed _ _ c.expr hchance).of_run hmeaning b rfl
      exact ⟨b, hv, hallows⟩
  | int n => cases hcoerced
  | real x => cases hcoerced

/-- The next truth value of a boolean state fluent is one that its function
allows in the scene before the transition. -/
theorem Transits.exists_allowed {state action next : Table} {reward : Float}
    (ht : m.Transits d state action next reward) (h : Grounded d i m)
    {c : CpfDecl} (hc : c ∈ d.cpfs) (hchance : c.expr.isChance = true) {f : FluentDecl}
    (hf : d.fluent? c.fluent = some f) (hkind : f.kind = .state) (hrange : f.range = .bool)
    {args : List String} (hargs : List.Forall₂ (fun o p => o ∈ objectsOf i p) args f.params) :
    ∃ b, m.lookup? .state next c.fluent args = some (.bool b) ∧
      c.expr.Allows (m.scene (.current m.nonFluents state action))
        (c.params.zip args).reverse b :=
  ht.drawn.exists_allowed h hc hchance hf hkind hrange hargs

end Model

/-! ## Moving from place to place -/

/-- Something that is in exactly one place, and goes to the one place to which it
is led or stays where it is not led to any, is in exactly one place
afterwards. -/
theorem existsUnique_moved {α δ : Type} {before after : α → Prop} (goes : δ → Prop)
    (leads : δ → α → α → Prop) (hbefore : ∃! p, before p)
    (hone : ∀ x y, goes x → goes y → x = y)
    (hleads : ∀ x p q q', leads x p q → leads x p q' → q = q')
    (hafter : ∀ q, after q ↔ (∃ x, goes x ∧ ∃ p, before p ∧ leads x p q) ∨
      (before q ∧ ¬∃ x, goes x ∧ ∃ r, leads x q r)) : ∃! q, after q := by
  obtain ⟨p, hp, hunique⟩ := hbefore
  simp only [hafter]
  by_cases hmoves : ∃ x, goes x ∧ ∃ q, leads x p q
  · obtain ⟨x, hx, q, hq⟩ := hmoves
    refine ⟨q, .inl ⟨x, hx, p, hp, hq⟩, ?_⟩
    rintro q' (⟨y, hy, p', hp', hq'⟩ | ⟨hq', hstays⟩)
    · obtain rfl := hunique p' hp'
      obtain rfl := hone y x hy hx
      exact hleads y p' q' q hq' hq
    · obtain rfl := hunique q' hq'
      exact absurd ⟨x, hx, q, hq⟩ hstays
  · refine ⟨p, .inr ⟨hp, hmoves⟩, ?_⟩
    rintro q' (⟨y, hy, p', hp', hq'⟩ | ⟨hq', _⟩)
    · obtain rfl := hunique p' hp'
      exact absurd ⟨y, hy, q', hq'⟩ hmoves
    · exact hunique q' hq'

end LiftedPomdp
