import LiftedPomdp.Problems.Recon
import LiftedPomdp.Proofs.Ground.Evaluation
import LiftedPomdp.Proofs.Run.Budget
import LiftedPomdp.Proofs.Run.Transition

/-!
# Rovers do not get lost

Where a rover is after a step is computed for each cell on its own: it arrives
on a cell from the one before it, and leaves a cell that has a next one.  When
each direction leads from a cell to at most one other and a rover moves in at
most one direction at a time, it arrives on exactly one cell or stays on the
one where it is.  So a rover that starts on exactly one cell is always on
exactly one.
-/

namespace LiftedPomdp
namespace Recon

open Grounding

theorem domain_valid : domain.validate = .ok () := by
  decide +kernel

theorem sortedFluents_domain :
    sortedFluents domain = domain.fluents.insertionSort fun f g => f.name ≤ g.name :=
  sortedFluents_eq_insertionSort (Domain.nodup_of_validate domain_valid).2.1

theorem agentAt_mem : fact "agentAt" ["agent", "x_pos", "y_pos"] ∈ domain.fluents := by
  simp [domain, fluents]

/-! ## Cells and directions -/

/-- A rover stands on a cell in a state. -/
def Stands (m : Model) (state : Table) (a : String) (cell : String × String) : Prop :=
  m.lookup? .state state "agentAt" [a, cell.1, cell.2] = some (.bool true)

/-- A cell lies on the grid of an instance. -/
def OnGrid (i : Instance) (cell : String × String) : Prop :=
  cell.1 ∈ objectsOf i "x_pos" ∧ cell.2 ∈ objectsOf i "y_pos"

namespace Direction

/-- The position of a cell along the axis of a direction. -/
def along (d : Direction) (cell : String × String) : String :=
  match d with
  | .up | .down => cell.2
  | .left | .right => cell.1

/-- The cell with another position along the axis of a direction. -/
def shifted (d : Direction) (cell : String × String) (position : String) : String × String :=
  match d with
  | .up | .down => (cell.1, position)
  | .left | .right => (position, cell.2)

/-- A direction leads from a cell to the one with the next position along its
axis. -/
def Leads (m : Model) (d : Direction) (p q : String × String) : Prop :=
  q = d.shifted p (d.along q) ∧
    m.nonFluent? d.adjacent [d.along p, d.along q] = some (.bool true)

/-- An action moves a rover in a direction. -/
def Taken (m : Model) (action : Table) (a : String) (d : Direction) : Prop :=
  m.lookup? .action action d.action [a] = some (.bool true)

theorem mem_all (d : Direction) : d ∈ all := by
  cases d <;> decide

theorem deed_mem (d : Direction) : deed d.action ["agent"] ∈ domain.fluents := by
  cases d <;> simp [domain, fluents, all]

theorem relation_mem (d : Direction) : relation d.adjacent [d.axis, d.axis] ∈ domain.fluents := by
  cases d <;> simp [domain, fluents, adjacent, axis]

theorem axis_mem (d : Direction) : d.axis ∈ domain.types := by
  cases d <;> simp [domain, axis]

theorem action_inj {d d' : Direction} (h : d.action = d'.action) : d = d' := by
  cases d <;> cases d' <;> simp [action] at h ⊢

theorem shifted_shifted (d : Direction) (cell : String × String) (position : String) :
    d.shifted (d.shifted cell position) (d.along cell) = cell := by
  cases d <;> rfl

variable {i : Instance} {m : Model} {state action : Table} {d : Direction}
  {p q q' : String × String}

theorem mem_of_adjacent (h : Grounded domain i m) {x y : String}
    (hxy : m.nonFluent? d.adjacent [x, y] = some (.bool true)) :
    x ∈ objectsOf i d.axis ∧ y ∈ objectsOf i d.axis := by
  have hargs := h.forall₂_of_lookup? (h.fluent?_eq_some d.relation_mem) hxy
  simpa [relation, FluentDecl.nonFluent] using hargs

/-- A direction leads to a cell of the grid from one that lies on it. -/
theorem onGrid_of_leads (h : Grounded domain i m) (hpq : d.Leads m p q) (hp : OnGrid i p) :
    OnGrid i q := by
  have hq := (mem_of_adjacent h hpq.2).2
  rw [hpq.1]
  cases d with
  | up | down => exact ⟨hp.1, hq⟩
  | left | right => exact ⟨hq, hp.2⟩

/-- A direction in which no position has two next ones leads to at most one
cell. -/
theorem leads_unique
    (hfunctional : ∀ p q q', m.nonFluent? d.adjacent [p, q] = some (.bool true) →
      m.nonFluent? d.adjacent [p, q'] = some (.bool true) → q = q')
    (hq : d.Leads m p q) (hq' : d.Leads m p q') : q = q' := by
  have halong := hfunctional _ _ _ hq.2 hq'.2
  rw [hq.1, hq'.1, halong]

theorem holds_arrives (h : Grounded domain i m) (d : Direction) (a x y : String) :
    d.arrives.Holds (m.scene (.current m.nonFluents state action))
        [("y", y), ("x", x), ("a", a)] ↔
      d.Taken m action a ∧ ∃ p, Stands m state a p ∧ d.Leads m p (x, y) := by
  have hform : d.arrives.Holds (m.scene (.current m.nonFluents state action))
        [("y", y), ("x", x), ("a", a)] ↔ d.Taken m action a ∧
      ∃ o ∈ objectsOf i d.axis, Stands m state a (d.shifted (x, y) o) ∧
        d.Leads m (d.shifted (x, y) o) (x, y) := by
    cases d <;> simp [arrives, Leads, Taken, Stands, shifted, along, h.holds_action (deed_mem _),
      h.holds_nonFluent (relation_mem _), h.holds_state agentAt_mem,
      h.scene_object_iff _ (axis_mem _)]
  rw [hform]
  refine and_congr_right fun _ => ?_
  constructor
  · rintro ⟨o, _, ho⟩
    exact ⟨_, ho⟩
  · rintro ⟨p, hp, hleads⟩
    have hshifted : d.shifted (x, y) (d.along p) = p := by
      rw [hleads.1, shifted_shifted]
    refine ⟨d.along p, (mem_of_adjacent h hleads.2).1, ?_⟩
    rw [hshifted]
    exact ⟨hp, hleads⟩

theorem holds_leaves (h : Grounded domain i m) (d : Direction) (a x y : String) :
    d.leaves.Holds (m.scene (.current m.nonFluents state action))
        [("y", y), ("x", x), ("a", a)] ↔
      d.Taken m action a ∧ ∃ q, d.Leads m (x, y) q := by
  have hform : d.leaves.Holds (m.scene (.current m.nonFluents state action))
        [("y", y), ("x", x), ("a", a)] ↔ d.Taken m action a ∧
      ∃ o ∈ objectsOf i d.axis, d.Leads m (x, y) (d.shifted (x, y) o) := by
    cases d <;> simp [leaves, Leads, Taken, shifted, along, h.holds_action (deed_mem _),
      h.holds_nonFluent (relation_mem _), h.scene_object_iff _ (axis_mem _)]
  rw [hform]
  refine and_congr_right fun _ => ?_
  constructor
  · rintro ⟨o, _, ho⟩
    exact ⟨_, ho⟩
  · rintro ⟨q, hleads⟩
    refine ⟨d.along q, (mem_of_adjacent h hleads.2).2, ?_⟩
    rw [← hleads.1]
    exact hleads

end Direction

/-! ## One step -/

variable {i : Instance} {m : Model} {state action next : Table} {reward : Float} {a : String}

/-- The values that the function of a position may come to. -/
theorem agentAt_allows {sc : Scene} {env : Environment} {b : Bool} (h : agentAt.Allows sc env b) :
    b = true ↔ (∃ d : Direction, d.arrives.Holds sc env) ∨
      ((Expr.now "agentAt" ["?a", "?x", "?y"]).Holds sc env ∧
        ¬∃ d : Direction, d.leaves.Holds sc env) := by
  rw [agentAt, Expr.allows_foldr_ite] at h
  simp only [Direction.mem_all, true_and, Expr.Allows, Expr.holds_bool, iff_true, Expr.Holds,
    Expr.AllHold, Expr.someHolds_iff, List.mem_map, exists_exists_eq_and, and_true,
    Bool.false_eq_true, iff_false] at h
  rcases h with ⟨harrives, hb⟩ | ⟨hnone, ⟨hgone, hb⟩ | ⟨hkept, hb⟩⟩
  · exact iff_of_true hb (.inl harrives)
  · refine iff_of_false hb ?_
    rintro (harrives | ⟨_, hstays⟩)
    · exact hnone harrives
    · exact hstays hgone.2
  · rw [hb]
    constructor
    · intro hhere
      exact .inr ⟨hhere, fun hleaves => hkept ⟨hhere, hleaves⟩⟩
    · rintro (harrives | ⟨hhere, _⟩)
      · exact absurd harrives hnone
      · exact hhere

/-- After a step a rover stands on the cells to which it has moved, and on those
where it stood unless they have a next one in the direction that it takes. -/
theorem stands_iff (h : Grounded domain i m) (ht : m.Transits domain state action next reward)
    (ha : a ∈ objectsOf i "agent") {cell : String × String} (hcell : OnGrid i cell) :
    Stands m next a cell ↔
      (∃ d : Direction, d.Taken m action a ∧ ∃ p, Stands m state a p ∧ d.Leads m p cell) ∨
        (Stands m state a cell ∧
          ¬∃ d : Direction, d.Taken m action a ∧ ∃ q, d.Leads m cell q) := by
  obtain ⟨x, y⟩ := cell
  have hargs : List.Forall₂ (fun o p => o ∈ objectsOf i p) [a, x, y] ["agent", "x_pos", "y_pos"] :=
    .cons ha (.cons hcell.1 (.cons hcell.2 .nil))
  obtain ⟨b, hb, hallows⟩ := ht.exists_allowed h
    (c := .ofTexts "agentAt" ["?a", "?x", "?y"] agentAt) (by simp [domain, stateCpfs]) rfl
    (h.fluent?_eq_some agentAt_mem) rfl rfl hargs
  have hhere : (Expr.now "agentAt" ["?a", "?x", "?y"]).Holds
      (m.scene (.current m.nonFluents state action)) [("y", y), ("x", x), ("a", a)] ↔
        Stands m state a (x, y) := by
    simp [Stands, h.holds_state agentAt_mem]
  change agentAt.Allows _ [("y", y), ("x", x), ("a", a)] b at hallows
  have hiff := agentAt_allows hallows
  simp only [Direction.holds_arrives h, Direction.holds_leaves h, hhere] at hiff
  exact (Value.some_bool_iff hb).trans hiff

theorem mem_of_stands (h : Grounded domain i m) {cell : String × String}
    (hstands : Stands m state a cell) : a ∈ objectsOf i "agent" ∧ OnGrid i cell := by
  have hargs := h.forall₂_of_lookup? (h.fluent?_eq_some agentAt_mem) hstands
  simpa [fact, FluentDecl.state, OnGrid] using hargs

/-! ## All steps -/

/-- Every rover stands on exactly one cell. -/
def Settled (i : Instance) (m : Model) (state : Table) : Prop :=
  ∀ a ∈ objectsOf i "agent", ∃! cell : String × String, Stands m state a cell

/-- Every direction leads from a position to at most one. -/
def Guiding (m : Model) : Prop :=
  ∀ (d : Direction) (p q q' : String), m.nonFluent? d.adjacent [p, q] = some (.bool true) →
    m.nonFluent? d.adjacent [p, q'] = some (.bool true) → q = q'

/-- A step that takes at most one action fluent keeps every rover on exactly one
cell. -/
theorem settled_of_transits (h : Grounded domain i m) (hguiding : Guiding m) {max : UInt64}
    (hmax : m.maxNonDefaultActions = some max) (hone : max ≤ 1) {chosen : Action}
    (hresolve : chosen.resolve m = .ok action)
    (ht : m.Transits domain state action next reward) (hsettled : Settled i m state) :
    Settled i m next := by
  intro a ha
  refine existsUnique_moved (Direction.Taken m action a) (Direction.Leads m) (hsettled a ha)
    ?_ ?_ ?_
  · intro d d' hd hd'
    have hsame : (⟨d.action, [a]⟩ : GroundFluent) = ⟨d'.action, [a]⟩ :=
      h.eq_of_taken hmax hone hresolve (h.fluent?_eq_some d.deed_mem)
        (h.fluent?_eq_some d'.deed_mem) rfl rfl hd hd'
    exact Direction.action_inj (congrArg GroundFluent.name hsame)
  · exact fun d p q q' => Direction.leads_unique (hguiding d)
  · intro cell
    by_cases hcell : OnGrid i cell
    · exact stands_iff h ht ha hcell
    · refine iff_of_false (fun hstands => hcell (mem_of_stands h hstands).2) ?_
      rintro (⟨d, _, p, hp, hleads⟩ | ⟨hstands, _⟩)
      · exact hcell (Direction.onGrid_of_leads h hleads (mem_of_stands h hp).2)
      · exact hcell (mem_of_stands h hstands).2

/-! ## The small grid -/

/-- On the small grid every position has at most one next one in each direction,
the rover starts in a corner, and one object has life and water. -/
theorem exists_grid3 : ∃ m, Model.ground domain grid3 = .ok m ∧ Guiding m ∧
    Settled grid3 m m.initialState ∧
    ∀ name ∈ ["HAS_LIFE", "HAS_WATER"], ∀ o,
      m.lookup? .state m.initialState name [o] = some (.bool true) ↔ o = "o1" := by
  -- Only objects of the grid have values, so it is enough to check those.
  obtain ⟨m, hm, hguiding, hcorner, hfacts⟩ : ∃ m, Model.ground domain grid3 = .ok m ∧
      (∀ d ∈ Direction.all, ∀ p ∈ objectsOf grid3 d.axis, ∀ q ∈ objectsOf grid3 d.axis,
        ∀ q' ∈ objectsOf grid3 d.axis, m.nonFluent? d.adjacent [p, q] = some (.bool true) →
          m.nonFluent? d.adjacent [p, q'] = some (.bool true) → q = q') ∧
      (∀ x ∈ objectsOf grid3 "x_pos", ∀ y ∈ objectsOf grid3 "y_pos",
        m.lookup? .state m.initialState "agentAt" ["a1", x, y] = some (.bool true) ↔
          x = "x1" ∧ y = "y1") ∧
      (∀ name ∈ ["HAS_LIFE", "HAS_WATER"], ∀ o ∈ objectsOf grid3 "obj",
        m.lookup? .state m.initialState name [o] = some (.bool true) ↔ o = "o1") := by
    apply Model.exists_ground_of_any
    unfold Model.ground Model.groundBy Grounding.blocks orderObservations
    rw [domain_valid, sortedFluents_domain, checkInhabited_eq_checkNoneBare,
      Dependency.order_eq_orderUpTo]
    decide +kernel
  have hg := grounded_of_ground hm
  have hdeclared : ∀ name ∈ ["HAS_LIFE", "HAS_WATER"], fact name ["obj"] ∈ domain.fluents := by
    simp [domain, fluents]
  refine ⟨m, hm, ?_, ?_, ?_⟩
  · intro d p q q' hq hq'
    obtain ⟨hp, hqaxis⟩ := Direction.mem_of_adjacent hg hq
    exact hguiding d d.mem_all p hp q hqaxis q' (Direction.mem_of_adjacent hg hq').2 hq hq'
  · intro a ha
    have ha1 : a = "a1" := by simpa [objectsOf, grid3] using ha
    subst ha1
    refine ⟨("x1", "y1"), (hcorner "x1" (by decide) "y1" (by decide)).mpr ⟨rfl, rfl⟩, ?_⟩
    rintro ⟨x, y⟩ hstands
    have hgrid := (mem_of_stands hg hstands).2
    obtain ⟨rfl, rfl⟩ := (hcorner x hgrid.1 y hgrid.2).mp hstands
    rfl
  · intro name hname o
    by_cases ho : o ∈ objectsOf grid3 "obj"
    · exact hfacts name hname o ho
    · refine iff_of_false (fun hholds => ho ?_) (fun heq => ho (by simp [heq, objectsOf, grid3]))
      have hargs := hg.forall₂_of_lookup? (hg.fluent?_eq_some (hdeclared name hname)) hholds
      simpa [fact, FluentDecl.state] using hargs

/-! ## All runs -/

variable {c : EngineConfig} {e : Engine}

/-- In a grid where every direction leads from a position to at most one, and
where at most one action fluent is taken at a time, rovers that start on exactly
one cell each are on exactly one cell each in every state that an engine comes
to. -/
theorem rover_on_one_cell (h : Model.ground domain i = .ok m) {max : UInt64}
    (hmax : i.maxNonDefaultActions = some max) (hone : max ≤ 1) (hguiding : Guiding m)
    (hinitial : Settled i m m.initialState) (he : Engine.Reachable m c e) :
    ∀ a ∈ objectsOf i "agent", ∃! cell : String × String,
      e.stateValue? "agentAt" [a, cell.1, cell.2] = some (.bool true) := by
  have hg := grounded_of_ground h
  have hbudget : m.maxNonDefaultActions = some max := hg.maxNonDefaultActions.trans hmax
  have hsettled : Settled i m e.current := by
    refine Engine.current_preserves hg hinitial ?_ he
    intro state chosen action next reward _ hstate hresolve ht
    exact settled_of_transits hg hguiding hbudget hone hresolve ht hstate
  obtain rfl := (Engine.typed_of_reachable hg he).model
  exact hsettled

/-- On the small grid the rover is on one cell after it was told to go right and
up. -/
theorem rover_on_one_cell_grid3 :
    grid3.maxNonDefaultActions = some 1 ∧ EngineConfig.standard.validate = .ok () ∧
      ∃ m e, Model.ground domain grid3 = .ok m ∧ Guiding m ∧ Settled grid3 m m.initialState ∧
        Engine.create m .standard = .ok e ∧
        let moved := ((e.reset 7).step (Action.noop.set "right" ["a1"] (.bool true))).2
        let moved' := (moved.step (Action.noop.set "up" ["a1"] (.bool true))).2
        ∃! cell : String × String,
          moved'.stateValue? "agentAt" ["a1", cell.1, cell.2] = some (.bool true) := by
  have hc : EngineConfig.standard.validate = .ok () := by decide +kernel
  obtain ⟨m, hm, hguiding, hinitial, _⟩ := exists_grid3
  obtain ⟨e, he⟩ := Engine.exists_create m hc
  have hreachable := (Engine.Reachable.create he).reset 7
  exact ⟨rfl, hc, m, e, hm, hguiding, hinitial, he, rover_on_one_cell hm rfl (by decide) hguiding
    hinitial ((hreachable.step _).step _) "a1" (by decide)⟩

end Recon
end LiftedPomdp
