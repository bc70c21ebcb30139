import LiftedPomdp.Proofs.Problems.Elevators.Movement

/-!
# Passengers are not lost

Who waits at a floor and who rides an elevator are computed apart, both from the
state before a step.  The two agree on who gets in: somebody stops waiting only
where an elevator stands open that goes the same way, and that elevator takes
in somebody unless it lets its own passengers out, which it does at the last
floor only.  As an elevator is at one floor, nobody disappears between the two.
-/

namespace LiftedPomdp
namespace Elevators

open Effects Grounding

namespace Heading

/-- Somebody waits at a floor to go this way. -/
def Waits (m : Model) (state : Table) (hd : Heading) (f : String) : Prop :=
  m.lookup? .state state hd.waiting [f] = some (.bool true)

/-- Somebody in an elevator goes this way. -/
def Rides (m : Model) (state : Table) (hd : Heading) (e : String) : Prop :=
  m.lookup? .state state hd.riding [e] = some (.bool true)

/-- A floor is the last one this way. -/
def Ends (m : Model) (hd : Heading) (f : String) : Prop :=
  m.nonFluent? hd.terminal [f] = some (.bool true)

/-- An elevator stands open at a floor and heads this way. -/
def Opens (m : Model) (state : Table) (hd : Heading) (e f : String) : Prop :=
  Stops m state e f ∧ hd.Heads m state e ∧
    ¬m.lookup? .state state "elevator-closed" [e] = some (.bool true)

variable {i : Instance} {m : Model} {state action next : Table} {reward : Float} {e f : String}

theorem waiting_mem (hd : Heading) :
    FluentDecl.state hd.waiting .bool ["floor"] (.bool false) ∈ domain.fluents := by
  cases hd <;> simp [domain, fluents, Heading.waiting]

theorem riding_mem (hd : Heading) :
    FluentDecl.state hd.riding .bool ["elevator"] (.bool false) ∈ domain.fluents := by
  cases hd <;> simp [domain, fluents, Heading.riding]

theorem terminal_mem (hd : Heading) :
    FluentDecl.nonFluent hd.terminal .bool ["floor"] (.bool false) ∈ domain.fluents := by
  cases hd <;> simp [domain, fluents, Heading.terminal]

theorem waiting_cpf (hd : Heading) :
    CpfDecl.ofTexts hd.waiting ["?f"] (Elevators.waiting hd) ∈ domain.cpfs := by
  cases hd with
  | up => exact .head _
  | down => exact .tail _ (.head _)

theorem riding_cpf (hd : Heading) :
    CpfDecl.ofTexts hd.riding ["?e"] (Elevators.riding hd) ∈ domain.cpfs := by
  cases hd with
  | up => exact .tail _ (.tail _ (.head _))
  | down => exact .tail _ (.tail _ (.tail _ (.head _)))

theorem elevator_mem : "elevator" ∈ domain.types := by
  simp [domain]

/-! ## The functions -/

/-- Somebody who waits stays where no elevator takes them in. -/
theorem waiting_allows (h : Grounded domain i m) (hd : Heading) {b : Bool}
    (hallows : (Elevators.waiting hd).Allows (m.scene (.current m.nonFluents state action))
      [("f", f)] b)
    (hwaits : hd.Waits m state f) (hnone : ¬∃ e, hd.Opens m state e f) : b = true := by
  have hcondition : (Expr.and [.now hd.waiting ["?f"],
      .not (.quantify .exists [("?e", "elevator")] (openHeading hd))]).Holds
        (m.scene (.current m.nonFluents state action)) [("f", f)] ↔
      hd.Waits m state f ∧ ¬∃ e ∈ objectsOf i "elevator", hd.Opens m state e f := by
    cases hd <;> simp [openHeading, Heading.holds, Waits, Opens, Heads, Stops,
      h.holds_state (waiting_mem _), h.holds_state atFloor_mem, h.holds_state headsUp_mem,
      h.holds_state closed_mem, h.scene_object_iff _ elevator_mem]
  rw [Elevators.waiting, Expr.Allows, hcondition, Expr.Allows, Expr.holds_bool] at hallows
  rcases hallows with ⟨_, hb⟩ | ⟨hgone, _⟩
  · exact hb.mpr rfl
  · refine absurd ⟨hwaits, ?_⟩ hgone
    rintro ⟨e, _, hopens⟩
    exact hnone ⟨e, hopens⟩

/-- The values of the function of those who ride. -/
theorem riding_allows (h : Grounded domain i m) (hd : Heading) {b : Bool}
    (hallows : (Elevators.riding hd).Allows (m.scene (.current m.nonFluents state action))
      [("e", e)] b) :
    (hd.Rides m state e ∧ (b = true ↔ ¬∃ f, Stops m state e f ∧ hd.Ends m f)) ∨
      (¬hd.Rides m state e ∧ (b = true ↔ ∃ f, hd.Waits m state f ∧ hd.Opens m state e f)) := by
  have hrides : (Expr.now hd.riding ["?e"]).Holds
      (m.scene (.current m.nonFluents state action)) [("e", e)] ↔ hd.Rides m state e := by
    simp [Rides, h.holds_state (riding_mem hd)]
  have hstays : (Expr.not (.quantify .exists [("?f", "floor")]
      (.and [.now "elevator-at-floor" ["?e", "?f"], .now hd.terminal ["?f"]]))).Holds
        (m.scene (.current m.nonFluents state action)) [("e", e)] ↔
      ¬∃ f ∈ objectsOf i "floor", Stops m state e f ∧ hd.Ends m f := by
    simp [Stops, Ends, h.holds_state atFloor_mem, h.holds_nonFluent (terminal_mem hd),
      h.scene_object_iff _ floor_mem]
  have hboards : (Expr.quantify .exists [("?f", "floor")]
      (.and [.now hd.waiting ["?f"], openHeading hd])).Holds
        (m.scene (.current m.nonFluents state action)) [("e", e)] ↔
      ∃ f ∈ objectsOf i "floor", hd.Waits m state f ∧ hd.Opens m state e f := by
    cases hd <;> simp [openHeading, Heading.holds, Waits, Opens, Heads, Stops,
      h.holds_state (waiting_mem _), h.holds_state atFloor_mem, h.holds_state headsUp_mem,
      h.holds_state closed_mem, h.scene_object_iff _ floor_mem]
  have hfloor : ∀ {P : String → Prop}, (∀ f, P f → Stops m state e f) →
      ((∃ f ∈ objectsOf i "floor", P f) ↔ ∃ f, P f) := by
    intro P hstops
    refine exists_congr fun f => and_iff_right_of_imp fun hf => ?_
    exact (mem_of_stops h (hstops f hf)).2
  rw [hfloor fun f hf => hf.1] at hstays
  rw [hfloor fun f hf => hf.2.1] at hboards
  rw [Elevators.riding, Expr.Allows, Expr.Allows, Expr.Allows, hrides, hstays, hboards] at hallows
  exact hallows

/-! ## One step -/

/-- Somebody who waits and does not any more was where an elevator stands open. -/
theorem exists_opens_of_transits (h : Grounded domain i m)
    (ht : m.Transits domain state action next reward) {hd : Heading}
    (hwaits : hd.Waits m state f) (hgone : ¬hd.Waits m next f) :
    ∃ e, hd.Opens m state e f := by
  have hargs : List.Forall₂ (fun o p => o ∈ objectsOf i p) [f] ["floor"] :=
    h.forall₂_of_lookup? (h.fluent?_eq_some (waiting_mem hd)) hwaits
  obtain ⟨b, hb, hallows⟩ := ht.exists_allowed h (waiting_cpf hd) (by cases hd <;> rfl)
    (h.fluent?_eq_some (waiting_mem hd)) rfl rfl hargs
  change (Elevators.waiting hd).Allows _ [("f", f)] b at hallows
  by_contra hnone
  exact hgone ((Value.some_bool_iff hb).mpr (waiting_allows h hd hallows hwaits hnone))

/-- After a step somebody rides an elevator if they did before and it was not at
their last floor, or if nobody did and it stood open where somebody waited. -/
theorem rides_iff (h : Grounded domain i m) (ht : m.Transits domain state action next reward)
    (hd : Heading) (he : e ∈ objectsOf i "elevator") :
    hd.Rides m next e ↔
      (hd.Rides m state e ∧ ¬∃ f, Stops m state e f ∧ hd.Ends m f) ∨
        (¬hd.Rides m state e ∧ ∃ f, hd.Waits m state f ∧ hd.Opens m state e f) := by
  obtain ⟨b, hb, hallows⟩ := ht.exists_allowed h (riding_cpf hd) (by cases hd <;> rfl)
    (h.fluent?_eq_some (riding_mem hd)) rfl rfl (.cons he .nil)
  change (Elevators.riding hd).Allows _ [("e", e)] b at hallows
  have hcases := riding_allows h hd hallows
  have hnext : hd.Rides m next e ↔ b = true := Value.some_bool_iff hb
  rw [hnext]
  rcases hcases with ⟨hrides, hiff⟩ | ⟨hrides, hiff⟩
  · simp only [hiff, hrides, true_and, not_true_eq_false, false_and, or_false]
  · simp only [hiff, hrides, not_false_eq_true, true_and, false_and, false_or]

/-- Somebody who waits and does not any more is in an elevator, unless this was
the last floor. -/
theorem boards_of_transits (h : Grounded domain i m)
    (ht : m.Transits domain state action next reward) (hsettled : Settled i m state)
    {hd : Heading} (hwaits : hd.Waits m state f) (hgone : ¬hd.Waits m next f)
    (hends : ¬hd.Ends m f) : ∃ e, hd.Opens m state e f ∧ hd.Rides m next e := by
  obtain ⟨e, hopens⟩ := exists_opens_of_transits h ht hwaits hgone
  have he : e ∈ objectsOf i "elevator" := (mem_of_stops h hopens.1).1
  refine ⟨e, hopens, (rides_iff h ht hd he).mpr ?_⟩
  by_cases hrides : hd.Rides m state e
  · -- The elevator lets nobody out, as it is at this floor alone.
    refine .inl ⟨hrides, ?_⟩
    rintro ⟨f', hstops, hlast⟩
    obtain rfl := (hsettled e he).unique hstops hopens.1
    exact hends hlast
  · exact .inr ⟨hrides, f, hwaits, hopens⟩

/-- Somebody who rides and does not any more was at the last floor. -/
theorem leaves_of_transits (h : Grounded domain i m)
    (ht : m.Transits domain state action next reward) {hd : Heading}
    (hrides : hd.Rides m state e) (hgone : ¬hd.Rides m next e) :
    ∃ f, Stops m state e f ∧ hd.Ends m f := by
  have hargs : List.Forall₂ (fun o p => o ∈ objectsOf i p) [e] ["elevator"] :=
    h.forall₂_of_lookup? (h.fluent?_eq_some (riding_mem hd)) hrides
  have he : e ∈ objectsOf i "elevator" := by simpa using hargs
  by_contra hnone
  exact hgone ((rides_iff h ht hd he).mpr (.inl ⟨hrides, hnone⟩))

/-! ## The values of an open elevator -/

/-- In a state with all values, an elevator that stands open has its door not
closed and its direction set to where it heads. -/
theorem values_of_opens (h : Grounded domain i m) (htyped : m.Typed .state state) {hd : Heading}
    (hopens : hd.Opens m state e f) :
    m.lookup? .state state "elevator-at-floor" [e, f] = some (.bool true) ∧
      m.lookup? .state state "elevator-closed" [e] = some (.bool false) ∧
      m.lookup? .state state "elevator-dir-up" [e] = some (.bool (decide (hd = .up))) := by
  obtain ⟨hstops, hheads, hopen⟩ := hopens
  have he : e ∈ objectsOf i "elevator" := (mem_of_stops h hstops).1
  refine ⟨hstops, ?_, ?_⟩
  · exact h.lookup?_eq_false (h.fluent?_eq_some closed_mem) rfl htyped (.cons he .nil) hopen
  · cases hd with
    | up => exact hheads
    | down =>
        exact h.lookup?_eq_false (h.fluent?_eq_some headsUp_mem) rfl htyped (.cons he .nil) hheads

end Heading

/-! ## All runs -/

/-- In a building where every floor has at most one next floor above it and at
most one below, and whose elevators start at exactly one floor each, nobody is
lost in a step that is committed: somebody who stops to wait at a floor that is
not the last one their way is in an elevator that stood open there and headed
their way, and somebody who stops to ride was at the last floor. -/
theorem passengers_kept {i : Instance} {m : Model} {c : EngineConfig} {en : Engine}
    (h : Model.ground domain i = .ok m) (hstacked : Stacked m)
    (hinitial : Settled i m m.initialState) (he : Engine.Reachable m c en) {a : Action}
    {t : Transition} (hstep : (en.step a).1 = .ok t) (hd : Heading) :
    let after := (en.step a).2
    (∀ f, en.stateValue? hd.waiting [f] = some (.bool true) →
      after.stateValue? hd.waiting [f] = some (.bool false) →
      ¬m.nonFluent? hd.terminal [f] = some (.bool true) →
      ∃ e, en.stateValue? "elevator-at-floor" [e, f] = some (.bool true) ∧
        en.stateValue? "elevator-closed" [e] = some (.bool false) ∧
        en.stateValue? "elevator-dir-up" [e] = some (.bool (decide (hd = .up))) ∧
        after.stateValue? hd.riding [e] = some (.bool true)) ∧
    ∀ e, en.stateValue? hd.riding [e] = some (.bool true) →
      after.stateValue? hd.riding [e] = some (.bool false) →
      ∃ f, en.stateValue? "elevator-at-floor" [e, f] = some (.bool true) ∧
        m.nonFluent? hd.terminal [f] = some (.bool true) := by
  have hg := grounded_of_ground h
  have hsettled : Settled i m en.current := by
    refine Engine.current_preserves hg hinitial ?_ he
    intro state chosen action next reward _ hstate _ ht
    exact settled_of_transits hg hstacked ht hstate
  obtain ⟨action, _, ht⟩ := Engine.exists_transits hg he hstep
  have hafter := (Engine.typed_of_reachable hg (he.step a)).model
  have htyped := Engine.typed_of_reachable hg he
  have hmodel := htyped.model
  simp only [Engine.stateValue?, hafter, hmodel]
  constructor
  · intro f hwaits hgone hends
    have hgone : ¬hd.Waits m (en.step a).2.current f := by
      rw [Heading.Waits, hgone]
      decide
    obtain ⟨e, hopens, hrides⟩ :=
      Heading.boards_of_transits hg ht hsettled hwaits hgone hends
    obtain ⟨hstops, hopen, hheads⟩ := Heading.values_of_opens hg htyped.current hopens
    exact ⟨e, hstops, hopen, hheads, hrides⟩
  · intro e hrides hgone
    have hgone : ¬hd.Rides m (en.step a).2.current e := by
      rw [Heading.Rides, hgone]
      decide
    exact Heading.leaves_of_transits hg ht hrides hgone

/-- Two floors and an elevator that stands open at the lower one, where somebody
waits to go up and somebody in the elevator wants to get off. -/
def openDoor : Instance where
  name := "elevators_inst_open_door"
  domain := name
  objects :=
    [{ typeName := "elevator", objects := ["e0"] },
      { typeName := "floor", objects := ["f0", "f1"] }]
  nonFluents :=
    [.holds "ADJACENT-UP" ["f0", "f1"], .holds "TOP-FLOOR" ["f1"], .holds "BOTTOM-FLOOR" ["f0"]]
  initState :=
    [.holds "elevator-at-floor" ["e0", "f0"], .holds "person-waiting-up" ["f0"],
      .holds "person-in-elevator-going-down" ["e0"],
      { fluent := "elevator-closed", args := ["e0"], value := .bool false }]
  maxNonDefaultActions := none
  horizon := 40
  discount := 1.0

/-- While nothing is done, one passenger gets into the open elevator and the
other one leaves it. -/
theorem passengers_kept_openDoor :
    ∃ m en t, Model.ground domain openDoor = .ok m ∧ Stacked m ∧
      Settled openDoor m m.initialState ∧ Engine.create m .standard = .ok en ∧
      (en.step .noop).1 = .ok t ∧
      let after := (en.step .noop).2
      (en.stateValue? "person-waiting-up" ["f0"] = some (.bool true) ∧
        after.stateValue? "person-waiting-up" ["f0"] = some (.bool false) ∧
        ¬m.nonFluent? "TOP-FLOOR" ["f0"] = some (.bool true) ∧
        ∃ e, en.stateValue? "elevator-at-floor" [e, "f0"] = some (.bool true) ∧
          en.stateValue? "elevator-closed" [e] = some (.bool false) ∧
          en.stateValue? "elevator-dir-up" [e] = some (.bool true) ∧
          after.stateValue? "person-in-elevator-going-up" [e] = some (.bool true)) ∧
      (en.stateValue? "person-in-elevator-going-down" ["e0"] = some (.bool true) ∧
        after.stateValue? "person-in-elevator-going-down" ["e0"] = some (.bool false) ∧
        ∃ f, en.stateValue? "elevator-at-floor" ["e0", f] = some (.bool true) ∧
          m.nonFluent? "BOTTOM-FLOOR" [f] = some (.bool true)) := by
  obtain ⟨m, hm, habove, hbelow, hone, hlow, en, hen, t, ht, hwaits, hgone, hrides, hleft⟩ :
      ∃ m, Model.ground domain openDoor = .ok m ∧
        (∀ f ∈ objectsOf openDoor "floor", ∀ g ∈ objectsOf openDoor "floor",
          ∀ g' ∈ objectsOf openDoor "floor", Above m f g → Above m f g' → g = g') ∧
        (∀ f ∈ objectsOf openDoor "floor", ∀ f' ∈ objectsOf openDoor "floor",
          ∀ g ∈ objectsOf openDoor "floor", Above m f g → Above m f' g → f = f') ∧
        (∀ e ∈ objectsOf openDoor "elevator", ∃ f ∈ objectsOf openDoor "floor",
          ∀ g ∈ objectsOf openDoor "floor", Stops m m.initialState e g ↔ g = f) ∧
        ¬m.nonFluent? "TOP-FLOOR" ["f0"] = some (.bool true) ∧
        ∃ en ∈ (Engine.create m .standard).toOption, ∃ t ∈ (en.step .noop).1.toOption,
          en.stateValue? "person-waiting-up" ["f0"] = some (.bool true) ∧
          (en.step .noop).2.stateValue? "person-waiting-up" ["f0"] = some (.bool false) ∧
          en.stateValue? "person-in-elevator-going-down" ["e0"] = some (.bool true) ∧
          (en.step .noop).2.stateValue? "person-in-elevator-going-down" ["e0"] =
            some (.bool false) := by
    apply Model.exists_ground_of_any
    unfold Model.ground Model.groundBy Grounding.blocks orderObservations
    rw [domain_valid, sortedFluents_domain, checkInhabited_eq_checkNoneBare,
      Dependency.order_eq_orderUpTo]
    decide +kernel
  have hg := grounded_of_ground hm
  have hstacked := stacked_of_floors hg habove hbelow
  have hsettled := settled_of_floors hg hone
  rw [mem_toOption_iff] at hen ht
  have hreachable := Engine.Reachable.create hen
  have hboards := (passengers_kept hm hstacked hsettled hreachable ht .up).1 "f0"
    hwaits hgone hlow
  have hleaves := (passengers_kept hm hstacked hsettled hreachable ht .down).2 "e0"
    hrides hleft
  exact ⟨m, en, t, hm, hstacked, hsettled, hen, ht,
    ⟨hwaits, hgone, hlow, hboards⟩, ⟨hrides, hleft, hleaves⟩⟩

end Elevators
end LiftedPomdp
