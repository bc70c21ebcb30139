import LiftedPomdp.Problems.Elevators
import LiftedPomdp.Proofs.Ground.Evaluation
import LiftedPomdp.Proofs.Run.Transition

/-!
# Elevators do not get lost

Where an elevator is after a step is computed for each floor on its own: it
comes to a floor from the one below or above, whichever way it heads, and stays
at a floor that has no next one that way.  Where no floor has two next ones in
a direction, an elevator that starts at exactly one floor is always at exactly
one, whatever actions are taken at once.
-/

namespace LiftedPomdp
namespace Elevators

open Grounding

/-! ## Floors and headings -/

/-- An elevator is at a floor in a state. -/
def Stops (m : Model) (state : Table) (e f : String) : Prop :=
  m.lookup? .state state "elevator-at-floor" [e, f] = some (.bool true)

/-- The next floor above another one. -/
def Above (m : Model) (f f' : String) : Prop :=
  m.nonFluent? "ADJACENT-UP" [f, f'] = some (.bool true)

namespace Heading

/-- An elevator that heads this way goes from one floor to another. -/
def Leads (m : Model) : Heading → String → String → Prop
  | .up, f, f' => Above m f f'
  | .down, f, f' => Above m f' f

/-- An elevator heads this way in a state. -/
def Heads (m : Model) (state : Table) (e : String) : Heading → Prop
  | .up => m.lookup? .state state "elevator-dir-up" [e] = some (.bool true)
  | .down => ¬m.lookup? .state state "elevator-dir-up" [e] = some (.bool true)

/-- An elevator moves this way: its door is closed and it is told to move. -/
def Moves (m : Model) (state action : Table) (e : String) (hd : Heading) : Prop :=
  m.lookup? .state state "elevator-closed" [e] = some (.bool true) ∧
    m.lookup? .action action "move-current-dir" [e] = some (.bool true) ∧ hd.Heads m state e

end Heading

variable {i : Instance} {m : Model} {state action next : Table} {reward : Float} {e f : String}

theorem domain_valid : domain.validate = .ok () := by
  decide +kernel

theorem sortedFluents_domain :
    sortedFluents domain = domain.fluents.insertionSort fun f g => f.name ≤ g.name :=
  sortedFluents_eq_insertionSort (Domain.nodup_of_validate domain_valid).2.1

theorem atFloor_mem : FluentDecl.state "elevator-at-floor" .bool ["elevator", "floor"]
    (.bool false) ∈ domain.fluents := by
  simp [domain, fluents]

theorem above_mem : FluentDecl.nonFluent "ADJACENT-UP" .bool ["floor", "floor"]
    (.bool false) ∈ domain.fluents := by
  simp [domain, fluents]

theorem headsUp_mem : FluentDecl.state "elevator-dir-up" .bool ["elevator"]
    (.bool true) ∈ domain.fluents := by
  simp [domain, fluents]

theorem closed_mem : FluentDecl.state "elevator-closed" .bool ["elevator"]
    (.bool true) ∈ domain.fluents := by
  simp [domain, fluents]

theorem move_mem : FluentDecl.action "move-current-dir" .bool ["elevator"]
    (.bool false) ∈ domain.fluents := by
  simp [domain, fluents]

theorem floor_mem : "floor" ∈ domain.types := by
  simp [domain]

theorem mem_of_stops (h : Grounded domain i m) (hstops : Stops m state e f) :
    e ∈ objectsOf i "elevator" ∧ f ∈ objectsOf i "floor" := by
  have hargs := h.forall₂_of_lookup? (h.fluent?_eq_some atFloor_mem) hstops
  simpa [FluentDecl.state] using hargs

theorem mem_of_above (h : Grounded domain i m) {f f' : String} (habove : Above m f f') :
    f ∈ objectsOf i "floor" ∧ f' ∈ objectsOf i "floor" := by
  have hargs := h.forall₂_of_lookup? (h.fluent?_eq_some above_mem) habove
  simpa [FluentDecl.nonFluent] using hargs

namespace Heading

variable {hd hd' : Heading}

theorem mem_of_leads (h : Grounded domain i m) {f f' : String} (hleads : hd.Leads m f f') :
    f ∈ objectsOf i "floor" ∧ f' ∈ objectsOf i "floor" := by
  cases hd with
  | up => exact mem_of_above h hleads
  | down => exact (mem_of_above h hleads).symm

theorem exists_iff {P : Heading → Prop} : (∃ hd, P hd) ↔ P .up ∨ P .down := by
  constructor
  · rintro ⟨_ | _, hhd⟩
    · exact .inl hhd
    · exact .inr hhd
  · rintro (hup | hdown)
    · exact ⟨.up, hup⟩
    · exact ⟨.down, hdown⟩

/-- An elevator heads one way. -/
theorem exists_heads_iff (m : Model) (state : Table) (e : String) :
    ∃ hd : Heading, ∀ hd' : Heading, hd'.Heads m state e ↔ hd' = hd := by
  by_cases hup : Heads m state e .up
  · refine ⟨.up, fun hd' => ?_⟩
    cases hd' with
    | up => exact iff_of_true hup rfl
    | down => exact iff_of_false (not_not_intro hup) nofun
  · refine ⟨.down, fun hd' => ?_⟩
    cases hd' with
    | up => exact iff_of_false hup nofun
    | down => exact iff_of_true hup rfl

theorem heads_unique (h : hd.Heads m state e) (h' : hd'.Heads m state e) : hd = hd' := by
  obtain ⟨hd₀, hiff⟩ := exists_heads_iff m state e
  rw [(hiff hd).mp h, (hiff hd').mp h']

/-! ## The function of the floor -/

/-- A floor is next to another one this way. -/
def adjacent (source target : String) : Heading → Expr
  | .up => .now "ADJACENT-UP" [source, target]
  | .down => .now "ADJACENT-UP" [target, source]

/-- The elevator `?e` heads this way and comes to the floor `?f`. -/
def comes (hd : Heading) : Expr :=
  .and [hd.holds, .quantify .exists [("?cur", "floor")]
    (.and [.now "elevator-at-floor" ["?e", "?cur"], hd.adjacent "?cur" "?f"])]

/-- The elevator `?e` heads this way and cannot go on from the floor `?f`. -/
def isStuck (hd : Heading) : Expr :=
  .and [hd.holds, .and [.now "elevator-at-floor" ["?e", "?f"],
    .not (.quantify .exists [("?nxt", "floor")] (hd.adjacent "?f" "?nxt"))]]

theorem holds_comes (h : Grounded domain i m) (hd : Heading) (e f : String) :
    hd.comes.Holds (m.scene (.current m.nonFluents state action)) [("f", f), ("e", e)] ↔
      hd.Heads m state e ∧ ∃ p, Stops m state e p ∧ hd.Leads m p f := by
  have hform : hd.comes.Holds (m.scene (.current m.nonFluents state action))
      [("f", f), ("e", e)] ↔ hd.Heads m state e ∧
        ∃ p ∈ objectsOf i "floor", Stops m state e p ∧ hd.Leads m p f := by
    cases hd <;> simp [comes, Heading.holds, adjacent, Heads, Leads, Stops, Above,
      h.holds_state atFloor_mem, h.holds_state headsUp_mem, h.holds_nonFluent above_mem,
      h.scene_object_iff _ floor_mem]
  rw [hform]
  refine and_congr_right fun _ => exists_congr fun p => and_iff_right_of_imp ?_
  exact fun hp => (mem_of_stops h hp.1).2

theorem holds_isStuck (h : Grounded domain i m) (hd : Heading) (e f : String) :
    hd.isStuck.Holds (m.scene (.current m.nonFluents state action)) [("f", f), ("e", e)] ↔
      hd.Heads m state e ∧ Stops m state e f ∧ ¬∃ q, hd.Leads m f q := by
  have hform : hd.isStuck.Holds (m.scene (.current m.nonFluents state action))
      [("f", f), ("e", e)] ↔ hd.Heads m state e ∧ Stops m state e f ∧
        ¬∃ q ∈ objectsOf i "floor", hd.Leads m f q := by
    cases hd <;> simp [isStuck, Heading.holds, adjacent, Heads, Leads, Stops, Above,
      h.holds_state atFloor_mem, h.holds_state headsUp_mem, h.holds_nonFluent above_mem,
      h.scene_object_iff _ floor_mem]
  rw [hform]
  refine and_congr_right fun _ => and_congr_right fun _ => not_congr (exists_congr fun q => ?_)
  exact and_iff_right_of_imp fun hq => (mem_of_leads h hq).2

end Heading

/-- An elevator stays where it is, or comes to a floor or is stuck there. -/
theorem atFloor_eq : atFloor =
    .ite (.or [.not (.now "elevator-closed" ["?e"]), .not (.now "move-current-dir" ["?e"])])
      (.kronDelta (.now "elevator-at-floor" ["?e", "?f"]))
      ([Heading.up.comes, Heading.down.comes, Heading.up.isStuck, Heading.down.isStuck].foldr
        (fun condition rest => .ite condition (.kronDelta (.bool true)) rest)
        (.kronDelta (.bool false))) := rfl

/-- The values that the function of a floor may come to. -/
theorem atFloor_allows {sc : Scene} {env : Environment} {b : Bool} (h : atFloor.Allows sc env b) :
    (¬((Expr.now "elevator-closed" ["?e"]).Holds sc env ∧
        (Expr.now "move-current-dir" ["?e"]).Holds sc env) ∧
      (b = true ↔ (Expr.now "elevator-at-floor" ["?e", "?f"]).Holds sc env)) ∨
    (((Expr.now "elevator-closed" ["?e"]).Holds sc env ∧
        (Expr.now "move-current-dir" ["?e"]).Holds sc env) ∧
      (b = true ↔ ∃ hd : Heading, hd.comes.Holds sc env ∨ hd.isStuck.Holds sc env)) := by
  rw [atFloor_eq, Expr.Allows, Expr.allows_foldr_ite, Expr.Holds] at h
  simp only [Expr.SomeHolds, Expr.Holds, Expr.Allows, Expr.holds_bool, iff_true,
    Bool.false_eq_true, iff_false, or_false, ← not_and_or, not_not, List.mem_cons,
    List.not_mem_nil, exists_eq_or_imp, exists_eq_left] at h
  rw [Heading.exists_iff]
  tauto

/-! ## One step -/

/-- After a step an elevator is at the floors to which it has moved, and at those
where it was unless it moves and they have a next one. -/
theorem stops_iff (h : Grounded domain i m) (ht : m.Transits domain state action next reward)
    (he : e ∈ objectsOf i "elevator") (hf : f ∈ objectsOf i "floor") :
    Stops m next e f ↔
      (∃ hd : Heading, hd.Moves m state action e ∧ ∃ p, Stops m state e p ∧ hd.Leads m p f) ∨
        (Stops m state e f ∧
          ¬∃ hd : Heading, hd.Moves m state action e ∧ ∃ q, hd.Leads m f q) := by
  obtain ⟨b, hb, hallows⟩ := ht.exists_allowed h
    (c := .ofTexts "elevator-at-floor" ["?e", "?f"] atFloor) (by simp [domain, cpfs]) rfl
    (h.fluent?_eq_some atFloor_mem) rfl rfl (.cons he (.cons hf .nil))
  have hclosed : (Expr.now "elevator-closed" ["?e"]).Holds
      (m.scene (.current m.nonFluents state action)) [("f", f), ("e", e)] ↔
        m.lookup? .state state "elevator-closed" [e] = some (.bool true) := by
    simp [h.holds_state closed_mem]
  have hmove : (Expr.now "move-current-dir" ["?e"]).Holds
      (m.scene (.current m.nonFluents state action)) [("f", f), ("e", e)] ↔
        m.lookup? .action action "move-current-dir" [e] = some (.bool true) := by
    simp [h.holds_action move_mem]
  have hhere : (Expr.now "elevator-at-floor" ["?e", "?f"]).Holds
      (m.scene (.current m.nonFluents state action)) [("f", f), ("e", e)] ↔
        Stops m state e f := by
    simp [Stops, h.holds_state atFloor_mem]
  change atFloor.Allows _ [("f", f), ("e", e)] b at hallows
  have hcases := atFloor_allows hallows
  simp only [Heading.holds_comes h, Heading.holds_isStuck h, hclosed, hmove, hhere] at hcases
  have hnext : Stops m next e f ↔ b = true := Value.some_bool_iff hb
  rw [hnext]
  rcases hcases with ⟨hstill, hiff⟩ | ⟨hmoving, hiff⟩
  · have hnot : ∀ hd : Heading, ¬hd.Moves m state action e :=
      fun hd hmoves => hstill ⟨hmoves.1, hmoves.2.1⟩
    simp only [hiff, hnot, false_and, exists_false, not_false_eq_true, and_true, false_or]
  · -- The elevator moves the one way that it heads, and either comes from a floor or is stuck.
    obtain ⟨hd, hheads⟩ := Heading.exists_heads_iff m state e
    have hmoves : ∀ hd' : Heading, hd'.Moves m state action e ↔ hd' = hd := by
      intro hd'
      rw [Heading.Moves, and_iff_right hmoving.1, and_iff_right hmoving.2, hheads]
    rw [hiff]
    simp only [hmoves, hheads, ← and_or_left, exists_eq_left]

/-! ## All steps -/

/-- Every elevator is at exactly one floor. -/
def Settled (i : Instance) (m : Model) (state : Table) : Prop :=
  ∀ e ∈ objectsOf i "elevator", ∃! f, Stops m state e f

/-- Every floor has at most one next floor above it, and at most one below. -/
structure Stacked (m : Model) : Prop where
  above : ∀ f g g', Above m f g → Above m f g' → g = g'
  below : ∀ f f' g, Above m f g → Above m f' g → f = f'

theorem Heading.leads_unique (hstacked : Stacked m) {hd : Heading} {p q q' : String}
    (hq : hd.Leads m p q) (hq' : hd.Leads m p q') : q = q' := by
  cases hd with
  | up => exact hstacked.above p q q' hq hq'
  | down => exact hstacked.below q q' p hq hq'

/-- A step keeps every elevator at exactly one floor. -/
theorem settled_of_transits (h : Grounded domain i m) (hstacked : Stacked m)
    (ht : m.Transits domain state action next reward) (hsettled : Settled i m state) :
    Settled i m next := by
  intro e he
  refine existsUnique_moved (Heading.Moves m state action e) (Heading.Leads m) (hsettled e he)
    ?_ ?_ ?_
  · exact fun hd hd' hmoves hmoves' => Heading.heads_unique hmoves.2.2 hmoves'.2.2
  · exact fun hd p q q' => Heading.leads_unique hstacked
  · intro f
    by_cases hf : f ∈ objectsOf i "floor"
    · exact stops_iff h ht he hf
    · refine iff_of_false (fun hstops => hf (mem_of_stops h hstops).2) ?_
      rintro (⟨hd, _, p, _, hleads⟩ | ⟨hstops, _⟩)
      · exact hf (Heading.mem_of_leads h hleads).2
      · exact hf (mem_of_stops h hstops).2

/-! ## The small building -/

instance (m : Model) (state : Table) (e f : String) : Decidable (Stops m state e f) :=
  inferInstanceAs (Decidable (_ = _))

instance (m : Model) (f f' : String) : Decidable (Above m f f') :=
  inferInstanceAs (Decidable (_ = _))

/-- Only floors of the building are next to each other, so it is enough to check
those. -/
theorem stacked_of_floors (h : Grounded domain i m)
    (habove : ∀ f ∈ objectsOf i "floor", ∀ g ∈ objectsOf i "floor",
      ∀ g' ∈ objectsOf i "floor", Above m f g → Above m f g' → g = g')
    (hbelow : ∀ f ∈ objectsOf i "floor", ∀ f' ∈ objectsOf i "floor",
      ∀ g ∈ objectsOf i "floor", Above m f g → Above m f' g → f = f') : Stacked m := by
  constructor
  · intro f g g' hfg hfg'
    obtain ⟨hf, hg⟩ := mem_of_above h hfg
    exact habove f hf g hg g' (mem_of_above h hfg').2 hfg hfg'
  · intro f f' g hfg hfg'
    obtain ⟨hf, hg⟩ := mem_of_above h hfg
    exact hbelow f hf f' (mem_of_above h hfg').1 g hg hfg hfg'

/-- The floors where an elevator is are floors of the building. -/
theorem settled_of_floors (h : Grounded domain i m)
    (hone : ∀ e ∈ objectsOf i "elevator", ∃ f ∈ objectsOf i "floor",
      ∀ g ∈ objectsOf i "floor", Stops m state e g ↔ g = f) : Settled i m state := by
  intro e he
  obtain ⟨f, hf, hiff⟩ := hone e he
  refine ⟨f, (hiff f hf).mpr rfl, ?_⟩
  intro g hstops
  exact (hiff g (mem_of_stops h hstops).2).mp hstops

/-- In the small building every floor has at most one next floor on either side,
and the elevator starts at the lowest floor. -/
theorem exists_threeFloors : ∃ m, Model.ground domain threeFloors = .ok m ∧ Stacked m ∧
    Settled threeFloors m m.initialState := by
  obtain ⟨m, hm, habove, hbelow, hone⟩ : ∃ m, Model.ground domain threeFloors = .ok m ∧
      (∀ f ∈ objectsOf threeFloors "floor", ∀ g ∈ objectsOf threeFloors "floor",
        ∀ g' ∈ objectsOf threeFloors "floor", Above m f g → Above m f g' → g = g') ∧
      (∀ f ∈ objectsOf threeFloors "floor", ∀ f' ∈ objectsOf threeFloors "floor",
        ∀ g ∈ objectsOf threeFloors "floor", Above m f g → Above m f' g → f = f') ∧
      (∀ e ∈ objectsOf threeFloors "elevator", ∃ f ∈ objectsOf threeFloors "floor",
        ∀ g ∈ objectsOf threeFloors "floor", Stops m m.initialState e g ↔ g = f) := by
    apply Model.exists_ground_of_any
    unfold Model.ground Model.groundBy Grounding.blocks orderObservations
    rw [domain_valid, sortedFluents_domain, checkInhabited_eq_checkNoneBare,
      Dependency.order_eq_orderUpTo]
    decide +kernel
  have hg := grounded_of_ground hm
  exact ⟨m, hm, stacked_of_floors hg habove hbelow, settled_of_floors hg hone⟩

/-! ## All runs -/

/-- In a building where every floor has at most one next floor above it and at
most one below, elevators that start at exactly one floor each are at exactly
one floor each in every state that an engine comes to, whether or not it checks
the constraints. -/
theorem elevator_at_one_floor {c : EngineConfig} {en : Engine}
    (h : Model.ground domain i = .ok m) (hstacked : Stacked m)
    (hinitial : Settled i m m.initialState) (he : Engine.Reachable m c en) :
    ∀ e ∈ objectsOf i "elevator", ∃! f,
      en.stateValue? "elevator-at-floor" [e, f] = some (.bool true) := by
  have hg := grounded_of_ground h
  have hsettled : Settled i m en.current := by
    refine Engine.current_preserves hg hinitial ?_ he
    intro state chosen action next reward _ hstate _ ht
    exact settled_of_transits hg hstacked ht hstate
  obtain rfl := (Engine.typed_of_reachable hg he).model
  exact hsettled

/-- In the small building the elevator is at one floor after it was told to move
twice. -/
theorem elevator_at_one_floor_threeFloors :
    EngineConfig.standard.validate = .ok () ∧
      ∃ m en, Model.ground domain threeFloors = .ok m ∧ Stacked m ∧
        Settled threeFloors m m.initialState ∧ Engine.create m .standard = .ok en ∧
        let moved := ((en.reset 7).step (Action.noop.set "move-current-dir" ["e0"] (.bool true))).2
        let moved' := (moved.step (Action.noop.set "move-current-dir" ["e0"] (.bool true))).2
        ∃! f, moved'.stateValue? "elevator-at-floor" ["e0", f] = some (.bool true) := by
  have hc : EngineConfig.standard.validate = .ok () := by decide +kernel
  obtain ⟨m, hm, hstacked, hinitial⟩ := exists_threeFloors
  obtain ⟨en, hen⟩ := Engine.exists_create m hc
  have hreachable := (Engine.Reachable.create hen).reset 7
  exact ⟨hc, m, en, hm, hstacked, hinitial, hen, elevator_at_one_floor hm hstacked hinitial
    ((hreachable.step _).step _) "e0" (by decide)⟩

end Elevators
end LiftedPomdp
