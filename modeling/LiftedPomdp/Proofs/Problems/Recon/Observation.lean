import LiftedPomdp.Proofs.Problems.Recon.Discovery

/-!
# What rovers observe is true

The functions of the observations see the new state, so the positions and the
damages that are observed are those after the step.  Whether an object is
detected is a function of other observations, which are drawn before it though
its name comes first.  A detector may miss what is there, but it reports only
what a rover has looked for from the cell on which it stands by then, and only
what is there.
-/

namespace LiftedPomdp
namespace Recon

open Effects Grounding

/-! ## Detectors -/

/-- The detectors of a rover. -/
inductive Detector where
  | water
  | life
  deriving DecidableEq, Repr

namespace Detector

/-- The observation of what is detected. -/
def report : Detector → String
  | .water => "waterObserved"
  | .life => "lifeObserved"

/-- The kind of tool. -/
def toolKind : Detector → String
  | .water => "WATER_TOOL"
  | .life => "LIFE_TOOL"

/-- What is looked for. -/
def presence : Detector → String
  | .water => "HAS_WATER"
  | .life => "HAS_LIFE"

theorem report_mem (d : Detector) : sight d.report ["obj"] ∈ domain.fluents := by
  cases d <;> simp [domain, fluents, report]

theorem toolKind_mem (d : Detector) : relation d.toolKind ["tool"] ∈ domain.fluents := by
  cases d <;> simp [domain, fluents, toolKind]

theorem presence_mem (d : Detector) : fact d.presence ["obj"] ∈ domain.fluents := by
  cases d <;> simp [domain, fluents, presence]

theorem report_cpf (d : Detector) :
    CpfDecl.ofTexts d.report ["?o"] (detected d.toolKind d.presence) ∈ domain.cpfs := by
  apply List.mem_append_right
  cases d with
  | water => exact .head _
  | life => exact .tail _ (.head _)

end Detector

theorem detectedObs_mem : sight "objDetected" ["obj"] ∈ domain.fluents := by
  simp [domain, fluents]

theorem agentAtObs_mem : sight "agentAtObs" ["agent", "x_pos", "y_pos"] ∈ domain.fluents := by
  simp [domain, fluents]

theorem damagedObs_mem : sight "damagedObs" ["tool"] ∈ domain.fluents := by
  simp [domain, fluents]

variable {i : Instance} {m : Model} {action next observed : Table} {o : String}

/-- A rover uses a tool of a kind on an object of the cell where it stands. -/
def Uses (m : Model) (state action : Table) (kind o : String) : Prop :=
  ∃ a t, m.lookup? .action action "useToolOn" [a, t, o] = some (.bool true) ∧
    m.nonFluent? kind [t] = some (.bool true) ∧
    ∃ x y, Stands m state a (x, y) ∧ m.nonFluent? "objAt" [o, x, y] = some (.bool true)

/-! ## The functions -/

theorem holds_toolUsed {sc : Scene} {kind : String} {condition : Expr} {next : Bool} :
    (toolUsed kind [condition] next).Holds sc [("o", o)] ↔
      ∃ a, sc.object "agent" a ∧ ∃ t, sc.object "tool" t ∧
        sc.holds false ⟨"useToolOn", [a, t, o]⟩ ∧ sc.holds false ⟨kind, [t]⟩ ∧
        condition.Holds sc [("t", t), ("a", a), ("o", o)] ∧
        ∃ x, sc.object "x_pos" x ∧ ∃ y, sc.object "y_pos" y ∧
          sc.holds next ⟨"agentAt", [a, x, y]⟩ ∧ sc.holds false ⟨"objAt", [o, x, y]⟩ := by
  simp [toolUsed, onCell]

/-- In the new state the rover stands on the cell of the object on which it uses
a tool, whether the tool is damaged or not. -/
theorem uses_of_holds (h : Grounded domain i m) {kind : String}
    (hkind : relation kind ["tool"] ∈ domain.fluents) {condition : Expr}
    (hused : (toolUsed kind [condition] true).Holds
      (m.scene (.observing m.nonFluents next action observed)) [("o", o)]) :
    Uses m next action kind o := by
  obtain ⟨a, _, t, _, huse, htool, _, x, _, y, _, hstands, hat⟩ := holds_toolUsed.mp hused
  exact ⟨a, t, (h.observes_action use_mem).mp huse, (h.observes_nonFluent hkind).mp htool, x, y,
    (h.observes_state agentAt_mem).mp hstands, (h.observes_nonFluent objAt_mem).mp hat⟩

/-- A detector reports only what is there and what a tool is used on. -/
theorem detected_allows {sc : Scene} {env : Environment} {kind presence : String}
    (h : (detected kind presence).Allows sc env true) :
    (Expr.later presence ["?o"]).Holds sc env ∧
      ∃ condition, (toolUsed kind [condition] true).Holds sc env := by
  simp only [detected, Expr.Allows, Expr.holds_bool, true_iff, Bool.false_eq_true, and_false,
    false_or, or_false, and_true] at h
  obtain ⟨hnot, hused⟩ := h
  rw [Expr.Holds, not_not] at hnot
  refine ⟨hnot, ?_⟩
  rcases hused with hintact | ⟨_, hbroken⟩
  · exact ⟨_, hintact⟩
  · exact ⟨_, hbroken⟩

/-! ## One step -/

section Step

variable (h : Grounded domain i m) (hobserved : m.Drawn domain
  (.observing m.nonFluents next action observed) .observation observed)

include h hobserved

/-- A detector reports that something is there or that it is not.  In the first
case it is there in the new state, and a rover has looked for it. -/
theorem exists_reported (d : Detector) (ho : o ∈ objectsOf i "obj") :
    ∃ b, m.lookup? .observation observed d.report [o] = some (.bool b) ∧
      (b = true → Has m next d.presence o ∧ Uses m next action d.toolKind o) := by
  obtain ⟨b, hb, hallows⟩ := hobserved.exists_allowed h d.report_cpf (by cases d <;> rfl)
    (h.fluent?_eq_some d.report_mem) rfl rfl (.cons ho .nil)
  change (detected d.toolKind d.presence).Allows _ [("o", o)] b at hallows
  refine ⟨b, hb, ?_⟩
  rintro rfl
  obtain ⟨hpresent, condition, hused⟩ := detected_allows hallows
  have hpresence : (Expr.later d.presence ["?o"]).Holds
      (m.scene (.observing m.nonFluents next action observed)) [("o", o)] ↔
        Has m next d.presence o := by
    simp [Has, h.observes_state d.presence_mem]
  exact ⟨hpresence.mp hpresent, uses_of_holds h d.toolKind_mem hused⟩

/-- An object is detected where one of the detectors reports something. -/
theorem detected_eq (ho : o ∈ objectsOf i "obj") {w l : Bool}
    (hw : m.lookup? .observation observed "waterObserved" [o] = some (.bool w))
    (hl : m.lookup? .observation observed "lifeObserved" [o] = some (.bool l)) :
    m.lookup? .observation observed "objDetected" [o] = some (.bool (w || l)) := by
  obtain ⟨b, hb, hallows⟩ := hobserved.exists_allowed h
    (c := .ofTexts "objDetected" ["?o"]
      (.kronDelta (.or [.now "waterObserved" ["?o"], .now "lifeObserved" ["?o"]])))
    (by simp [domain, observationCpfs]) rfl (h.fluent?_eq_some detectedObs_mem) rfl rfl
    (.cons ho .nil)
  have hiff : b = true ↔
      m.lookup? .observation observed "waterObserved" [o] = some (.bool true) ∨
        m.lookup? .observation observed "lifeObserved" [o] = some (.bool true) := by
    have hformula : ∀ sc : Scene,
        (Expr.or [.now "waterObserved" ["?o"], .now "lifeObserved" ["?o"]]).Holds sc [("o", o)] ↔
          sc.holds false ⟨"waterObserved", [o]⟩ ∨ sc.holds false ⟨"lifeObserved", [o]⟩ := by
      intro sc
      simp [Expr.Holds, Expr.SomeHolds]
    exact Iff.trans hallows ((hformula _).trans
      (or_congr (h.observes_observation (Detector.report_mem .water))
        (h.observes_observation (Detector.report_mem .life))))
  rw [Value.some_bool_iff hw, Value.some_bool_iff hl, ← Bool.or_eq_true] at hiff
  rw [← Bool.eq_iff_iff.mpr hiff]
  exact hb

/-- What is seen of a fact is what holds of it in the new state. -/
theorem copied (htyped : m.Typed .state next) {name seen : String} {params args : List String}
    (vars : List String) (hc : .ofTexts seen vars (.kronDelta (.later name vars)) ∈ domain.cpfs)
    (hseen : sight seen params ∈ domain.fluents) (hname : fact name params ∈ domain.fluents)
    (hdenotes : ∀ sc : Scene, (Expr.later name vars).Holds sc
      ((CpfDecl.ofTexts seen vars (.kronDelta (.later name vars))).params.zip args).reverse ↔
        sc.holds true ⟨name, args⟩) :
    m.lookup? .observation observed seen args = m.lookup? .state next name args := by
  by_cases hargs : List.Forall₂ (fun o p => o ∈ objectsOf i p) args params
  · obtain ⟨b, hb, hallows⟩ := hobserved.exists_allowed h hc rfl (h.fluent?_eq_some hseen) rfl rfl
      hargs
    have hread : (m.scene (.observing m.nonFluents next action observed)).holds true
        ⟨name, args⟩ ↔ m.lookup? .state next name args = some (.bool true) :=
      h.observes_state hname
    have hiff : b = true ↔ m.lookup? .state next name args = some (.bool true) := by
      rw [← hread, ← hdenotes]
      exact hallows
    refine hb.trans ?_
    cases b with
    | true => exact (hiff.mp rfl).symm
    | false =>
        have hnot : ¬m.lookup? .state next name args = some (.bool true) :=
          fun htrue => Bool.false_ne_true (hiff.mpr htrue)
        exact (h.lookup?_eq_false (h.fluent?_eq_some hname) rfl htyped hargs hnot).symm
  · have hnone : m.lookup? .observation observed seen args = none :=
      h.lookup?_eq_none (h.fluent?_eq_some hseen) hargs
    exact hnone.trans (h.lookup?_eq_none (h.fluent?_eq_some hname) hargs).symm

end Step

/-! ## All runs -/

/-- Whatever a rover does, a step that is committed shows the new state as it is:
positions and damages are those after the step, an object is detected where a
detector reports something, and a detector reports only what is there in the new
state and what a rover used such a tool on, from a cell of the object on which it
stands in the new state. -/
theorem observations_sound {c : EngineConfig} {e : Engine} (h : Model.ground domain i = .ok m)
    (he : Engine.Reachable m c e) {a : Action} {t : Transition} (hstep : (e.step a).1 = .ok t) :
    let after := (e.step a).2
    (∀ agent x y, t.observation.get? "agentAtObs" [agent, x, y] =
      after.stateValue? "agentAt" [agent, x, y]) ∧
    (∀ tool, t.observation.get? "damagedObs" [tool] = after.stateValue? "damaged" [tool]) ∧
    (∀ o ∈ objectsOf i "obj", ∃ w l, t.observation.get? "waterObserved" [o] = some (.bool w) ∧
      t.observation.get? "lifeObserved" [o] = some (.bool l) ∧
      t.observation.get? "objDetected" [o] = some (.bool (w || l))) ∧
    ∀ (d : Detector) (o : String), t.observation.get? d.report [o] = some (.bool true) →
      after.stateValue? d.presence [o] = some (.bool true) ∧
      ∃ action, a.resolve m = .ok action ∧ ∃ agent tool,
        m.lookup? .action action "useToolOn" [agent, tool, o] = some (.bool true) ∧
        m.nonFluent? d.toolKind [tool] = some (.bool true) ∧
        ∃ x y, after.stateValue? "agentAt" [agent, x, y] = some (.bool true) ∧
          m.nonFluent? "objAt" [o, x, y] = some (.bool true) := by
  have hg := grounded_of_ground h
  obtain ⟨action, observed, hresolve, _, hobserved, hreturned⟩ :=
    Engine.exists_observed hg he hstep
  have hafter := Engine.typed_of_reachable hg (he.step a)
  have hmodel := hafter.model
  simp only [Engine.stateValue?, hmodel, hreturned, hg.get?_describe_eq_lookup?]
  refine ⟨?_, ?_, ?_, ?_⟩
  · intro agent x y
    exact copied hg hobserved hafter.current ["?a", "?x", "?y"]
      (by simp [domain, observationCpfs]) agentAtObs_mem agentAt_mem
      fun sc => by simp [CpfDecl.ofTexts]
  · intro tool
    exact copied hg hobserved hafter.current ["?t"]
      (by simp [domain, observationCpfs]) damagedObs_mem damaged_mem
      fun sc => by simp [CpfDecl.ofTexts]
  · intro o ho
    obtain ⟨w, hw, _⟩ := exists_reported hg hobserved .water ho
    obtain ⟨l, hl, _⟩ := exists_reported hg hobserved .life ho
    exact ⟨w, l, hw, hl, detected_eq hg hobserved ho hw hl⟩
  · intro d o hreport
    have hargs : List.Forall₂ (fun o p => o ∈ objectsOf i p) [o] ["obj"] :=
      hg.forall₂_of_lookup? (hg.fluent?_eq_some d.report_mem) hreport
    have ho : o ∈ objectsOf i "obj" := by simpa using hargs
    obtain ⟨b, hb, hsound⟩ := exists_reported hg hobserved d ho
    obtain ⟨hpresent, hused⟩ := hsound ((Value.some_bool_iff hb).mp hreport)
    exact ⟨hpresent, action, hresolve, hused⟩

/-- One cell with an object on it that has water, where a rover stands with a
water detector. -/
def spot : Instance where
  name := "recon_inst_spot"
  domain := domain.name
  objects :=
    [{ typeName := "x_pos", objects := ["x1"] }, { typeName := "y_pos", objects := ["y1"] },
      { typeName := "obj", objects := ["o1"] }, { typeName := "agent", objects := ["a1"] },
      { typeName := "tool", objects := ["w1"] }]
  nonFluents := [.holds "objAt" ["o1", "x1", "y1"], .holds "WATER_TOOL" ["w1"]]
  initState := [.holds "agentAt" ["a1", "x1", "y1"], .holds "HAS_WATER" ["o1"]]
  maxNonDefaultActions := some 1
  horizon := 40
  discount := 1.0

/-- The rover uses its detector on the object, which reports the water. -/
theorem observations_sound_spot :
    ∃ m e t, Model.ground domain spot = .ok m ∧ Engine.Reachable m .standard e ∧
      let use := Action.noop.set "useToolOn" ["a1", "w1", "o1"] (.bool true)
      (e.step use).1 = .ok t ∧
        t.observation.get? "waterObserved" ["o1"] = some (.bool true) ∧
        t.observation.get? "agentAtObs" ["a1", "x1", "y1"] =
          (e.step use).2.stateValue? "agentAt" ["a1", "x1", "y1"] ∧
        (e.step use).2.stateValue? "HAS_WATER" ["o1"] = some (.bool true) := by
  obtain ⟨m, hm, e, he, t, ht, hreport⟩ : ∃ m, Model.ground domain spot = .ok m ∧
      ∃ e ∈ (Engine.create m .standard).toOption,
        ∃ t ∈ (e.step (Action.noop.set "useToolOn" ["a1", "w1", "o1"] (.bool true))).1.toOption,
          t.observation.get? "waterObserved" ["o1"] = some (.bool true) := by
    apply Model.exists_ground_of_any
    unfold Model.ground Model.groundBy Grounding.blocks orderObservations
    rw [domain_valid, sortedFluents_domain, checkInhabited_eq_checkNoneBare,
      Dependency.order_eq_orderUpTo]
    decide +kernel
  rw [mem_toOption_iff] at he ht
  have hreachable := Engine.Reachable.create he
  obtain ⟨hposition, _, _, hdetector⟩ := observations_sound hm hreachable ht
  exact ⟨m, e, t, hm, hreachable, ht, hreport, hposition "a1" "x1" "y1",
    (hdetector .water "o1" hreport).1⟩

end Recon
end LiftedPomdp
