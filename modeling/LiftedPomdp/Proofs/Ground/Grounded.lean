import LiftedPomdp.Proofs.Ground.Dependency
import LiftedPomdp.Proofs.Ground.Scope

/-!
# What grounding establishes

`Grounded d i m` lists what is known of a model `m` that a domain `d` and an
instance `i` were grounded to: every check was passed, and every part of the
model is what its stage of the grounding made.  All later facts about models
are drawn from it, so that grounding itself is taken apart only here.
-/

namespace LiftedPomdp

open Effects Grounding

namespace Model

/-- What the names in the expressions of a model were resolved against. -/
def scope (m : Model) : Scope :=
  { types := m.types, blocks := m.blocks }

end Model

/-- The compiled functions of a model, before they are put in order. -/
structure CompiledFunctions (d : Domain) (m : Model) (entries : List CpfEntry) : Prop where
  compiled : List.Forall₂ (fun c e => compileCpf m.scope c = .ok e) d.cpfs entries
  complete : checkComplete m.blocks entries = .ok ()
  observations : orderObservations m.blocks entries = .ok m.observationCpfs
  states : m.stateCpfs =
    (numbersOf m.blocks .state).filterMap fun n => (entryFor entries n).map (·.cpf)

/-- A model that a domain and an instance were grounded to. -/
structure Grounded (d : Domain) (i : Instance) (m : Model) : Prop where
  domainValid : d.validate = .ok ()
  instanceValid : i.validate = .ok ()
  domainName : i.domain = d.name
  types : objectTypes d i = .ok m.types
  blocks : placeAll m.types [] (sortedFluents d) = .ok m.blocks.toList
  inhabited : checkInhabited d m.types = .ok ()
  nonFluents : assignAll m.types m.blocks .nonFluent "non-fluents" i.nonFluents =
    .ok m.nonFluents
  initialState : assignAll m.types m.blocks .state "init-state" i.initState =
    .ok m.initialState
  functions : ∃ entries, CompiledFunctions d m entries
  reward : ∃ reads, Compiler.compile { scope := m.scope, site := .reward, label := "reward" }
    [] d.reward = .ok (m.reward, reads)
  constraints : compileConstraints m.scope 0 d.constraints = .ok m.constraints
  actionFits : reserveTable m.blocks .action = .ok ()
  observationFits : reserveTable m.blocks .observation = .ok ()
  defaultAction : m.defaultAction = defaultTable m.blocks .action
  defaultObservation : m.defaultObservation = defaultTable m.blocks .observation
  domainLabel : m.domainName = d.name
  instanceLabel : m.instanceName = i.name
  horizon : m.horizon = i.horizon
  discount : m.discount = i.discount
  maxNonDefaultActions : m.maxNonDefaultActions = i.maxNonDefaultActions
  fingerprint : m.fingerprint = Grounding.fingerprint d i

theorem grounded_of_ground {d : Domain} {i : Instance} {m : Model}
    (h : Model.ground d i = .ok m) : Grounded d i m := by
  unfold Model.ground Model.groundBy at h
  obtain ⟨hdomain, h⟩ := seq_eq_ok_iff.mp h
  obtain ⟨hinstance, h⟩ := seq_eq_ok_iff.mp h
  by_cases hname : i.domain = d.name
  · rw [if_neg (not_not_intro hname)] at h
    obtain ⟨types, htypes, h⟩ := bind_eq_ok_iff.mp h
    obtain ⟨blocks, hblocks, h⟩ := bind_eq_ok_iff.mp h
    obtain ⟨hinhabited, h⟩ := seq_eq_ok_iff.mp h
    obtain ⟨nonFluents, hnonFluents, h⟩ := bind_eq_ok_iff.mp h
    obtain ⟨initialState, hinitialState, h⟩ := bind_eq_ok_iff.mp h
    obtain ⟨entries, hentries, h⟩ := bind_eq_ok_iff.mp h
    obtain ⟨hcomplete, h⟩ := seq_eq_ok_iff.mp h
    obtain ⟨observations, hobservations, h⟩ := bind_eq_ok_iff.mp h
    obtain ⟨⟨reward, reads⟩, hreward, h⟩ := bind_eq_ok_iff.mp h
    obtain ⟨constraints, hconstraints, h⟩ := bind_eq_ok_iff.mp h
    obtain ⟨haction, h⟩ := seq_eq_ok_iff.mp h
    obtain ⟨hobservation, h⟩ := seq_eq_ok_iff.mp h
    rw [pure_eq_ok_iff] at h
    subst h
    rw [Grounding.blocks, bind_eq_ok_iff] at hblocks
    obtain ⟨placed, hplaced, hblocks⟩ := hblocks
    rw [pure_eq_ok_iff] at hblocks
    subst hblocks
    simp only [ofModel_eq_ok_iff, ofInstantiation_eq_ok_iff, mapM_eq_ok_iff] at *
    exact {
      domainValid := hdomain, instanceValid := hinstance, domainName := hname
      types := htypes, blocks := hplaced, inhabited := hinhabited
      nonFluents := hnonFluents, initialState := hinitialState
      functions := ⟨entries, hentries, hcomplete, hobservations, rfl⟩
      reward := ⟨reads, hreward⟩, constraints := hconstraints
      actionFits := haction, observationFits := hobservation
      defaultAction := rfl, defaultObservation := rfl, domainLabel := rfl
      instanceLabel := rfl, horizon := rfl, discount := rfl, maxNonDefaultActions := rfl
      fingerprint := by dsimp only }
  · simp [hname, seq_eq_ok_iff, instantiationFault] at h

theorem ground_of_grounded {d : Domain} {i : Instance} {m : Model} (h : Grounded d i m) :
    Model.ground d i = .ok m := by
  obtain ⟨entries, hfunctions⟩ := h.functions
  obtain ⟨reads, hreward⟩ := h.reward
  unfold Model.ground Model.groundBy
  refine seq_eq_ok_iff.mpr ⟨ofModel_eq_ok_iff.mpr h.domainValid, ?_⟩
  refine seq_eq_ok_iff.mpr ⟨ofInstantiation_eq_ok_iff.mpr h.instanceValid, ?_⟩
  rw [if_neg (not_not_intro h.domainName)]
  refine bind_eq_ok_iff.mpr ⟨_, ofInstantiation_eq_ok_iff.mpr h.types, ?_⟩
  refine bind_eq_ok_iff.mpr ⟨m.blocks, ?_, ?_⟩
  · rw [Grounding.blocks, bind_eq_ok_iff]
    exact ⟨_, h.blocks, by simp⟩
  refine seq_eq_ok_iff.mpr ⟨ofInstantiation_eq_ok_iff.mpr h.inhabited, ?_⟩
  refine bind_eq_ok_iff.mpr ⟨_, h.nonFluents, ?_⟩
  refine bind_eq_ok_iff.mpr ⟨_, h.initialState, ?_⟩
  refine bind_eq_ok_iff.mpr
    ⟨entries, ofModel_eq_ok_iff.mpr (mapM_eq_ok_iff.mpr hfunctions.compiled), ?_⟩
  refine seq_eq_ok_iff.mpr ⟨ofModel_eq_ok_iff.mpr hfunctions.complete, ?_⟩
  refine bind_eq_ok_iff.mpr ⟨_, ofModel_eq_ok_iff.mpr hfunctions.observations, ?_⟩
  refine bind_eq_ok_iff.mpr ⟨_, ofModel_eq_ok_iff.mpr hreward, ?_⟩
  refine bind_eq_ok_iff.mpr ⟨_, ofModel_eq_ok_iff.mpr h.constraints, ?_⟩
  refine seq_eq_ok_iff.mpr ⟨h.actionFits, ?_⟩
  refine seq_eq_ok_iff.mpr ⟨h.observationFits, ?_⟩
  rw [pure_eq_ok_iff, ← hfunctions.states, ← h.defaultAction, ← h.defaultObservation,
    ← h.domainLabel, ← h.instanceLabel, ← h.horizon, ← h.discount, ← h.maxNonDefaultActions,
    ← h.fingerprint]

namespace Grounded

variable {d : Domain} {i : Instance} {m : Model}

/-- The expressions of a model were compiled against the scope of its domain and
its instance. -/
theorem built (h : Grounded d i m) : m.scope.Built d i where
  domainValid := h.domainValid
  instanceValid := h.instanceValid
  types := h.types
  blocks := bind_eq_ok_iff.mpr ⟨_, h.blocks, rfl⟩

theorem namedApart (h : Grounded d i m) : NamedApart m.types :=
  h.built.namedApart

theorem placedAll (h : Grounded d i m) :
    PlacedAll m.types [] (sortedFluents d) m.blocks.toList :=
  placedAll_of_placeAll h.blocks

theorem map_name_blocks (h : Grounded d i m) :
    m.blocks.toList.map (·.name) = (sortedFluents d).map (·.name) :=
  h.placedAll.map_name

/-- No two fluents of a model have the same name. -/
theorem blocks_nodup (h : Grounded d i m) : (m.blocks.toList.map (·.name)).Nodup :=
  h.built.blocks_nodup

/-- The blocks of one kind follow each other from the start of its table. -/
theorem contiguous (h : Grounded d i m) (kind : FluentKind) :
    Contiguous 0 (m.blocksOf kind) :=
  h.placedAll.contiguous kind

/-- Every block belongs to a declared fluent. -/
theorem exists_placed (h : Grounded d i m) {b : FluentBlock} (hb : b ∈ m.blocks) :
    ∃ f ∈ d.fluents, ∃ place, Placed m.types place f b := by
  obtain ⟨n, hn⟩ := Array.mem_iff_getElem?.mp hb
  exact h.built.exists_decl hn

end Grounded

/-! ## A sample

Lamps in rooms: a lamp that is toggled may fail to change, and each room is
seen lit when one of its lamps is.  The two variables of `count` have one
name, and one observation reads the other.
-/

namespace Lamps

/-- Lamps that are toggled and seen. -/
def domain : Domain where
  name := "lamps"
  types := ["lamp", "room"]
  fluents :=
    [.nonFluent "GLOW" .real ["lamp"] (.real 0.5),
      .nonFluent "IN" .bool ["lamp", "room"] (.bool false),
      .state "count" .int [] (.int 0),
      .state "lit" .bool ["lamp"] (.bool false),
      .observation "seen" .bool ["room"],
      .observation "seen-any" .bool [],
      .action "toggle" .bool ["lamp"] (.bool false)]
  cpfs :=
    [.ofTexts "seen-any" [] (.quantify .exists [("?r", "room")] (.now "seen" ["?r"])),
      .ofTexts "seen" ["?r"] (.quantify .exists [("?l", "lamp")]
        (.and [.later "lit" ["?l"], .now "IN" ["?l", "?r"]])),
      .ofTexts "lit" ["?l"] (.bernoulli
        (.ite (.equiv (.now "lit" ["?l"]) (.now "toggle" ["?l"])) (.real 0.0)
          (.now "GLOW" ["?l"]))),
      .ofTexts "count" [] (.quantify .sum [("?x", "lamp"), ("?x", "room")]
        (.now "IN" ["l1", "?x"]))]
  reward := .quantify .sum [("?l", "lamp")] (.arith .mul (.now "lit" ["?l"])
    (.ite (.compare .eq (.term (.var "l")) (.term (.object "l1"))) (.int 2) (.int 1)))
  constraints := [.not (.and [.now "toggle" ["l0"], .now "toggle" ["l1"]])]

/-- Two lamps and three rooms. -/
def house : Instance where
  name := "house"
  domain := "lamps"
  objects := [{ typeName := "lamp", objects := ["l0", "l1"] },
    { typeName := "room", objects := ["r0", "r1", "r2"] }]
  nonFluents := [.holds "IN" ["l0", "r0"], .holds "IN" ["l1", "r2"], .measures "GLOW" ["l1"] 0.25]
  initState := [.holds "lit" ["l0"]]
  maxNonDefaultActions := some 1
  horizon := 2
  discount := 0.9

/-- The result of a stage that succeeds. -/
def resultOf {ε α : Type} (x : Except ε α) (h : x.toOption.isSome = true) : α :=
  x.toOption.get h

theorem eq_ok_resultOf {ε α : Type} {x : Except ε α} (h : x.toOption.isSome = true) :
    x = .ok (resultOf x h) := by
  cases x with
  | error e => cases h
  | ok a => rfl

def types : Array ObjectType :=
  resultOf (objectTypes domain house) (by decide +kernel)

def placed : List FluentBlock :=
  resultOf (placeAll types [] domain.fluents) (by decide +kernel)

def scope : Scope where
  types := types
  blocks := placed.toArray

def entries : List CpfEntry :=
  resultOf (domain.cpfs.mapM (compileCpf scope)) (by decide +kernel)

def rewardCompiled : Compiled × List Nat :=
  resultOf (Compiler.compile { scope, site := .reward, label := "reward" } [] domain.reward)
    (by decide +kernel)

/-- The sample, grounded. -/
def model : Model where
  domainName := "lamps"
  instanceName := "house"
  types := types
  blocks := placed.toArray
  nonFluents := resultOf (assignAll types placed.toArray .nonFluent "non-fluents"
    house.nonFluents) (by decide +kernel)
  initialState := resultOf (assignAll types placed.toArray .state "init-state" house.initState)
    (by decide +kernel)
  defaultAction := defaultTable placed.toArray .action
  defaultObservation := defaultTable placed.toArray .observation
  stateCpfs :=
    (numbersOf placed.toArray .state).filterMap fun n => (entryFor entries n).map (·.cpf)
  observationCpfs := [4, 5].filterMap fun n => (entryFor entries n).map (·.cpf)
  reward := rewardCompiled.1
  constraints := resultOf (compileConstraints scope 0 domain.constraints) (by decide +kernel)
  horizon := 2
  discount := 0.9
  maxNonDefaultActions := some 1
  fingerprint := Grounding.fingerprint domain house

/-- A room is seen before the whole house. -/
theorem orderObservations_eq :
    orderObservations placed.toArray entries = .ok model.observationCpfs := by
  have hnumbers : numbersOf placed.toArray .observation = [4, 5] := by decide +kernel
  unfold orderObservations
  dsimp only
  rw [hnumbers, Dependency.order_eq_ok [4, 5] (by decide +kernel) rfl]
  rfl

theorem grounded : Grounded domain house model where
  domainValid := by decide +kernel
  instanceValid := by decide +kernel
  domainName := rfl
  types := eq_ok_resultOf (by decide +kernel)
  blocks := by
    have hsorted : sortedFluents domain = domain.fluents :=
      List.mergeSort_of_pairwise (by decide +kernel)
    rw [hsorted]
    exact eq_ok_resultOf (by decide +kernel)
  inhabited := by
    have hbare : (model.types.toList.filter fun t =>
        t.objects.isEmpty && (usedTypes domain).contains t.name) = [] := by decide +kernel
    rw [checkInhabited, hbare, List.map_nil, List.mergeSort_nil]
  nonFluents := eq_ok_resultOf (by decide +kernel)
  initialState := eq_ok_resultOf (by decide +kernel)
  functions := ⟨entries, {
    compiled := mapM_eq_ok_iff.mp (eq_ok_resultOf (by decide +kernel))
    complete := by decide +kernel
    observations := orderObservations_eq
    states := rfl }⟩
  reward := ⟨rewardCompiled.2, eq_ok_resultOf (by decide +kernel)⟩
  constraints := eq_ok_resultOf (by decide +kernel)
  actionFits := by decide +kernel
  observationFits := by decide +kernel
  defaultAction := rfl
  defaultObservation := rfl
  domainLabel := rfl
  instanceLabel := rfl
  horizon := rfl
  discount := rfl
  maxNonDefaultActions := rfl
  fingerprint := by dsimp only [model]

theorem ground_eq : Model.ground domain house = .ok model :=
  ground_of_grounded grounded

end Lamps
end LiftedPomdp
