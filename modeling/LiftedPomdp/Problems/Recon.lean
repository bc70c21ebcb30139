import LiftedPomdp.Ground.Grounding

/-!
# Reconnaissance

Rovers move on a grid and carry tools.  Detectors look for water and life in the objects of a
cell, and cameras take pictures of them.  A hazard in a cell may damage the tools, which are
repaired at the base.  The first picture of an object earns a reward where there is life, and costs
one where there is none.
-/

namespace LiftedPomdp
namespace Recon

open LiftedPomdp.Expr (now later readAt quantify)

/-- The name of the domain. -/
def name : String :=
  "recon_pomdp"

/-- The directions in which a rover moves. -/
inductive Direction where
  /-- To a higher `y` position. -/
  | up
  /-- To a lower `y` position. -/
  | down
  /-- To a lower `x` position. -/
  | left
  /-- To a higher `x` position. -/
  | right
  deriving DecidableEq, Repr

namespace Direction

/-- All directions, the ones that count first before the others. -/
def all : List Direction :=
  [.up, .down, .left, .right]

/-- The action that moves a rover. -/
def action : Direction → String
  | .up => "up"
  | .down => "down"
  | .left => "left"
  | .right => "right"

/-- The relation between a position and the next one. -/
def adjacent : Direction → String
  | .up => "ADJACENT-UP"
  | .down => "ADJACENT-DOWN"
  | .left => "ADJACENT-LEFT"
  | .right => "ADJACENT-RIGHT"

/-- The type of the positions that change. -/
def axis : Direction → String
  | .up | .down => "y_pos"
  | .left | .right => "x_pos"

/-- The rover `?a` moves to the cell `(?x, ?y)` from the one before it. -/
def arrives (d : Direction) : Expr :=
  let cameFrom :=
    match d with
    | .up | .down =>
      quantify .exists [("?y2", d.axis)]
        (.and [now "agentAt" ["?a", "?x", "?y2"], now d.adjacent ["?y2", "?y"]])
    | .left | .right =>
      quantify .exists [("?x2", d.axis)]
        (.and [now "agentAt" ["?a", "?x2", "?y"], now d.adjacent ["?x2", "?x"]])
  .and [now d.action ["?a"], cameFrom]

/-- The rover `?a` moves away from the cell `(?x, ?y)`, which has a next one. -/
def leaves (d : Direction) : Expr :=
  let goesTo :=
    match d with
    | .up | .down => quantify .exists [("?y2", d.axis)] (now d.adjacent ["?y", "?y2"])
    | .left | .right => quantify .exists [("?x2", d.axis)] (now d.adjacent ["?x", "?x2"])
  .and [now d.action ["?a"], goesTo]

end Direction

/-- The rover `?a` stands on the cell of the object `?o`. -/
def onCell (next : Bool) : Expr :=
  quantify .exists [("?x", "x_pos"), ("?y", "y_pos")]
    (.and [readAt next "agentAt" ["?a", "?x", "?y"], now "objAt" ["?o", "?x", "?y"]])

/-- A rover uses a tool of a kind that meets some conditions on the object `?o` of its cell. -/
def toolUsed (kind : String) (conditions : List Expr) (next : Bool) : Expr :=
  quantify .exists [("?a", "agent"), ("?t", "tool")]
    (.and (now "useToolOn" ["?a", "?t", "?o"] :: now kind ["?t"] :: conditions ++ [onCell next]))

/-- An undamaged camera takes a picture of the object `?o`. -/
def pictureTaken : Expr :=
  toolUsed "CAMERA_TOOL" [.not (now "damaged" ["?t"])] false

/-- Where a rover is: it arrives, leaves, or stays. -/
def agentAt : Expr :=
  let here := now "agentAt" ["?a", "?x", "?y"]
  let goneElsewhere := .and [here, .or (Direction.all.map Direction.leaves)]
  let otherwise := .ite goneElsewhere (.kronDelta (.bool false)) (.kronDelta here)
  Direction.all.foldr (fun d rest => .ite d.arrives (.kronDelta (.bool true)) rest) otherwise

/-- A rover stands on a cell of a kind while a condition holds. -/
def agentOn (conditions : List Expr) (kind : String) : Expr :=
  quantify .exists [("?a", "agent"), ("?x", "x_pos"), ("?y", "y_pos")]
    (.and (conditions ++ [now "agentAt" ["?a", "?x", "?y"], now kind ["?x", "?y"]]))

/-- Whether a tool is damaged: repairs at the base always succeed, and hazards damage a tool with
a probability of its own. -/
def damaged : Expr :=
  .ite (agentOn [now "repair" ["?a", "?t"]] "BASE") (.kronDelta (.bool false))
    (.ite (.and [.not (now "damaged" ["?t"]), agentOn [] "HAZARD"])
      (.bernoulli (now "DAMAGE_PROB" ["?t"]))
      (.kronDelta (now "damaged" ["?t"])))

/-- Water appears in an object with a probability of its own, and stays. -/
def hasWater : Expr :=
  .ite (now "HAS_WATER" ["?o"]) (.kronDelta (.bool true)) (.bernoulli (now "WATER_PROB" ["?o"]))

/-- Life appears only where water was before, and stays. -/
def hasLife : Expr :=
  .ite (now "HAS_LIFE" ["?o"]) (.kronDelta (.bool true))
    (.ite (now "HAS_WATER" ["?o"]) (.bernoulli (now "LIFE_PROB" ["?o"]))
      (.kronDelta (.bool false)))

/-- A fact about the object `?o` that holds from the moment of an event on. -/
def latch (fact : String) (event : Expr) : Expr :=
  .kronDelta (.or [now fact ["?o"], event])

/-- What a detector finds: nothing where nothing is, and otherwise with a probability that depends
on whether the detector is damaged. -/
def detected (kind presence : String) : Expr :=
  let broken := later "damaged" ["?t"]
  .ite (.not (later presence ["?o"])) (.kronDelta (.bool false))
    (.ite (toolUsed kind [.not broken] true) (.bernoulli (now "DETECT_PROB" []))
      (.ite (toolUsed kind [broken] true) (.bernoulli (now "DETECT_PROB_DAMAGED" []))
        (.kronDelta (.bool false))))

/-- The reward: every first picture of an object counts. -/
def reward : Expr :=
  let value :=
    .ite (now "HAS_LIFE" ["?o"]) (now "GOOD_PIC_WEIGHT" []) (.neg (now "BAD_PIC_WEIGHT" []))
  quantify .sum [("?o", "obj")]
    (.ite (.and [pictureTaken, .not (now "pictureTaken" ["?o"])]) value (.real 0.0))

/-- A boolean non-fluent that is false by default. -/
def relation (name : String) (params : List String) : FluentDecl :=
  .nonFluent name .bool params (.bool false)

/-- A real non-fluent. -/
def quantity (name : String) (params : List String) (default : Float) : FluentDecl :=
  .nonFluent name .real params (.real default)

/-- A boolean state fluent that is false by default. -/
def fact (name : String) (params : List String) : FluentDecl :=
  .state name .bool params (.bool false)

/-- A boolean observation fluent. -/
def sight (name : String) (params : List String) : FluentDecl :=
  .observation name .bool params

/-- A boolean action fluent that is false by default. -/
def deed (name : String) (params : List String) : FluentDecl :=
  .action name .bool params (.bool false)

/-- The declarations of the fluents. -/
def fluents : List FluentDecl :=
  [relation "ADJACENT-LEFT" ["x_pos", "x_pos"], relation "ADJACENT-RIGHT" ["x_pos", "x_pos"],
    relation "ADJACENT-UP" ["y_pos", "y_pos"], relation "ADJACENT-DOWN" ["y_pos", "y_pos"],
    relation "objAt" ["obj", "x_pos", "y_pos"], relation "HAZARD" ["x_pos", "y_pos"],
    relation "BASE" ["x_pos", "y_pos"], quantity "DAMAGE_PROB" ["tool"] 0.0,
    quantity "DETECT_PROB" [] 0.8, quantity "DETECT_PROB_DAMAGED" [] 0.4,
    relation "CAMERA_TOOL" ["tool"], relation "LIFE_TOOL" ["tool"], relation "WATER_TOOL" ["tool"],
    quantity "WATER_PROB" ["obj"] 0.0, quantity "LIFE_PROB" ["obj"] 0.0,
    quantity "GOOD_PIC_WEIGHT" [] 1.0, quantity "BAD_PIC_WEIGHT" [] 2.0,
    fact "damaged" ["tool"], fact "HAS_WATER" ["obj"], fact "HAS_LIFE" ["obj"],
    fact "waterChecked" ["obj"], fact "lifeChecked" ["obj"], fact "pictureTaken" ["obj"],
    fact "agentAt" ["agent", "x_pos", "y_pos"],
    sight "waterObserved" ["obj"], sight "lifeObserved" ["obj"], sight "objDetected" ["obj"],
    sight "agentAtObs" ["agent", "x_pos", "y_pos"], sight "damagedObs" ["tool"]] ++
    Direction.all.map (fun d => deed d.action ["agent"]) ++
    [deed "useToolOn" ["agent", "tool", "obj"], deed "repair" ["agent", "tool"]]

/-- The functions of the state fluents. -/
def stateCpfs : List CpfDecl :=
  [.ofTexts "damaged" ["?t"] damaged, .ofTexts "HAS_WATER" ["?o"] hasWater,
    .ofTexts "HAS_LIFE" ["?o"] hasLife,
    .ofTexts "waterChecked" ["?o"] (latch "waterChecked" (toolUsed "WATER_TOOL" [] false)),
    .ofTexts "lifeChecked" ["?o"] (latch "lifeChecked" (toolUsed "LIFE_TOOL" [] false)),
    .ofTexts "pictureTaken" ["?o"] (latch "pictureTaken" pictureTaken),
    .ofTexts "agentAt" ["?a", "?x", "?y"] agentAt]

/-- The functions of the observation fluents. -/
def observationCpfs : List CpfDecl :=
  [.ofTexts "waterObserved" ["?o"] (detected "WATER_TOOL" "HAS_WATER"),
    .ofTexts "lifeObserved" ["?o"] (detected "LIFE_TOOL" "HAS_LIFE"),
    .ofTexts "objDetected" ["?o"]
      (.kronDelta (.or [now "waterObserved" ["?o"], now "lifeObserved" ["?o"]])),
    .ofTexts "agentAtObs" ["?a", "?x", "?y"] (.kronDelta (later "agentAt" ["?a", "?x", "?y"])),
    .ofTexts "damagedObs" ["?t"] (.kronDelta (later "damaged" ["?t"]))]

/-- The domain. -/
def domain : Domain where
  name := name
  types := ["x_pos", "y_pos", "obj", "agent", "tool"]
  fluents := fluents
  cpfs := stateCpfs ++ observationCpfs
  reward := reward
  constraints := []

/-- The two relations between neighbouring positions. -/
def neighbours (forward backward : String) (p q : String) : List Assignment :=
  [.holds forward [p, q], .holds backward [q, p]]

/-- A grid of three by three cells with two objects and one rover, which carries one tool of each
kind.  The base is in one corner and a hazard in the opposite one; one object has water and life,
the other has neither. -/
def grid3 : Instance where
  name := "recon_inst_grid3"
  domain := name
  objects :=
    [{ typeName := "x_pos", objects := ["x1", "x2", "x3"] },
      { typeName := "y_pos", objects := ["y1", "y2", "y3"] },
      { typeName := "obj", objects := ["o1", "o2"] }, { typeName := "agent", objects := ["a1"] },
      { typeName := "tool", objects := ["w1", "l1", "p1"] }]
  nonFluents :=
    neighbours "ADJACENT-RIGHT" "ADJACENT-LEFT" "x1" "x2" ++
      neighbours "ADJACENT-RIGHT" "ADJACENT-LEFT" "x2" "x3" ++
      neighbours "ADJACENT-UP" "ADJACENT-DOWN" "y1" "y2" ++
      neighbours "ADJACENT-UP" "ADJACENT-DOWN" "y2" "y3" ++
      [.holds "BASE" ["x1", "y1"], .holds "HAZARD" ["x3", "y3"],
        .holds "objAt" ["o1", "x2", "y2"], .holds "objAt" ["o2", "x3", "y1"],
        .holds "WATER_TOOL" ["w1"], .holds "LIFE_TOOL" ["l1"], .holds "CAMERA_TOOL" ["p1"],
        .measures "DAMAGE_PROB" ["w1"] 0.5, .measures "DAMAGE_PROB" ["l1"] 0.5,
        .measures "DAMAGE_PROB" ["p1"] 0.5]
  initState :=
    [.holds "agentAt" ["a1", "x1", "y1"], .holds "HAS_WATER" ["o1"], .holds "HAS_LIFE" ["o1"]]
  maxNonDefaultActions := some 1
  horizon := 40
  discount := 1.0

/-- The ground model of the small grid. -/
def model : Except (Fault SimError) Model :=
  Model.ground domain grid3

end Recon
end LiftedPomdp
