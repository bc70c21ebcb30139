import LiftedPomdp.Ground.Grounding

/-!
# Elevators

Passengers arrive at the floors of a building and want to go up or down.  An elevator takes them in
when it stands at their floor with its door open and heads their way, and they leave it at the top
or at the bottom floor.  Everyone who waits costs something, and so does everyone who rides, much
more so in an elevator that heads the wrong way.
-/

namespace LiftedPomdp
namespace Elevators

open LiftedPomdp.Expr (now quantify)

/-- The name of the domain. -/
def name : String :=
  "elevators_mdp"

/-- The ways in which an elevator heads. -/
inductive Heading where
  /-- To the top floor. -/
  | up
  /-- To the bottom floor. -/
  | down
  deriving DecidableEq, Repr

namespace Heading

/-- The elevator `?e` heads this way. -/
def holds : Heading → Expr
  | .up => now "elevator-dir-up" ["?e"]
  | .down => .not (now "elevator-dir-up" ["?e"])

/-- Somebody waits at a floor to go this way. -/
def waiting : Heading → String
  | .up => "person-waiting-up"
  | .down => "person-waiting-down"

/-- Somebody in an elevator goes this way. -/
def riding : Heading → String
  | .up => "person-in-elevator-going-up"
  | .down => "person-in-elevator-going-down"

/-- The floor where passengers who go this way get off. -/
def terminal : Heading → String
  | .up => "TOP-FLOOR"
  | .down => "BOTTOM-FLOOR"

end Heading

/-- The elevator `?e` stands open at the floor `?f` and heads a certain way. -/
def openHeading (h : Heading) : Expr :=
  .and [now "elevator-at-floor" ["?e", "?f"], h.holds, .not (now "elevator-closed" ["?e"])]

/-- Whether somebody waits at the floor `?f`: nobody is taken in and somebody waited before, or
somebody arrives. -/
def waiting (h : Heading) : Expr :=
  .ite (.and [now h.waiting ["?f"], .not (quantify .exists [("?e", "elevator")] (openHeading h))])
    (.kronDelta (.bool true)) (.bernoulli (now "ARRIVE-PARAM" ["?f"]))

/-- Whether somebody rides the elevator `?e`: passengers stay up to their last floor, and new ones
are taken in where they wait. -/
def riding (h : Heading) : Expr :=
  .ite (now h.riding ["?e"])
    (.kronDelta (.not (quantify .exists [("?f", "floor")]
      (.and [now "elevator-at-floor" ["?e", "?f"], now h.terminal ["?f"]]))))
    (.kronDelta (quantify .exists [("?f", "floor")] (.and [now h.waiting ["?f"], openHeading h])))

/-- Whether the door of the elevator `?e` is closed. -/
def closed : Expr :=
  .kronDelta (.or [
    .and [now "elevator-closed" ["?e"], .not (now "open-door-going-up" ["?e"]),
      .not (now "open-door-going-down" ["?e"])],
    now "close-door" ["?e"]])

/-- Whether the elevator `?e` heads up: opening the door decides anew. -/
def headsUp : Expr :=
  .ite (now "open-door-going-up" ["?e"]) (.kronDelta (.bool true))
    (.ite (now "open-door-going-down" ["?e"]) (.kronDelta (.bool false))
      (.kronDelta (now "elevator-dir-up" ["?e"])))

/-- Where the elevator `?e` is: it moves by one floor while its door is closed, and stays where
there is no next floor. -/
def atFloor : Expr :=
  let here := now "elevator-at-floor" ["?e", "?f"]
  let came := fun above =>
    quantify .exists [("?cur", "floor")] (.and [now "elevator-at-floor" ["?e", "?cur"], above])
  let stuck := fun next => .and [here, .not (quantify .exists [("?nxt", "floor")] next)]
  .ite (.or [.not (now "elevator-closed" ["?e"]), .not (now "move-current-dir" ["?e"])])
    (.kronDelta here)
    (.ite (.and [Heading.up.holds, came (now "ADJACENT-UP" ["?cur", "?f"])])
      (.kronDelta (.bool true))
      (.ite (.and [Heading.down.holds, came (now "ADJACENT-UP" ["?f", "?cur"])])
        (.kronDelta (.bool true))
        (.ite (.and [Heading.up.holds, stuck (now "ADJACENT-UP" ["?f", "?nxt"])])
          (.kronDelta (.bool true))
          (.ite (.and [Heading.down.holds, stuck (now "ADJACENT-UP" ["?nxt", "?f"])])
            (.kronDelta (.bool true)) (.kronDelta (.bool false))))))

/-- The cost of passengers who go one way in elevators that head one way. -/
def ridingCost (weight : String) (passengers elevators : Heading) : Expr :=
  quantify .sum [("?e", "elevator")]
    (.arith .mul (.neg (now weight [])) (.and [now passengers.riding ["?e"], elevators.holds]))

/-- The cost of passengers who wait. -/
def waitingCost : Expr :=
  quantify .sum [("?f", "floor")]
    (.arith .sub (.neg (now Heading.up.waiting ["?f"])) (now Heading.down.waiting ["?f"]))

/-- The reward: the sum of all costs. -/
def reward : Expr :=
  [ridingCost "ELEVATOR-PENALTY-RIGHT-DIR" .down .down,
    ridingCost "ELEVATOR-PENALTY-WRONG-DIR" .up .down,
    ridingCost "ELEVATOR-PENALTY-WRONG-DIR" .down .up, waitingCost].foldl (.arith .add)
    (ridingCost "ELEVATOR-PENALTY-RIGHT-DIR" .up .up)

/-- An elevator does at most one thing in a step. -/
def oneAction : Expr :=
  let actions :=
    [now "open-door-going-down" ["?e"], now "close-door" ["?e"],
      now "move-current-dir" ["?e"]].foldl (.arith .add) (now "open-door-going-up" ["?e"])
  quantify .forall [("?e", "elevator")] (.compare .le actions (.int 1))

/-- The declarations of the fluents. -/
def fluents : List FluentDecl :=
  [.nonFluent "ELEVATOR-PENALTY-RIGHT-DIR" .real [] (.real 0.75),
    .nonFluent "ELEVATOR-PENALTY-WRONG-DIR" .real [] (.real 3.0),
    .nonFluent "ADJACENT-UP" .bool ["floor", "floor"] (.bool false),
    .nonFluent "TOP-FLOOR" .bool ["floor"] (.bool false),
    .nonFluent "BOTTOM-FLOOR" .bool ["floor"] (.bool false),
    .nonFluent "ARRIVE-PARAM" .real ["floor"] (.real 0.0),
    .state "person-waiting-up" .bool ["floor"] (.bool false),
    .state "person-waiting-down" .bool ["floor"] (.bool false),
    .state "person-in-elevator-going-up" .bool ["elevator"] (.bool false),
    .state "person-in-elevator-going-down" .bool ["elevator"] (.bool false),
    .state "elevator-dir-up" .bool ["elevator"] (.bool true),
    .state "elevator-closed" .bool ["elevator"] (.bool true),
    .state "elevator-at-floor" .bool ["elevator", "floor"] (.bool false),
    .action "move-current-dir" .bool ["elevator"] (.bool false),
    .action "open-door-going-up" .bool ["elevator"] (.bool false),
    .action "open-door-going-down" .bool ["elevator"] (.bool false),
    .action "close-door" .bool ["elevator"] (.bool false)]

/-- The functions of the state fluents. -/
def cpfs : List CpfDecl :=
  [.ofTexts "person-waiting-up" ["?f"] (waiting .up),
    .ofTexts "person-waiting-down" ["?f"] (waiting .down),
    .ofTexts "person-in-elevator-going-up" ["?e"] (riding .up),
    .ofTexts "person-in-elevator-going-down" ["?e"] (riding .down),
    .ofTexts "elevator-closed" ["?e"] closed, .ofTexts "elevator-dir-up" ["?e"] headsUp,
    .ofTexts "elevator-at-floor" ["?e", "?f"] atFloor]

/-- The domain. -/
def domain : Domain where
  name := name
  types := ["elevator", "floor"]
  fluents := fluents
  cpfs := cpfs
  reward := reward
  constraints := [oneAction]

/-- One elevator and three floors. -/
def threeFloors : Instance where
  name := "elevators_inst_1e3f"
  domain := name
  objects :=
    [{ typeName := "elevator", objects := ["e0"] },
      { typeName := "floor", objects := ["f0", "f1", "f2"] }]
  nonFluents :=
    [.holds "ADJACENT-UP" ["f0", "f1"], .holds "ADJACENT-UP" ["f1", "f2"],
      .holds "TOP-FLOOR" ["f2"], .holds "BOTTOM-FLOOR" ["f0"],
      .measures "ARRIVE-PARAM" ["f1"] 0.14, .measures "ARRIVE-PARAM" ["f2"] 0.14]
  initState := [.holds "elevator-at-floor" ["e0", "f0"]]
  maxNonDefaultActions := none
  horizon := 40
  discount := 1.0

/-- The ground model of the small building. -/
def model : Except (Fault SimError) Model :=
  Model.ground domain threeFloors

end Elevators
end LiftedPomdp
