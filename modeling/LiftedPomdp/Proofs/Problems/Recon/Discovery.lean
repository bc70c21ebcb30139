import LiftedPomdp.Proofs.Eval.Totals
import LiftedPomdp.Proofs.Problems.Recon.Movement

/-!
# Discoveries last and pay once

What is found out about an object stays known, and water and life stay where
they are.  The reward of a step counts an object when an undamaged camera is
used on it from its cell while no picture of it has been taken.  The same use
of the camera, seen from the same state, records that a picture was taken, so
no object counts a second time until the next reset.
-/

namespace LiftedPomdp
namespace Recon

open Effects Grounding

/-! ## What holds of an object -/

/-- A fact about an object holds in a state. -/
def Has (m : Model) (state : Table) (name o : String) : Prop :=
  m.lookup? .state state name [o] = some (.bool true)

/-- An undamaged camera is used on an object by a rover in its cell. -/
def Photographed (m : Model) (state action : Table) (o : String) : Prop :=
  ∃ a t, m.lookup? .action action "useToolOn" [a, t, o] = some (.bool true) ∧
    m.nonFluent? "CAMERA_TOOL" [t] = some (.bool true) ∧
    ¬m.lookup? .state state "damaged" [t] = some (.bool true) ∧
    ∃ x y, Stands m state a (x, y) ∧ m.nonFluent? "objAt" [o, x, y] = some (.bool true)

/-- The first picture of an object is taken. -/
def FirstPictured (m : Model) (state action : Table) (o : String) : Prop :=
  Photographed m state action o ∧ ¬Has m state "pictureTaken" o

/-- What an object contributes to the reward of a step. -/
inductive Pays (m : Model) (state action : Table) (o : String) : Float → Prop
  | good {x : Float} (hpicture : FirstPictured m state action o)
      (hlife : Has m state "HAS_LIFE" o)
      (hweight : m.nonFluent? "GOOD_PIC_WEIGHT" [] = some (.real x)) : Pays m state action o x
  | bad {x : Float} (hpicture : FirstPictured m state action o)
      (hlife : ¬Has m state "HAS_LIFE" o)
      (hweight : m.nonFluent? "BAD_PIC_WEIGHT" [] = some (.real x)) : Pays m state action o (-x)
  | nothing (hpicture : ¬FirstPictured m state action o) : Pays m state action o 0

/-- The facts about objects that stay true, with the functions that compute
them. -/
def lasting : List (String × Expr) :=
  [("HAS_WATER", hasWater), ("HAS_LIFE", hasLife),
    ("waterChecked", latch "waterChecked" (toolUsed "WATER_TOOL" [] false)),
    ("lifeChecked", latch "lifeChecked" (toolUsed "LIFE_TOOL" [] false)),
    ("pictureTaken", latch "pictureTaken" pictureTaken)]

theorem water_lasting : ("HAS_WATER", hasWater) ∈ lasting := by
  simp [lasting]

theorem life_lasting : ("HAS_LIFE", hasLife) ∈ lasting := by
  simp [lasting]

theorem picture_lasting : ("pictureTaken", latch "pictureTaken" pictureTaken) ∈ lasting := by
  simp [lasting]

variable {i : Instance} {m : Model} {state action next : Table} {reward : Float} {o : String}

theorem lasting_fluent {p : String × Expr} (hp : p ∈ lasting) :
    fact p.1 ["obj"] ∈ domain.fluents := by
  have hall : ∀ q ∈ lasting, fact q.1 ["obj"] ∈ domain.fluents := by
    simp [lasting, domain, fluents]
  exact hall p hp

theorem lasting_cpf {p : String × Expr} (hp : p ∈ lasting) :
    CpfDecl.ofTexts p.1 ["?o"] p.2 ∈ domain.cpfs ∧ p.2.isChance = true := by
  simp only [lasting, List.mem_cons, List.not_mem_nil, or_false] at hp
  rcases hp with rfl | rfl | rfl | rfl | rfl <;> exact ⟨by simp [domain, stateCpfs], rfl⟩

theorem use_mem : deed "useToolOn" ["agent", "tool", "obj"] ∈ domain.fluents := by
  simp [domain, fluents]

theorem camera_mem : relation "CAMERA_TOOL" ["tool"] ∈ domain.fluents := by
  simp [domain, fluents]

theorem damaged_mem : fact "damaged" ["tool"] ∈ domain.fluents := by
  simp [domain, fluents]

theorem objAt_mem : relation "objAt" ["obj", "x_pos", "y_pos"] ∈ domain.fluents := by
  simp [domain, fluents]

theorem mem_of_has (h : Grounded domain i m) {p : String × Expr} (hp : p ∈ lasting)
    (hhas : Has m state p.1 o) : o ∈ objectsOf i "obj" := by
  have hargs := h.forall₂_of_lookup? (h.fluent?_eq_some (lasting_fluent hp)) hhas
  simpa [fact, FluentDecl.state] using hargs

theorem mem_of_photographed (h : Grounded domain i m)
    (hpicture : Photographed m state action o) : o ∈ objectsOf i "obj" := by
  obtain ⟨a, t, _, _, _, x, y, _, hat⟩ := hpicture
  have hargs := h.forall₂_of_lookup? (h.fluent?_eq_some objAt_mem) hat
  simp only [relation, FluentDecl.nonFluent, List.forall₂_cons] at hargs
  exact hargs.1

theorem holds_has (h : Grounded domain i m) {p : String × Expr} (hp : p ∈ lasting) :
    (Expr.now p.1 ["?o"]).Holds (m.scene (.current m.nonFluents state action)) [("o", o)] ↔
      Has m state p.1 o := by
  simp [Has, h.holds_state (lasting_fluent hp)]

theorem holds_pictureTaken (h : Grounded domain i m) :
    pictureTaken.Holds (m.scene (.current m.nonFluents state action)) [("o", o)] ↔
      Photographed m state action o := by
  have htypes : "agent" ∈ domain.types ∧ "tool" ∈ domain.types ∧ "x_pos" ∈ domain.types ∧
      "y_pos" ∈ domain.types := by simp [domain]
  obtain ⟨hagent, htool, hx, hy⟩ := htypes
  have hform : pictureTaken.Holds (m.scene (.current m.nonFluents state action)) [("o", o)] ↔
      ∃ a ∈ objectsOf i "agent", ∃ t ∈ objectsOf i "tool",
        m.lookup? .action action "useToolOn" [a, t, o] = some (.bool true) ∧
          m.nonFluent? "CAMERA_TOOL" [t] = some (.bool true) ∧
          ¬m.lookup? .state state "damaged" [t] = some (.bool true) ∧
          ∃ x ∈ objectsOf i "x_pos", ∃ y ∈ objectsOf i "y_pos",
            Stands m state a (x, y) ∧ m.nonFluent? "objAt" [o, x, y] = some (.bool true) := by
    simp [pictureTaken, toolUsed, onCell, Stands, h.holds_action use_mem,
      h.holds_nonFluent camera_mem, h.holds_state damaged_mem, h.holds_state agentAt_mem,
      h.holds_nonFluent objAt_mem, h.scene_object_iff _ hagent, h.scene_object_iff _ htool,
      h.scene_object_iff _ hx, h.scene_object_iff _ hy]
  rw [hform]
  constructor
  · rintro ⟨a, _, t, _, huse, hcamera, hintact, x, _, y, _, hcell⟩
    exact ⟨a, t, huse, hcamera, hintact, x, y, hcell⟩
  · rintro ⟨a, t, huse, hcamera, hintact, x, y, hstands, hat⟩
    have hargs := h.forall₂_of_lookup? (h.fluent?_eq_some use_mem) huse
    simp only [deed, FluentDecl.action, List.forall₂_cons] at hargs
    obtain ⟨ha, hgrid⟩ := mem_of_stands h hstands
    exact ⟨a, ha, t, hargs.2.1, huse, hcamera, hintact, x, hgrid.1, y, hgrid.2, hstands, hat⟩

/-! ## One step -/

/-- The next truth value of a lasting fact is one that its function allows. -/
theorem exists_discovered (h : Grounded domain i m)
    (ht : m.Transits domain state action next reward) {p : String × Expr} (hp : p ∈ lasting)
    (ho : o ∈ objectsOf i "obj") : ∃ b, (Has m next p.1 o ↔ b = true) ∧
      p.2.Allows (m.scene (.current m.nonFluents state action)) [("o", o)] b := by
  obtain ⟨hcpf, hchance⟩ := lasting_cpf hp
  obtain ⟨b, hb, hallows⟩ := ht.exists_allowed h hcpf hchance
    (h.fluent?_eq_some (lasting_fluent hp)) rfl rfl (.cons ho .nil)
  exact ⟨b, Value.some_bool_iff hb, hallows⟩

/-- The function of a lasting fact allows nothing but true where the fact
holds. -/
theorem eq_true_of_allows {sc : Scene} {env : Environment} {b : Bool} {p : String × Expr}
    (hp : p ∈ lasting) (hholds : (Expr.now p.1 ["?o"]).Holds sc env)
    (hallows : p.2.Allows sc env b) : b = true := by
  simp only [lasting, List.mem_cons, List.not_mem_nil, or_false] at hp
  rcases hp with rfl | rfl | rfl | rfl | rfl
  · simpa only [hasWater, Expr.Allows, hholds, Expr.holds_bool, iff_true, true_and, and_true,
      not_true_eq_false, false_and, or_false] using hallows
  · simpa only [hasLife, Expr.Allows, hholds, Expr.holds_bool, iff_true, true_and, and_true,
      not_true_eq_false, false_and, or_false] using hallows
  all_goals exact hallows.mpr (.inl hholds)

/-- A fact that holds of an object lasts for a step. -/
theorem has_of_transits (h : Grounded domain i m)
    (ht : m.Transits domain state action next reward) {p : String × Expr} (hp : p ∈ lasting)
    (hhas : Has m state p.1 o) : Has m next p.1 o := by
  obtain ⟨b, hb, hallows⟩ := exists_discovered h ht hp (mem_of_has h hp hhas)
  rw [hb]
  exact eq_true_of_allows hp ((holds_has h hp).mpr hhas) hallows

/-- A picture that is taken is remembered. -/
theorem remembered_of_transits (h : Grounded domain i m)
    (ht : m.Transits domain state action next reward)
    (hpicture : Photographed m state action o) : Has m next "pictureTaken" o := by
  obtain ⟨b, hb, hallows⟩ := exists_discovered h ht picture_lasting (mem_of_photographed h hpicture)
  rw [hb]
  exact hallows.mpr (.inr (.inl ((holds_pictureTaken h).mpr hpicture)))

/-- Life appears only where there is water. -/
theorem wet_of_transits (h : Grounded domain i m)
    (ht : m.Transits domain state action next reward)
    (hwet : ∀ o, Has m state "HAS_LIFE" o → Has m state "HAS_WATER" o)
    (hlife : Has m next "HAS_LIFE" o) : Has m next "HAS_WATER" o := by
  obtain ⟨b, hb, hallows⟩ := exists_discovered h ht life_lasting (mem_of_has h life_lasting hlife)
  rw [hb] at hlife
  simp only [hasLife, Expr.Allows, holds_has h life_lasting, holds_has h water_lasting,
    Expr.holds_bool, hlife, and_true, true_iff, Bool.false_eq_true, and_false, or_false] at hallows
  have hwater : Has m state "HAS_WATER" o := by
    rcases hallows with hbefore | ⟨_, hwater⟩
    · exact hwet o hbefore
    · exact hwater
  exact has_of_transits h ht water_lasting hwater

/-! ## The reward -/

/-- The picture condition of the object `?o`. -/
def firstPicture : Expr :=
  .and [pictureTaken, .not (.now "pictureTaken" ["?o"])]

/-- What the object `?o` contributes to the reward. -/
def payout : Expr :=
  .ite firstPicture
    (.ite (.now "HAS_LIFE" ["?o"]) (.now "GOOD_PIC_WEIGHT" []) (.neg (.now "BAD_PIC_WEIGHT" [])))
    (.real 0.0)

theorem reward_eq : Recon.reward = .quantify .sum [("?o", "obj")] payout := rfl

theorem holds_firstPicture (h : Grounded domain i m) :
    firstPicture.Holds (m.scene (.current m.nonFluents state action)) [("o", o)] ↔
      FirstPictured m state action o := by
  simp only [firstPicture, Expr.Holds, Expr.AllHold, holds_pictureTaken h,
    holds_has h picture_lasting, and_true, FirstPictured]

/-- A weight is a real. -/
theorem weight_returns (h : Grounded domain i m) {name : String} {default : Float}
    (hmem : quantity name [] default ∈ domain.fluents) (label : String) (env : Environment) :
    ((Expr.now name []).meaning (m.world (.current m.nonFluents state action) label) env).Returns
      (Value.IsReal fun x => m.nonFluent? name [] = some (.real x)) := by
  have hf : domain.fluent? name = some (quantity name [] default) := h.fluent?_eq_some hmem
  refine (Meaning.Returns.readValue name [] false).mono ?_
  rintro v ⟨_, hos, hv⟩
  obtain rfl := Option.some.inj hos
  rw [h.value?_world _ label hf] at hv
  obtain ⟨v', hv', hrange⟩ := h.exists_lookup?_of_typed hf h.typed_nonFluents .nil
  obtain rfl := Option.some.inj (hv.symm.trans hv')
  cases v with
  | real x => exact ⟨x, rfl, hv⟩
  | bool b => cases hrange
  | int n => cases hrange

theorem payout_returns (h : Grounded domain i m) (label o : String) :
    (payout.meaning (m.world (.current m.nonFluents state action) label) [("o", o)]).Returns
      (Value.IsReal (Pays m state action o)) := by
  have hgood : quantity "GOOD_PIC_WEIGHT" [] 1.0 ∈ domain.fluents := by simp [domain, fluents]
  have hbad : quantity "BAD_PIC_WEIGHT" [] 2.0 ∈ domain.fluents := by simp [domain, fluents]
  let w := m.world (.current m.nonFluents state action) label
  have hpicture := (Expr.meaning_tells w [("o", o)] firstPicture rfl).truth (w := w)
  have hlife := (Expr.meaning_tells w [("o", o)] (.now "HAS_LIFE" ["?o"]) rfl).truth (w := w)
  rw [m.scene_world, holds_firstPicture h] at hpicture
  rw [m.scene_world, holds_has h life_lasting] at hlife
  rw [payout, Expr.meaning]
  refine Keeps.bind hpicture fun b hb => ?_
  cases b with
  | false =>
      refine Keeps.value ⟨0.0, rfl, .nothing ?_⟩
      exact fun hfirst => Bool.false_ne_true (hb.mpr hfirst)
  | true =>
      rw [if_pos rfl, Expr.meaning]
      refine Keeps.bind hlife fun b' hb' => ?_
      cases b' with
      | true =>
          refine (weight_returns h hgood label _).mono ?_
          rintro v ⟨x, rfl, hx⟩
          exact ⟨x, rfl, .good (hb.mp rfl) (hb'.mp rfl) hx⟩
      | false =>
          have hdead : ¬Has m state "HAS_LIFE" o :=
            fun hlife => Bool.false_ne_true (hb'.mpr hlife)
          rw [if_neg Bool.false_ne_true, Expr.meaning]
          refine Keeps.bind (weight_returns h hbad label _) ?_
          rintro v ⟨x, rfl, hx⟩
          exact Keeps.value ⟨-x, rfl, .bad (hb.mp rfl) hdead hx⟩

/-- The reward of a step is the total of what the objects contribute. -/
theorem pays_of_transits (h : Grounded domain i m)
    (ht : m.Transits domain state action next reward) :
    ∃ payouts, List.Forall₂ (Pays m state action) (objectsOf i "obj") payouts ∧
      reward = payouts.foldl (· + ·) 0 := by
  have hobj : "obj" ∈ domain.types := by simp [domain]
  obtain ⟨v, s, t, hrun, rfl⟩ := ht.rewarded
  change (Recon.reward.meaning _ []).run s = (.ok v, t) at hrun
  rw [reward_eq, Expr.quantify, Expr.meaning] at hrun
  exact (Meaning.Returns.sumOver (payout_returns h m.reward.label)
    (h.objects?_world (.current m.nonFluents state action) m.reward.label hobj)).of_run hrun

/-- A first picture of life pays the good weight. -/
theorem pays_of_firstPictured (hfirst : FirstPictured m state action o)
    (hlife : Has m state "HAS_LIFE" o) {x y : Float}
    (hweight : m.nonFluent? "GOOD_PIC_WEIGHT" [] = some (.real x))
    (hpays : Pays m state action o y) : y = x := by
  cases hpays with
  | good _ _ hweight' => exact Value.real.inj (Option.some.inj (hweight'.symm.trans hweight))
  | bad _ hdead _ => exact absurd hlife hdead
  | nothing hnone => exact absurd hfirst hnone

theorem pays_of_not_firstPictured (hnone : ¬FirstPictured m state action o) {y : Float}
    (hpays : Pays m state action o y) : y = 0 := by
  cases hpays with
  | good hfirst _ _ => exact absurd hfirst hnone
  | bad hfirst _ _ => exact absurd hfirst hnone
  | nothing _ => rfl

/-! ## All runs -/

variable {c : EngineConfig} {e : Engine} {as : ℕ → Action} {n k : ℕ}

/-- A step of a run is committed, and the first picture of an object is taken in
it. -/
def PaysAt (m : Model) (e : Engine) (as : ℕ → Action) (o : String) (n : ℕ) : Prop :=
  ∃ t action, ((e.along as n).step (as n)).1 = .ok t ∧ (as n).resolve m = .ok action ∧
    FirstPictured m (e.along as n).current action o

/-- A fact that holds of an object lasts for the rest of a run. -/
theorem has_along (h : Grounded domain i m) (he : Engine.Reachable m c e) {p : String × Expr}
    (hp : p ∈ lasting) (hnk : n ≤ k) (hhas : Has m (e.along as n).current p.1 o) :
    Has m (e.along as k).current p.1 o := by
  refine Engine.along_preserves h (P := fun state => Has m state p.1 o) ?_ he as hnk hhas
  intro state action next reward hstate ht
  exact has_of_transits h ht hp hstate

theorem remembered_of_paysAt (h : Grounded domain i m) (he : Engine.Reachable m c e)
    (hpays : PaysAt m e as o n) (hnk : n < k) :
    Has m (e.along as k).current "pictureTaken" o := by
  obtain ⟨t, action, hstep, hresolve, hpicture, _⟩ := hpays
  obtain ⟨action', hresolve', ht⟩ :=
    Engine.exists_transits h (Engine.reachable_along he as n) hstep
  obtain rfl := Except.ok.inj (hresolve.symm.trans hresolve')
  exact has_along h he picture_lasting hnk (remembered_of_transits h ht hpicture)

/-- An object pays in at most one step of a run. -/
theorem paysAt_unique (h : Grounded domain i m) (he : Engine.Reachable m c e)
    (hn : PaysAt m e as o n) (hk : PaysAt m e as o k) : n = k := by
  have hlater : ∀ {n k : ℕ}, PaysAt m e as o n → PaysAt m e as o k → ¬n < k := by
    intro n k hn hk hnk
    -- The reward reads the state before a step, where the picture is remembered by then.
    obtain ⟨_, _, _, _, _, hnew⟩ := hk
    exact hnew (remembered_of_paysAt h he hn hnk)
  exact Nat.le_antisymm (Nat.not_lt.mp (hlater hk hn)) (Nat.not_lt.mp (hlater hn hk))

/-- Along every run from a reset, what is true of an object stays true, the
reward of each step that is committed is the total of what the objects
contribute, each object does so in at most one step, and from then on its
picture has been taken.  Where life starts only in water, it is found only in
water. -/
theorem discoveries_last (h : Model.ground domain i = .ok m) (he : Engine.Reachable m c e)
    (seed : UInt64) (as : ℕ → Action) :
    let start := e.reset seed
    (∀ name ∈ ["HAS_WATER", "HAS_LIFE", "waterChecked", "lifeChecked", "pictureTaken"],
      ∀ o n k, n ≤ k → (start.along as n).stateValue? name [o] = some (.bool true) →
        (start.along as k).stateValue? name [o] = some (.bool true)) ∧
    (∀ n t, ((start.along as n).step (as n)).1 = .ok t → ∃ action payouts,
      (as n).resolve m = .ok action ∧
        List.Forall₂ (Pays m (start.along as n).current action) (objectsOf i "obj") payouts ∧
        t.reward = payouts.foldl (· + ·) 0) ∧
    (∀ o n k, PaysAt m start as o n → PaysAt m start as o k → n = k) ∧
    (∀ o n k, PaysAt m start as o n → n < k →
      (start.along as k).stateValue? "pictureTaken" [o] = some (.bool true)) ∧
    ((∀ o, Has m m.initialState "HAS_LIFE" o → Has m m.initialState "HAS_WATER" o) →
      ∀ c' e', Engine.Reachable m c' e' → ∀ o,
        e'.stateValue? "HAS_LIFE" [o] = some (.bool true) →
          e'.stateValue? "HAS_WATER" [o] = some (.bool true)) := by
  have hg := grounded_of_ground h
  have hstart : Engine.Reachable m c (e.reset seed) := he.reset seed
  have hmodel : ∀ {c' e'}, Engine.Reachable m c' e' → ∀ name o,
      e'.stateValue? name [o] = some (.bool true) ↔ Has m e'.current name o := by
    intro c' e' he' name o
    obtain rfl := (Engine.typed_of_reachable hg he').model
    exact Iff.rfl
  have halong : ∀ n, Engine.Reachable m c ((e.reset seed).along as n) :=
    Engine.reachable_along hstart as
  refine ⟨?_, ?_, ?_, ?_, ?_⟩
  · intro name hname o n k hnk hhas
    obtain ⟨p, hp, rfl⟩ : ∃ p ∈ lasting, p.1 = name := List.mem_map.mp hname
    rw [hmodel (halong _)] at hhas ⊢
    exact has_along hg hstart hp hnk hhas
  · intro n t hstep
    obtain ⟨action, hresolve, ht⟩ := Engine.exists_transits hg (halong n) hstep
    obtain ⟨payouts, hpayouts, htotal⟩ := pays_of_transits hg ht
    exact ⟨action, payouts, hresolve, hpayouts, htotal⟩
  · exact fun o n k => paysAt_unique hg hstart
  · intro o n k hpays hnk
    rw [hmodel (halong k)]
    exact remembered_of_paysAt hg hstart hpays hnk
  · intro hinitial c' e' he' o
    rw [hmodel he', hmodel he']
    refine Engine.current_preserves hg
      (P := fun state => ∀ o, Has m state "HAS_LIFE" o → Has m state "HAS_WATER" o)
      hinitial ?_ he' o
    intro state a action next reward _ hwet _ ht o
    exact wet_of_transits hg ht hwet

/-- The rover goes to the object with life and uses its camera there. -/
def visit : ℕ → Action
  | 0 => Action.noop.set "right" ["a1"] (.bool true)
  | 1 => Action.noop.set "up" ["a1"] (.bool true)
  | _ => Action.noop.set "useToolOn" ["a1", "p1", "o1"] (.bool true)

/-- On the small grid the rover is on the cell of the object after two steps, with
a camera that is not damaged, and takes its picture. -/
theorem exists_visit : ∃ m, Model.ground domain grid3 = .ok m ∧
    ∃ e ∈ (Engine.create m .standard).toOption,
      ∃ t ∈ (((e.reset 7).along visit 2).step (visit 2)).1.toOption,
        ∃ action ∈ ((visit 2).resolve m).toOption,
          (∀ t ∈ objectsOf grid3 "tool", ∀ o ∈ objectsOf grid3 "obj",
            m.lookup? .action action "useToolOn" ["a1", t, o] = some (.bool true) ↔
              t = "p1" ∧ o = "o1") ∧
          (∀ f ∈ [("agentAt", ["a1", "x2", "y2"], true), ("damaged", ["p1"], false),
              ("pictureTaken", ["o1"], false), ("HAS_LIFE", ["o1"], true)],
            m.lookup? .state ((e.reset 7).along visit 2).current f.1 f.2.1 =
              some (.bool f.2.2)) ∧
          (∀ f ∈ [("CAMERA_TOOL", ["p1"], Value.bool true),
              ("objAt", ["o1", "x2", "y2"], .bool true), ("GOOD_PIC_WEIGHT", [], .real 1)],
            m.nonFluent? f.1 f.2.1 = some f.2.2) := by
  apply Model.exists_ground_of_any
  unfold Model.ground Model.groundBy Grounding.blocks orderObservations
  rw [domain_valid, sortedFluents_domain, checkInhabited_eq_checkNoneBare,
    Dependency.order_eq_orderUpTo]
  decide +kernel

/-- On the small grid the rover goes to the object with life and uses its camera
there twice.  The first picture pays, the second one does not, and the picture is
remembered; the object keeps its water and its life. -/
theorem discoveries_last_grid3 :
    EngineConfig.standard.validate = .ok () ∧ ∃ m e t, Model.ground domain grid3 = .ok m ∧
      Engine.create m .standard = .ok e ∧
      let start := e.reset 7
      ((start.along visit 2).step (visit 2)).1 = .ok t ∧ t.reward = 1 ∧
        PaysAt m start visit "o1" 2 ∧ ¬PaysAt m start visit "o1" 3 ∧
        (start.along visit 4).stateValue? "pictureTaken" ["o1"] = some (.bool true) ∧
        (start.along visit 4).stateValue? "HAS_LIFE" ["o1"] = some (.bool true) ∧
        (start.along visit 4).stateValue? "HAS_WATER" ["o1"] = some (.bool true) := by
  have hc : EngineConfig.standard.validate = .ok () := by decide +kernel
  obtain ⟨m, hm, e, he, t, ht, action, haction, huses, hstate, hconstant⟩ := exists_visit
  rw [mem_toOption_iff] at he ht haction
  have hg := grounded_of_ground hm
  have hcreated := Engine.Reachable.create he
  obtain ⟨hlast, hrewards, honce, hremembered, hwet⟩ := discoveries_last hm hcreated 7 visit
  have hlife : Has m ((e.reset 7).along visit 2).current "HAS_LIFE" "o1" :=
    hstate ("HAS_LIFE", ["o1"], true) (by decide)
  have hweight := hconstant ("GOOD_PIC_WEIGHT", [], .real 1) (by simp)
  have hfirst : FirstPictured m ((e.reset 7).along visit 2).current action "o1" := by
    refine ⟨⟨"a1", "p1", (huses "p1" (by decide) "o1" (by decide)).mpr ⟨rfl, rfl⟩, ?_, ?_,
      "x2", "y2", ?_, ?_⟩, ?_⟩
    · exact hconstant ("CAMERA_TOOL", ["p1"], .bool true) (by simp)
    · rw [hstate ("damaged", ["p1"], false) (by decide)]
      exact nofun
    · exact hstate ("agentAt", ["a1", "x2", "y2"], true) (by decide)
    · exact hconstant ("objAt", ["o1", "x2", "y2"], .bool true) (by simp)
    · rw [Has, hstate ("pictureTaken", ["o1"], false) (by decide)]
      exact nofun
  have hother : ¬FirstPictured m ((e.reset 7).along visit 2).current action "o2" := by
    rintro ⟨⟨a, t', huse, _⟩, _⟩
    have hargs := hg.forall₂_of_lookup? (hg.fluent?_eq_some use_mem) huse
    simp only [deed, FluentDecl.action, List.forall₂_cons] at hargs
    obtain ⟨hagent, htool, hobj, _⟩ := hargs
    obtain rfl : a = "a1" := by simpa [objectsOf, grid3] using hagent
    exact absurd ((huses t' htool "o2" hobj).mp huse).2 (by decide)
  have hpays : PaysAt m (e.reset 7) visit "o1" 2 := ⟨t, action, ht, haction, hfirst⟩
  have hreward : t.reward = 1 := by
    obtain ⟨action', payouts, haction', hpayouts, htotal⟩ := hrewards 2 t ht
    obtain rfl := Except.ok.inj (haction.symm.trans haction')
    have hobjects : objectsOf grid3 "obj" = ["o1", "o2"] := by decide
    rw [hobjects] at hpayouts
    obtain ⟨x, _, hx, hrest, rfl⟩ := List.forall₂_cons_left_iff.mp hpayouts
    obtain ⟨y, _, hy, hnil, rfl⟩ := List.forall₂_cons_left_iff.mp hrest
    obtain rfl := List.forall₂_nil_left_iff.mp hnil
    rw [pays_of_firstPictured hfirst hlife hweight hx, pays_of_not_firstPictured hother hy] at htotal
    rw [htotal]
    decide +kernel
  have hstart : ∀ name ∈ ["HAS_LIFE", "HAS_WATER"], ∀ o,
      Has m m.initialState name o ↔ o = "o1" := by
    obtain ⟨m', hm', _, _, hinitial⟩ := exists_grid3
    obtain rfl := Except.ok.inj (hm.symm.trans hm')
    exact hinitial
  have hstarts : ∀ o, Has m m.initialState "HAS_LIFE" o → Has m m.initialState "HAS_WATER" o := by
    intro o ho
    exact (hstart "HAS_WATER" (by decide) o).mpr ((hstart "HAS_LIFE" (by decide) o).mp ho)
  have halive : (e.reset 7).stateValue? "HAS_LIFE" ["o1"] = some (.bool true) := by
    obtain rfl := (Engine.typed_of_reachable hg hcreated).model
    exact (hstart "HAS_LIFE" (by decide) "o1").mpr rfl
  have hreachable := Engine.reachable_along (hcreated.reset 7) visit 4
  have hlives := hlast "HAS_LIFE" (by decide) "o1" 0 4 (by decide) halive
  refine ⟨hc, m, e, t, hm, he, ht, hreward, hpays, ?_, ?_, hlives, ?_⟩
  · intro hagain
    exact absurd (honce "o1" 2 3 hpays hagain) (by decide)
  · exact hremembered "o1" 2 4 hpays (by decide)
  · exact hwet hstarts _ _ hreachable "o1" hlives

end Recon
end LiftedPomdp
