import LiftedPomdp.Proofs.Bytes
import LiftedPomdp.Proofs.Document.Blurring
import LiftedPomdp.Run.Engine

/-!
# What a fingerprint identifies

The bytes that the fingerprint of a model hashes are those of two documents, each
after its length.  They tell the two definitions apart from any others, as far as
their texts do: definitions with finite reals share them with no other ones, and
definitions that differ only in reals that are not finite share them with each
other.
-/

namespace LiftedPomdp

open Effects

/-! ## The bytes of two documents -/

namespace Grounding

theorem section64_append_inj {cs cs' : List Char} {rest rest' : List UInt8}
    (h : section64 cs ++ rest = section64 cs' ++ rest') :
    cs.flatMap String.utf8EncodeChar ++ rest = cs'.flatMap String.utf8EncodeChar ++ rest' := by
  rw [section64, section64, List.append_assoc, List.append_assoc] at h
  exact (List.append_inj h (by simp)).2

/-- The first of two documents that are objects is told from the bytes of both. -/
theorem section64_spelled {ms ms' : List (String × Json)} {rest rest' : List UInt8}
    (hlegible : (Json.obj ms).spelled.Legible .nearest)
    (hlegible' : (Json.obj ms').spelled.Legible .nearest)
    (h : section64 (Json.obj ms).compactChars ++ rest =
      section64 (Json.obj ms').compactChars ++ rest') :
    (Json.obj ms).spelled = (Json.obj ms').spelled ∧ rest = rest' := by
  have hbytes := section64_append_inj h
  have hspelled : (Json.obj ms).spelled = (Json.obj ms').spelled := by
    rcases List.prefix_or_prefix_of_prefix ⟨rest, hbytes⟩ (List.prefix_append _ rest') with
      hprefix | hprefix
    · exact Json.spelled_eq_of_prefix hlegible hlegible' (Bytes.prefix_of_utf8_prefix hprefix)
    · exact (Json.spelled_eq_of_prefix hlegible' hlegible
        (Bytes.prefix_of_utf8_prefix hprefix)).symm
  refine ⟨hspelled, ?_⟩
  rw [Json.compactChars_congr hspelled] at h
  exact List.append_cancel_left h

/-- The bytes of two definitions tell them as far as their texts do, given that the
names in the expressions of the domain are identifiers. -/
theorem fingerprintBytes_inj {d d' : Domain} {i i' : Instance}
    (hd : ∀ e ∈ d.exprs, e.IsNamed) (hd' : ∀ e ∈ d'.exprs, e.IsNamed) :
    fingerprintBytes d i = fingerprintBytes d' i' ↔
      d.blurred = d'.blurred ∧ i.blurred = i'.blurred := by
  rw [← Domain.spelled_toJson_inj hd hd', ← Instance.spelled_toJson_inj]
  constructor
  · intro h
    obtain ⟨hdomain, hrest⟩ := section64_spelled d.legible_spelled d'.legible_spelled h
    have hinstance : section64 i.toJson.compactChars ++ [] =
        section64 i'.toJson.compactChars ++ [] := by
      rw [hrest]
    exact ⟨hdomain, (section64_spelled i.legible_spelled i'.legible_spelled hinstance).1⟩
  · rintro ⟨hdomain, hinstance⟩
    unfold fingerprintBytes
    rw [Json.compactChars_congr hdomain, Json.compactChars_congr hinstance]

end Grounding

/-! ## A sample -/

namespace Wage

/-- A domain whose steps all pay the same. -/
def domain (x : Float) : Domain where
  name := "wage"
  types := []
  fluents := []
  cpfs := []
  reward := .real x
  constraints := []

/-- One step of work. -/
def shift : Instance where
  name := "shift"
  domain := "wage"
  objects := []
  nonFluents := []
  initState := []
  maxNonDefaultActions := none
  horizon := 1
  discount := 1.0

/-- The domain, grounded. -/
def model (x : Float) : Model where
  domainName := "wage"
  instanceName := "shift"
  types := #[]
  blocks := #[]
  nonFluents := #[]
  initialState := #[]
  defaultAction := #[]
  defaultObservation := #[]
  stateCpfs := []
  observationCpfs := []
  reward := { node := .const (.real x), slots := 0, label := "reward" }
  constraints := []
  horizon := 1
  discount := 1.0
  maxNonDefaultActions := none
  fingerprint := Grounding.fingerprint (domain x) shift

open Grounding

theorem grounded (x : Float) : Grounded (domain x) shift (model x) where
  domainValid := by
    have hvalid : (domain x).validate = (domain 0).validate := rfl
    rw [hvalid]
    decide +kernel
  instanceValid := by decide +kernel
  domainName := rfl
  types := rfl
  blocks := by
    rw [sortedFluents, domain, List.mergeSort_nil]
    rfl
  inhabited := by
    have hbare : ((model x).types.toList.filter fun t =>
        t.objects.isEmpty && (usedTypes (domain x)).contains t.name) = [] := rfl
    rw [checkInhabited, hbare, List.map_nil, List.mergeSort_nil]
  nonFluents := rfl
  initialState := rfl
  functions := ⟨[], {
    compiled := .nil
    complete := rfl
    observations := by
      have hnumbers : numbersOf (model x).blocks .observation = [] := rfl
      unfold orderObservations
      dsimp only
      rw [hnumbers, Dependency.order_eq_orderUpTo]
      rfl
    states := rfl }⟩
  reward := ⟨[], rfl⟩
  constraints := rfl
  actionFits := rfl
  observationFits := rfl
  defaultAction := rfl
  defaultObservation := rfl
  domainLabel := rfl
  instanceLabel := rfl
  horizon := rfl
  discount := rfl
  maxNonDefaultActions := rfl
  fingerprint := by dsimp only [model]

theorem ground_eq (x : Float) : Model.ground (domain x) shift = .ok (model x) :=
  ground_of_grounded (grounded x)

end Wage

/-! ## Ground models -/

namespace Model

open Grounding

/-- Definitions that ground have the bytes of their fingerprint in common exactly
where they are equal up to the reals that are not finite, which are all taken for
one.  In particular, definitions with finite reals only that have those bytes in
common are equal, and so are their models. -/
theorem fingerprintBytes_eq_iff {d d' : Domain} {i i' : Instance} {m m' : Model}
    (h : Model.ground d i = .ok m) (h' : Model.ground d' i' = .ok m') :
    (fingerprintBytes d i = fingerprintBytes d' i' ↔
      d.blurred = d'.blurred ∧ i.blurred = i'.blurred) ∧
      (d.IsPortable → i.IsPortable → d'.IsPortable → i'.IsPortable →
        fingerprintBytes d i = fingerprintBytes d' i' → d = d' ∧ i = i' ∧ m = m') := by
  have hbytes : fingerprintBytes d i = fingerprintBytes d' i' ↔
      d.blurred = d'.blurred ∧ i.blurred = i'.blurred :=
    fingerprintBytes_inj (Domain.isNamed_of_validate (grounded_of_ground h).domainValid)
      (Domain.isNamed_of_validate (grounded_of_ground h').domainValid)
  refine ⟨hbytes, ?_⟩
  intro hd hi hd' hi' heq
  obtain ⟨hdomain, hinstance⟩ := hbytes.mp heq
  rw [Domain.blurred_eq_self hd, Domain.blurred_eq_self hd'] at hdomain
  rw [Instance.blurred_eq_self hi, Instance.blurred_eq_self hi'] at hinstance
  subst hdomain hinstance
  rw [h] at h'
  exact ⟨rfl, rfl, Except.ok.inj h'⟩

/-- The lamps do not share their bytes with a wage. -/
theorem fingerprintBytes_eq_iff_lamps :
    Model.ground Lamps.domain Lamps.house = .ok Lamps.model ∧
      Model.ground (Wage.domain 1.0) Wage.shift = .ok (Wage.model 1.0) ∧
      Lamps.domain.IsPortable ∧ Lamps.house.IsPortable ∧
      (Wage.domain 1.0).IsPortable ∧ Wage.shift.IsPortable ∧
      fingerprintBytes Lamps.domain Lamps.house ≠
        fingerprintBytes (Wage.domain 1.0) Wage.shift := by
  have hlamps : Lamps.domain.IsPortable := ⟨by decide +kernel, by decide +kernel⟩
  have hhouse : Lamps.house.IsPortable := ⟨by decide +kernel, by decide +kernel⟩
  have hwage : (Wage.domain 1.0).IsPortable := ⟨by decide +kernel, by decide +kernel⟩
  have hshift : Wage.shift.IsPortable := ⟨by decide +kernel, by decide +kernel⟩
  refine ⟨Lamps.ground_eq, Wage.ground_eq 1.0, hlamps, hhouse, hwage, hshift, ?_⟩
  intro heq
  obtain ⟨hdomain, -⟩ := (fingerprintBytes_eq_iff Lamps.ground_eq (Wage.ground_eq 1.0)).2
    hlamps hhouse hwage hshift heq
  have hname : "lamps" = "wage" := congrArg Domain.name hdomain
  exact absurd hname (by decide)

/-- Two domains that pay infinitely much and infinitely little ground to models
whose first steps differ, but share the bytes of their fingerprint. -/
theorem fingerprintBytes_collide :
    let much : Float := 1.0 / 0.0
    let little : Float := -1.0 / 0.0
    Model.ground (Wage.domain much) Wage.shift = .ok (Wage.model much) ∧
      Model.ground (Wage.domain little) Wage.shift = .ok (Wage.model little) ∧
      fingerprintBytes (Wage.domain much) Wage.shift =
        fingerprintBytes (Wage.domain little) Wage.shift ∧
      Wage.domain much ≠ Wage.domain little ∧
      ∃ e e' : Engine,
        Engine.create (Wage.model much) .standard = .ok e ∧
          Engine.create (Wage.model little) .standard = .ok e' ∧
          (e.step .noop).1 ≠ (e'.step .noop).1 := by
  intro much little
  have hbits : much ≠ little := by decide +kernel
  have hdomain : Wage.domain much ≠ Wage.domain little := by
    intro h
    have hreward : Expr.real much = Expr.real little := congrArg Domain.reward h
    exact hbits (Value.real.inj (Expr.const.inj hreward))
  have hbytes : fingerprintBytes (Wage.domain much) Wage.shift =
      fingerprintBytes (Wage.domain little) Wage.shift := by
    have hblurred : blurredReal much = blurredReal little := by decide +kernel
    have hnamed : ∀ x, ∀ e ∈ (Wage.domain x).exprs, e.IsNamed := fun x =>
      Domain.isNamed_of_validate (Wage.grounded x).domainValid
    rw [fingerprintBytes_inj (hnamed much) (hnamed little)]
    simp only [Domain.blurred, Wage.domain, Expr.real, Expr.blurred, Value.blurred, hblurred,
      and_self]
  refine ⟨Wage.ground_eq much, Wage.ground_eq little, hbytes, hdomain, ?_⟩
  have hpays : ∀ x, ∃ e, Engine.create (Wage.model x) .standard = .ok e ∧
      (e.step .noop).1.toOption.map (·.reward) = some x :=
    fun x => ⟨_, rfl, rfl⟩
  obtain ⟨e, he, hmuch⟩ := hpays much
  obtain ⟨e', he', hlittle⟩ := hpays little
  refine ⟨e, e', he, he', ?_⟩
  intro hstep
  rw [hstep, hlittle] at hmuch
  exact hbits (Option.some.inj hmuch).symm

end Model

end LiftedPomdp
