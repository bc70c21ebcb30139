import LiftedPomdp.Decimal.Layout
import LiftedPomdp.Proofs.Decimal.Reading
import LiftedPomdp.Proofs.Decimal.Shortest
import LiftedPomdp.Proofs.Json.Numeral

/-!
# Real numbers read back

A finite real is written as a numeral with a fraction or a power of ten.  The
numeral denotes the shortest decimal of the real, which rounds to it, so that a
reader that rounds once reads it back bit by bit, zeros with their signs included.
-/

namespace LiftedPomdp
namespace Json

open Decimal Binary64 Float.Model.UnpackedFloat

/-! ## Decimals as numerals -/

/-- A numeral spells a decimal: it has a fraction or a power, and its digits with
its power denote the same number. -/
structure Spells (whole fraction : List Char) (power : Option Int) (d : Decimal) : Prop where
  isWhole : IsWhole whole
  digits : ∀ c ∈ fraction, isDigit c = true
  isReal : fraction ≠ [] ∨ power ≠ none
  value : value ⟨ofDigits (whole ++ fraction), power.getD 0 - fraction.length⟩ = d.value

theorem fractionChars_of_ne_nil {cs : List Char} (h : cs ≠ []) : fractionChars cs = '.' :: cs := by
  cases cs with
  | nil => exact absurd rfl h
  | cons c cs => rfl

theorem isDigit_zeros (n : Nat) : ∀ c ∈ List.replicate n '0', isDigit c = true := by
  intro c hc
  rw [List.eq_of_mem_replicate hc]
  rfl

theorem isWhole_zero : IsWhole ['0'] where
  digits := isDigit_zeros 1
  ne_nil := List.cons_ne_nil _ _
  leading := .inl rfl

/-- Zeros at the end are made up for by the power. -/
theorem value_eq {n c z : Nat} {k e : Int} (hn : n = c * 10 ^ z) (hk : k + z = e) :
    Decimal.value ⟨n, k⟩ = Decimal.value ⟨c, e⟩ := by
  unfold Decimal.value
  rw [hn, ← hk, add_comm, zpow_add₀ (by norm_num), zpow_natCast]
  push_cast
  ring

section Digits

variable {ds : List Char} {c : Nat} {e k : Int} (hdigits : ∀ c ∈ ds, isDigit c = true)
  (hne : ds ≠ []) (hhead : ds.head? ≠ some '0') (hvalue : ofDigits ds = c)
  (hk : k = e + ds.length - 1)
include hdigits hne hhead hvalue hk

/-- Digits written positionally spell the number that they denote at their power. -/
theorem exists_positionalChars_eq :
    ∃ whole fraction,
      Layout.data.positionalChars ds k = numeralChars false whole fraction none ∧
        Spells whole fraction none ⟨c, e⟩ := by
  have hlength : 0 < ds.length := List.length_pos_iff.mpr hne
  unfold Layout.positionalChars
  by_cases hbelow : k < 0
  · -- zeros between the point and the digits
    have hfraction : List.replicate ((-k).toNat - 1) '0' ++ ds ≠ [] := by simp [hne]
    refine ⟨['0'], List.replicate ((-k).toNat - 1) '0' ++ ds, ?_, ?_⟩
    · rw [if_pos hbelow, numeralChars, fractionChars_of_ne_nil hfraction, powerChars,
        List.append_nil]
      rfl
    · refine ⟨isWhole_zero, ?_, .inl hfraction, value_eq (z := 0) ?_ ?_⟩
      · exact List.forall_mem_append.mpr ⟨isDigit_zeros _, hdigits⟩
      · rw [ofDigits_append, ofDigits_append, ofDigits_zeros, hvalue]
        simp [ofDigits, digitValue]
      · rw [Option.getD_none, List.length_append, List.length_replicate]
        omega
  · rw [if_neg hbelow]
    simp only
    by_cases hshort : ds.length ≤ k.toNat + 1
    · -- zeros between the digits and the point
      refine ⟨ds ++ List.replicate (k.toNat + 1 - ds.length) '0', ['0'], ?_, ?_⟩
      · rw [if_pos hshort, numeralChars, powerChars, List.append_nil]
        rfl
      · have hhead' : (ds ++ List.replicate (k.toNat + 1 - ds.length) '0').head? ≠ some '0' := by
          rwa [List.head?_append_of_ne_nil _ hne]
        refine ⟨⟨?_, List.append_ne_nil_of_left_ne_nil hne _, .inr hhead'⟩, isDigit_zeros 1,
          .inl (List.cons_ne_nil _ _), value_eq (z := k.toNat + 1 - ds.length + 1) ?_ ?_⟩
        · exact List.forall_mem_append.mpr ⟨hdigits, isDigit_zeros _⟩
        · rw [ofDigits_append, ofDigits_append, ofDigits_zeros, hvalue, List.length_replicate,
            pow_succ, ← mul_assoc]
          rfl
        · rw [Option.getD_none, List.length_singleton]
          omega
    · rw [if_neg hshort]
      have hfraction : ds.drop (k.toNat + 1) ≠ [] := by
        rw [ne_eq, List.drop_eq_nil_iff]
        exact hshort
      have hhead' : (ds.take (k.toNat + 1)).head? ≠ some '0' := by
        rwa [List.head?_take, if_neg (by omega)]
      refine ⟨ds.take (k.toNat + 1), ds.drop (k.toNat + 1), ?_, ?_⟩
      · rw [numeralChars, fractionChars_of_ne_nil hfraction, powerChars, List.append_nil]
        rfl
      · refine ⟨⟨?_, by simp [hne], .inr hhead'⟩, ?_, .inl hfraction, value_eq (z := 0) ?_ ?_⟩
        · exact fun c hc => hdigits c (List.mem_of_mem_take hc)
        · exact fun c hc => hdigits c (List.mem_of_mem_drop hc)
        · rw [List.take_append_drop, hvalue, pow_zero, mul_one]
        · rw [Option.getD_none, List.length_drop]
          omega

/-- Digits written with an exponent spell the number that they denote at their
power. -/
theorem exists_scientificChars_eq :
    ∃ whole fraction,
      Layout.scientificChars ds k = numeralChars false whole fraction (some k) ∧
        Spells whole fraction (some k) ⟨c, e⟩ := by
  have hlength : 0 < ds.length := List.length_pos_iff.mpr hne
  have hhead' : (ds.take 1).head? ≠ some '0' := by rwa [List.head?_take, if_neg one_ne_zero]
  refine ⟨ds.take 1, ds.drop 1, ?_, ?_⟩
  · unfold Layout.scientificChars numeralChars
    by_cases hone : ds.drop 1 = []
    · have htake : ds.take 1 = ds := List.take_of_length_le (List.drop_eq_nil_iff.mp hone)
      simp only [hone, htake]
      rfl
    · simp only [fractionChars_of_ne_nil hone, List.isEmpty_iff, hone]
      exact List.append_assoc _ _ _
  · refine ⟨⟨?_, by simp [hne], .inr hhead'⟩, ?_, .inr (Option.some_ne_none k),
      value_eq (z := 0) ?_ ?_⟩
    · exact fun c hc => hdigits c (List.mem_of_mem_take hc)
    · exact fun c hc => hdigits c (List.mem_of_mem_drop hc)
    · rw [List.take_append_drop, hvalue, pow_zero, mul_one]
    · rw [Option.getD_some, List.length_drop]
      omega

end Digits

/-- A decimal is written as a numeral that spells it. -/
theorem exists_decimalChars_eq {d : Decimal} (h : d.significand ≠ 0) :
    ∃ whole fraction power,
      Layout.data.decimalChars d = numeralChars false whole fraction power ∧
        Spells whole fraction power d := by
  have hdigits : ∀ c ∈ digits d.significand, isDigit c = true := fun _ => isDigit_of_mem_digits
  unfold Layout.decimalChars
  simp only
  split_ifs
  · obtain ⟨whole, fraction, htext, hspells⟩ := exists_positionalChars_eq hdigits
      (digits_ne_nil _) (head?_digits h) (ofDigits_digits _) rfl
    exact ⟨whole, fraction, none, htext, hspells⟩
  · obtain ⟨whole, fraction, htext, hspells⟩ := exists_scientificChars_eq hdigits
      (digits_ne_nil _) (head?_digits h) (ofDigits_digits _) rfl
    exact ⟨whole, fraction, some _, htext, hspells⟩

/-- A numeral that spells a decimal denotes the real number that its parts are read
as. -/
theorem Spells.numeral?_eq {whole fraction : List Char} {power : Option Int} {d : Decimal}
    (h : Spells whole fraction power d) (r : Reader) (negative : Bool) :
    numeral? r (numeralChars negative whole fraction power) =
      some (realNumeral r negative whole fraction (power.getD 0)) := by
  rw [numeral?_numeralChars r h.isWhole h.digits, if_neg]
  rintro ⟨hfraction, hpower, -⟩
  exact h.isReal.elim (· hfraction) (· hpower)

/-- A numeral denotes the same real to another reader where that reads its parts alike. -/
theorem numeral?_numeralChars_of_read? {r r' : Reader} {negative : Bool}
    {whole fraction : List Char} {power : Option Int} {x : Float} (hwhole : IsWhole whole)
    (hfraction : ∀ c ∈ fraction, isDigit c = true)
    (hread : ∀ y, r.read? whole fraction (power.getD 0) = some y →
      r'.read? whole fraction (power.getD 0) = some y)
    (h : numeral? r (numeralChars negative whole fraction power) = some (.real x)) :
    numeral? r' (numeralChars negative whole fraction power) = some (.real x) := by
  rw [numeral?_numeralChars _ hwhole hfraction] at h ⊢
  split_ifs at h ⊢ with hint hnegative
  · cases h
  · cases h
  · cases hy : r.read? whole fraction (power.getD 0) with
    | none => simp [realNumeral, hy] at h
    | some y =>
        simp only [realNumeral, hy] at h
        simp only [realNumeral, hread y hy]
        exact h

/-! ## Real numbers -/

theorem signed_numeralChars (s : Sign) (whole fraction : List Char) (power : Option Int) :
    Layout.signed s (numeralChars false whole fraction power) =
      numeralChars (s == .negative) whole fraction power := by
  cases s <;> rfl

theorem ofParts_finite_of_sign {n : Nat} {q : Int} (h : Canonical n q) (s : Sign) :
    (if (s == .negative) = true then -ofParts (.finite .positive n q h.pos)
      else ofParts (.finite .positive n q h.pos)) = ofParts (.finite s n q h.pos) := by
  cases s with
  | positive => rfl
  | negative => exact neg_ofParts h

theorem ofParts_zero_of_sign (s : Sign) :
    (if (s == .negative) = true then -0.0 else 0.0) = ofParts (.zero s) := by
  cases s <;> decide

/-- A finite real is written as a numeral that denotes it, if numbers are rounded once. -/
theorem realChars_spec {x : Float} (h : x.isFinite) :
    ∃ negative whole fraction power,
      Layout.data.realChars x = numeralChars negative whole fraction power ∧ IsWhole whole ∧
        (∀ c ∈ fraction, isDigit c = true) ∧ (fraction ≠ [] ∨ power ≠ none) ∧
        numeral? .nearest (numeralChars negative whole fraction power) = some (.real x) := by
  change x.toModel.unpack.isFinite = true at h
  unfold Layout.realChars
  cases hunpack : x.toModel.unpack with
  | notANumber => simp [hunpack, isFinite] at h
  | infinity s => simp [hunpack, isFinite] at h
  | zero s =>
      have hspells : Spells ['0'] ['0'] none ⟨0, -1⟩ :=
        ⟨isWhole_zero, isDigit_zeros 1, .inl (List.cons_ne_nil _ _), value_eq (z := 0) rfl rfl⟩
      refine ⟨s == .negative, ['0'], ['0'], none, signed_numeralChars s ['0'] ['0'] none,
        isWhole_zero, isDigit_zeros 1, hspells.isReal, ?_⟩
      rw [hspells.numeral?_eq, realNumeral, Reader.nearest_read?_of_eq_zero rfl]
      simp only [ofParts_zero_of_sign, eq_ofParts_zero hunpack]
  | finite s m q hm =>
      obtain ⟨hcanonical, hx⟩ := eq_ofParts_finite hunpack
      have hrounds := roundsTo_shortest Layout.data.tie (q := q) hm
      obtain ⟨whole, fraction, power, htext, hspells⟩ :=
        exists_decimalChars_eq (ne_zero_of_roundsTo hcanonical hrounds)
      refine ⟨s == .negative, whole, fraction, power, ?_, hspells.isWhole, hspells.digits,
        hspells.isReal, ?_⟩
      · rw [← signed_numeralChars, ← htext]
      · rw [← hspells.value] at hrounds
        rw [hspells.numeral?_eq, realNumeral, Reader.nearest_read?_eq hcanonical hrounds]
        rw [hx, ← ofParts_finite_of_sign hcanonical s]

/-- A finite real is written as a numeral. -/
theorem exists_numeralChars_eq {x : Float} (h : x.isFinite) :
    ∃ negative whole fraction power,
      Layout.data.realChars x = numeralChars negative whole fraction power ∧ IsWhole whole ∧
        ∀ c ∈ fraction, isDigit c = true := by
  obtain ⟨negative, whole, fraction, power, htext, hwhole, hfraction, -, -⟩ := realChars_spec h
  exact ⟨negative, whole, fraction, power, htext, hwhole, hfraction⟩

theorem realChars_of_not_isFinite {x : Float} (h : x.isFinite ≠ true) :
    Layout.data.realChars x = ['n', 'u', 'l', 'l'] := by
  change x.toModel.unpack.isFinite ≠ true at h
  unfold Layout.realChars
  cases hunpack : x.toModel.unpack with
  | notANumber => rfl
  | infinity s => cases s <;> rfl
  | zero s => exact absurd (by rw [hunpack]; rfl) h
  | finite s m q hm => exact absurd (by rw [hunpack]; rfl) h

end Json

namespace Decimal.Reader

/-- Whether a real is read back from its text. -/
def ReadsBack (r : Reader) (x : Float) : Prop :=
  Json.numeral? r (Layout.data.realChars x) = some (.real x)

instance (r : Reader) (x : Float) : Decidable (r.ReadsBack x) :=
  match h : Json.numeral? r (Layout.data.realChars x) with
  | some (.real y) => decidable_of_iff (y = x) (by simp [ReadsBack, h])
  | some .null | some (.bool _) | some (.int _) | some (.str _) | some (.arr _) | some (.obj _)
  | some .garbled | none => .isFalse (by simp [ReadsBack, h])

/-- What is not finite is written as a word and not read back. -/
theorem ReadsBack.isFinite {r : Reader} {x : Float} (h : r.ReadsBack x) : x.isFinite = true := by
  by_contra hx
  rw [ReadsBack, Json.realChars_of_not_isFinite hx] at h
  cases h

/-- Every finite real is read back if numbers are rounded once. -/
@[simp]
theorem readsBack_nearest {x : Float} : nearest.ReadsBack x ↔ x.isFinite = true := by
  refine ⟨ReadsBack.isFinite, fun h => ?_⟩
  obtain ⟨negative, whole, fraction, power, htext, -, -, -, hread⟩ := Json.realChars_spec h
  rw [ReadsBack, htext, hread]

/-- The text of a finite real that has few digits and no power is read back by scaling
as well. -/
theorem readsBack_scaling_of_length {x : Float} (h : x.isFinite)
    (hlength : (Layout.data.realChars x).length ≤ 16) (hpower : 'e' ∉ Layout.data.realChars x) :
    scaling.ReadsBack x := by
  obtain ⟨negative, whole, fraction, power, htext, hwhole, hfraction, hreal, hread⟩ :=
    Json.realChars_spec h
  rw [ReadsBack]
  rw [htext] at hlength hpower ⊢
  obtain rfl : power = none := by
    cases power with
    | none => rfl
    | some k => simp [Json.numeralChars, Json.powerChars] at hpower
  have hdigits : whole.length + fraction.length ≤ 15 := by
    rw [Json.numeralChars, Json.fractionChars_of_ne_nil (hreal.resolve_right (· rfl))] at hlength
    simp only [List.length_append, List.length_cons] at hlength
    omega
  have hlt : ofDigits (whole ++ fraction) < 2 ^ 53 :=
    calc ofDigits (whole ++ fraction) < 10 ^ (whole ++ fraction).length :=
        ofDigits_lt (List.forall_mem_append.mpr ⟨hwhole.digits, hfraction⟩)
      _ ≤ 10 ^ 15 := Nat.pow_le_pow_right (by decide) (by rwa [List.length_append])
      _ < 2 ^ 53 := by decide
  have hsmall : ((none : Option Int).getD 0 - fraction.length).natAbs ≤ 22 := by
    rw [Option.getD_none]
    omega
  exact Json.numeral?_numeralChars_of_read? hwhole hfraction
    (fun y hy => scaling_read?_of_nearest hy hlt hsmall) hread

/-- Scaling does not read every real back. -/
example : scaling.ReadsBack 0.9 ∧ ¬scaling.ReadsBack 1.0240000000000003e-7 := by
  decide +kernel

end Decimal.Reader
end LiftedPomdp
