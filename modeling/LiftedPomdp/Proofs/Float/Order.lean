import LiftedPomdp.Proofs.Float.Finite

/-!
# Doubles as numbers

A finite double stands for a rational number, and finite doubles compare as
their numbers do: where exponents differ the greater one belongs to a normal
number, which exceeds all numbers of smaller exponents.
-/

namespace LiftedPomdp
namespace Binary64

open Float.Model Float.Model.UnpackedFloat

/-- The number that the parts of a finite double stand for. -/
def numberOf : UnpackedFloat → ℚ
  | .finite s m q _ => s.apply m * 2 ^ q
  | _ => 0

/-- The number that a finite double stands for. -/
def value (x : Float) : ℚ :=
  numberOf x.toModel.unpack

/-- The parts are those of a finite double. -/
def Regular : UnpackedFloat → Prop
  | .zero _ => True
  | .finite _ m q _ => Canonical m q
  | _ => False

theorem regular_unpack {x : Float} (h : x.isFinite = true) : Regular x.toModel.unpack := by
  change x.toModel.unpack.isFinite = true at h
  cases hunpack : x.toModel.unpack with
  | notANumber => simp [hunpack, UnpackedFloat.isFinite] at h
  | infinity s => simp [hunpack, UnpackedFloat.isFinite] at h
  | zero s => exact trivial
  | finite s m q hm => exact (eq_ofParts_finite hunpack).1

theorem unpack_ofParts_of_regular {u : UnpackedFloat} (h : Regular u) :
    (ofParts u).toModel.unpack = u := by
  cases u with
  | notANumber => exact h.elim
  | infinity s => exact h.elim
  | zero s => cases s <;> rfl
  | finite s m q hm => exact unpack_ofParts h

theorem isFinite_ofParts_of_regular {u : UnpackedFloat} (h : Regular u) :
    (ofParts u).isFinite = true := by
  change (ofParts u).toModel.unpack.isFinite = true
  rw [unpack_ofParts_of_regular h]
  cases u with
  | notANumber => exact h.elim
  | infinity s => exact h.elim
  | zero s => rfl
  | finite s m q hm => rfl

theorem IsExact.isFinite {x : Float} {v : ℚ} (h : IsExact x v) : x.isFinite = true := by
  obtain ⟨m, q, hcanonical, _, rfl, _⟩ := h
  exact isFinite_ofParts_of_regular (u := .finite .positive m q hcanonical.pos) hcanonical

/-! ## Comparison -/

section Compare

variable {m₁ m₂ : Nat} {q₁ q₂ : Int}

theorem magnitude_pos {m : Nat} {q : Int} (h : Canonical m q) : (0 : ℚ) < m * 2 ^ q := by
  have hm : (0 : ℚ) < m := by exact_mod_cast h.pos
  positivity

/-- A number of a greater exponent is greater. -/
theorem magnitude_lt (h₁ : Canonical m₁ q₁) (h₂ : Canonical m₂ q₂) (hq : q₁ < q₂) :
    (m₁ : ℚ) * 2 ^ q₁ < m₂ * 2 ^ q₂ := by
  have hlow : (m₁ : ℚ) < 2 ^ 53 := by exact_mod_cast h₁.lt
  have hhigh : (2 : ℚ) ^ 52 ≤ m₂ := by
    have hleast := h₁.least
    exact_mod_cast h₂.normal.resolve_right (by omega)
  calc (m₁ : ℚ) * 2 ^ q₁ < 2 ^ 53 * 2 ^ q₁ := mul_lt_mul_of_pos_right hlow (by positivity)
    _ = 2 ^ 52 * 2 ^ (q₁ + 1) := by
      rw [zpow_add_one₀ two_ne_zero]
      ring
    _ ≤ 2 ^ 52 * 2 ^ q₂ := by
      apply mul_le_mul_of_nonneg_left _ (by positivity)
      exact zpow_le_zpow_right₀ one_le_two (by omega)
    _ ≤ m₂ * 2 ^ q₂ := mul_le_mul_of_nonneg_right hhigh (by positivity)

theorem compare_magnitude (h₁ : Canonical m₁ q₁) (h₂ : Canonical m₂ q₂) :
    (compare q₁ q₂).then (compare m₁ m₂) = compare ((m₁ : ℚ) * 2 ^ q₁) (m₂ * 2 ^ q₂) := by
  rcases lt_trichotomy q₁ q₂ with hq | rfl | hq
  · rw [compare_lt_iff_lt.mpr hq, compare_lt_iff_lt.mpr (magnitude_lt h₁ h₂ hq)]
    rfl
  · have hpow : (0 : ℚ) < 2 ^ q₁ := by positivity
    rw [compare_eq_iff_eq.mpr rfl, Ordering.then]
    rcases lt_trichotomy m₁ m₂ with hm | rfl | hm
    · have hm' : (m₁ : ℚ) < m₂ := by exact_mod_cast hm
      rw [compare_lt_iff_lt.mpr hm, compare_lt_iff_lt.mpr (mul_lt_mul_of_pos_right hm' hpow)]
    · rw [compare_eq_iff_eq.mpr rfl, compare_eq_iff_eq.mpr rfl]
    · have hm' : (m₂ : ℚ) < m₁ := by exact_mod_cast hm
      rw [compare_gt_iff_gt.mpr hm, compare_gt_iff_gt.mpr (mul_lt_mul_of_pos_right hm' hpow)]
  · rw [compare_gt_iff_gt.mpr hq, compare_gt_iff_gt.mpr (magnitude_lt h₂ h₁ hq)]
    rfl

end Compare

theorem numberOf_positive {m : Nat} {q : Int} {hm : 0 < m} :
    numberOf (.finite .positive m q hm) = m * 2 ^ q := by
  simp [numberOf, Sign.apply]

theorem numberOf_negative {m : Nat} {q : Int} {hm : 0 < m} :
    numberOf (.finite .negative m q hm) = -(m * 2 ^ q) := by
  simp [numberOf, Sign.apply]

theorem numberOf_zero {s : Sign} : numberOf (.zero s) = 0 := rfl

theorem IsExact.value_eq {x : Float} {v : ℚ} (h : IsExact x v) : value x = v := by
  obtain ⟨m, q, hcanonical, _, rfl, hv⟩ := h
  rw [value, unpack_ofParts hcanonical, numberOf_positive, hv]

theorem compare_neg_neg (a b : ℚ) : compare (-a) (-b) = (compare a b).swap := by
  rcases lt_trichotomy a b with h | rfl | h
  · rw [compare_lt_iff_lt.mpr h, compare_gt_iff_gt.mpr (neg_lt_neg h)]
    rfl
  · rw [compare_eq_iff_eq.mpr rfl, compare_eq_iff_eq.mpr rfl]
    rfl
  · rw [compare_gt_iff_gt.mpr h, compare_lt_iff_lt.mpr (neg_lt_neg h)]
    rfl

section Parts

variable {u v : UnpackedFloat} {s : Sign} {m : Nat} {q : Int} {hm : 0 < m}

theorem compare_zero_eq (hv : Regular v) :
    (UnpackedFloat.zero s).compare v = some (compare 0 (numberOf v)) := by
  cases v with
  | notANumber => exact hv.elim
  | infinity s' => exact hv.elim
  | zero s' =>
      rw [numberOf_zero, compare_eq_iff_eq.mpr rfl]
      rfl
  | finite s' m q hm =>
      have hpos := magnitude_pos hv
      cases s' with
      | positive =>
          rw [numberOf_positive, compare_lt_iff_lt.mpr hpos]
          rfl
      | negative =>
          rw [numberOf_negative, compare_gt_iff_gt.mpr (neg_lt_zero.mpr hpos)]
          rfl

theorem compare_finite_zero (hu : Canonical m q) {s' : Sign} :
    (UnpackedFloat.finite s m q hm).compare (.zero s') =
      some (compare (numberOf (.finite s m q hm)) 0) := by
  have hpos := magnitude_pos hu
  cases s with
  | positive =>
      rw [numberOf_positive, compare_gt_iff_gt.mpr hpos]
      rfl
  | negative =>
      rw [numberOf_negative, compare_lt_iff_lt.mpr (neg_lt_zero.mpr hpos)]
      rfl

theorem compare_finite_finite (hu : Canonical m q) {s' : Sign} {m' : Nat} {q' : Int}
    {hm' : 0 < m'} (hv : Canonical m' q') :
    (UnpackedFloat.finite s m q hm).compare (.finite s' m' q' hm') =
      some (compare (numberOf (.finite s m q hm)) (numberOf (.finite s' m' q' hm'))) := by
  have hpos := magnitude_pos hu
  have hpos' := magnitude_pos hv
  cases s with
  | positive =>
      cases s' with
      | positive =>
          rw [numberOf_positive, numberOf_positive, ← compare_magnitude hu hv]
          rfl
      | negative =>
          rw [numberOf_positive, numberOf_negative, compare_gt_iff_gt.mpr (by linarith)]
          rfl
  | negative =>
      cases s' with
      | positive =>
          rw [numberOf_negative, numberOf_positive, compare_lt_iff_lt.mpr (by linarith)]
          rfl
      | negative =>
          rw [numberOf_negative, numberOf_negative, compare_neg_neg, ← compare_magnitude hu hv]
          rfl

/-- The parts of finite doubles compare as their numbers do. -/
theorem compare_eq (hu : Regular u) (hv : Regular v) :
    u.compare v = some (compare (numberOf u) (numberOf v)) := by
  cases u with
  | notANumber => exact hu.elim
  | infinity s => exact hu.elim
  | zero s => exact compare_zero_eq hv
  | finite s m q hm =>
      cases v with
      | notANumber => exact hv.elim
      | infinity s' => exact hv.elim
      | zero s' => exact compare_finite_zero hu
      | finite s' m' q' hm' => exact compare_finite_finite hu hv

end Parts

section Doubles

variable {x y : Float} (hx : x.isFinite = true) (hy : y.isFinite = true)
include hx hy

theorem lt_iff : x < y ↔ value x < value y := by
  have hunpack : x < y ↔ (x.toModel.unpack.compare y.toModel.unpack == some .lt) = true :=
    decide_eq_true_iff
  rw [hunpack, compare_eq (regular_unpack hx) (regular_unpack hy), beq_iff_eq, Option.some.injEq,
    compare_lt_iff_lt]
  rfl

theorem le_iff : x ≤ y ↔ value x ≤ value y := by
  have hunpack : x ≤ y ↔ (x.toModel.unpack.compare y.toModel.unpack).any (·.isLE) = true :=
    decide_eq_true_iff
  rw [hunpack, compare_eq (regular_unpack hx) (regular_unpack hy), Option.any_some,
    Ordering.isLE_iff_ne_gt, ← ne_eq, compare_le_iff_le]
  rfl

theorem beq_iff : (x == y) = true ↔ value x = value y := by
  change (x.toModel.unpack.compare y.toModel.unpack == some .eq) = true ↔ _
  rw [compare_eq (regular_unpack hx) (regular_unpack hy), beq_iff_eq, Option.some.injEq,
    compare_eq_iff_eq]
  rfl

end Doubles

/-! ## The numbers that are doubles -/

/-- A number is a double. -/
def IsDouble (w : ℚ) : Prop :=
  w = 0 ∨ ∃ m q, Canonical m q ∧ |w| = m * 2 ^ q

theorem isDouble_numberOf {u : UnpackedFloat} (h : Regular u) : IsDouble (numberOf u) := by
  cases u with
  | notANumber => exact h.elim
  | infinity s => exact h.elim
  | zero s => exact .inl rfl
  | finite s m q hm =>
      have hpos := magnitude_pos h
      refine .inr ⟨m, q, h, ?_⟩
      cases s with
      | positive => rw [numberOf_positive, abs_of_pos hpos]
      | negative => rw [numberOf_negative, abs_neg, abs_of_pos hpos]

theorem IsDouble.neg {w : ℚ} (h : IsDouble w) : IsDouble (-w) := by
  rcases h with rfl | ⟨m, q, hcanonical, hw⟩
  · exact .inl neg_zero
  · exact .inr ⟨m, q, hcanonical, by rw [abs_neg, hw]⟩

theorem IsDouble.abs_lt {w : ℚ} (h : IsDouble w) : |w| < 2 ^ 1024 := by
  rcases h with rfl | ⟨m, q, hcanonical, hw⟩
  · norm_num
  · have hm : (m : ℚ) < 2 ^ 53 := by exact_mod_cast hcanonical.lt
    have hq := hcanonical.greatest
    calc |w| = m * 2 ^ q := hw
      _ < 2 ^ 53 * 2 ^ q := mul_lt_mul_of_pos_right hm (by positivity)
      _ ≤ 2 ^ 53 * 2 ^ (971 : Int) := by
        apply mul_le_mul_of_nonneg_left _ (by positivity)
        exact zpow_le_zpow_right₀ one_le_two hq
      _ = 2 ^ 1024 := by
        rw [show (971 : Int) = (971 : Nat) from rfl, zpow_natCast, ← pow_add]

end Binary64
end LiftedPomdp
