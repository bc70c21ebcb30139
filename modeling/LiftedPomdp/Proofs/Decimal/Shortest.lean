import LiftedPomdp.Decimal.Shortest
import LiftedPomdp.Proofs.Float.Rounding

/-!
# The shortest decimal rounds to its double

The decimal that is written for a double lies within the rounding interval of that
double, whatever decides between two decimals that are equally near.
-/

namespace LiftedPomdp
namespace Decimal

open Binary64

/-- The number that a decimal denotes. -/
def value (d : Decimal) : ℚ :=
  d.significand * 10 ^ d.exponent

/-- The unit of a double in steps, and the step, make up the power of two. -/
theorem unit_mul (q : Int) : (unit q : ℚ) * 10 ^ min q 0 = 2 ^ q := by
  unfold unit
  split_ifs with h
  · rw [min_eq_right h, zpow_zero, mul_one, ← Int.toNat_of_nonneg h, zpow_natCast,
      Int.toNat_natCast]
    exact_mod_cast rfl
  · obtain ⟨k, rfl⟩ : ∃ k : Nat, q = -k := ⟨(-q).toNat, by omega⟩
    rw [min_eq_left (by omega), neg_neg, Int.toNat_natCast, zpow_neg, zpow_neg, zpow_natCast,
      zpow_natCast]
    have hten : (10 : ℚ) ^ k = 2 ^ k * 5 ^ k := by
      rw [← mul_pow]
      norm_num
    rw [hten, show Nat.pow 5 k = 5 ^ k from rfl]
    push_cast
    field_simp

namespace Neighbourhood

variable {m : Nat} {q : Int}

/-- The neighbourhood of a double is its rounding interval. -/
theorem contains_of_iff (hm : 0 < m) (c : Nat) :
    (Neighbourhood.of m q).contains c = true ↔ RoundsTo m q (c * 10 ^ min q 0) := by
  have hstep : (0 : ℚ) < 10 ^ min q 0 := by positivity
  have hbelow : (if m = 2 ^ 52 ∧ -1074 < q then 1 / 4 else 1 / 2 : ℚ) =
      ((Neighbourhood.of m q).below : ℚ) / 4 := by
    unfold Neighbourhood.of leadingSignificand leastExponent
    norm_num only
    split_ifs <;> norm_num
  have hle : (Neighbourhood.of m q).below ≤ 4 * m := by
    unfold Neighbourhood.of
    simp only
    split_ifs <;> omega
  -- both sides of the comparisons are measured in quarters of a step
  have hscale_le : ∀ a b : Nat, (a / 4 * 10 ^ min q 0 : ℚ) ≤ b / 4 * 10 ^ min q 0 ↔ a ≤ b := by
    intro a b
    rw [mul_le_mul_iff_left₀ hstep, div_le_div_iff_of_pos_right four_pos, Nat.cast_le]
  have hscale_lt : ∀ a b : Nat, (a / 4 * 10 ^ min q 0 : ℚ) < b / 4 * 10 ^ min q 0 ↔ a < b := by
    intro a b
    rw [mul_lt_mul_iff_left₀ hstep, div_lt_div_iff_of_pos_right four_pos, Nat.cast_lt]
  have hlow : ((m : ℚ) - (Neighbourhood.of m q).below / 4) * 2 ^ q =
      ((4 * m - (Neighbourhood.of m q).below) * Decimal.unit q : Nat) / 4 * 10 ^ min q 0 := by
    rw [← unit_mul, Nat.cast_mul, Nat.cast_sub hle]
    push_cast
    ring
  have hhigh : ((m : ℚ) + 1 / 2) * 2 ^ q =
      ((4 * m + 2) * Decimal.unit q : Nat) / 4 * 10 ^ min q 0 := by
    rw [← unit_mul]
    push_cast
    ring
  have hcentre : (c : ℚ) * 10 ^ min q 0 = (4 * c : Nat) / 4 * 10 ^ min q 0 := by
    push_cast
    ring
  unfold RoundsTo contains
  simp only [hbelow, hlow, hhigh, hcentre, hscale_le, hscale_lt]
  change (if m % 2 = 0 then _ else _) = true ↔ _
  split_ifs
  · rw [Bool.and_eq_true, decide_eq_true_eq, decide_eq_true_eq]
    rfl
  · rw [Bool.and_eq_true, decide_eq_true_eq, decide_eq_true_eq]
    rfl

theorem contains_steps (hm : 0 < m) :
    (Neighbourhood.of m q).contains (Neighbourhood.of m q).steps = true := by
  rw [contains_of_iff hm, steps, Neighbourhood.of, Nat.cast_mul, mul_assoc, unit_mul]
  exact roundsTo_self m q

theorem contains_of_onGrid? {b : Neighbourhood} {tie : Tie} {r c : Nat}
    (h : b.onGrid? tie r = some c) : b.contains (c * 10 ^ r) = true := by
  unfold onGrid? at h
  simp only at h
  cases hlower : b.contains (b.steps / Nat.pow 10 r * Nat.pow 10 r) <;>
    cases hupper : b.contains ((b.steps / Nat.pow 10 r + 1) * Nat.pow 10 r) <;>
    simp only [hlower, hupper] at h
  · cases h
  · cases h
    exact hupper
  · cases h
    exact hlower
  · split_ifs at h
    · cases h
      exact hlower
    · cases h
      exact hupper

theorem contains_coarsest {b : Neighbourhood} (hb : b.contains b.steps = true) (tie : Tie)
    (r : Nat) : b.contains ((b.coarsest tie r).1 * 10 ^ (b.coarsest tie r).2) = true := by
  induction r with
  | zero =>
      rw [coarsest, pow_zero, mul_one]
      cases hgrid : b.onGrid? tie 0 with
      | none => exact hb
      | some c => simpa using contains_of_onGrid? hgrid
  | succ r ih =>
      rw [coarsest]
      cases hgrid : b.onGrid? tie (r + 1) with
      | none => exact ih
      | some c => exact contains_of_onGrid? hgrid

end Neighbourhood

/-- The shortest decimal of a double rounds to it. -/
theorem roundsTo_shortest (tie : Tie) {m : Nat} {q : Int} (hm : 0 < m) :
    RoundsTo m q (shortest tie m q).value := by
  have hcontains :=
    Neighbourhood.contains_coarsest (Neighbourhood.contains_steps (q := q) hm) tie
      (length (Neighbourhood.of m q).steps)
  rw [Neighbourhood.contains_of_iff hm] at hcontains
  unfold shortest value
  rw [zpow_add₀ (by norm_num), zpow_natCast, ← mul_assoc]
  exact_mod_cast hcontains

end Decimal
end LiftedPomdp
