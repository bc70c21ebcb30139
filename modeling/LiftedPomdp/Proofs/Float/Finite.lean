import LiftedPomdp.Proofs.Float.Scientific

/-!
# Finite doubles

What is computed from a decimal number is a double or an infinity, never something
that is not a number, and the doubles of the integers of 64 bits are finite.
-/

namespace LiftedPomdp
namespace Binary64

open Float.Model Float.Model.UnpackedFloat

/-! ## Packed numbers -/

section Packed

variable {s : Sign} {m : Nat} {q : Int} {hm : 0 < m}

theorem isFinite_unpack_packComponents {e : BitVec 11} {f : BitVec 52} (h : e ≠ 2047#11) :
    (UnpackedFloat.unpack .binary64 (packComponents .binary64 s e f)).isFinite = true := by
  rw [unpack_eq, exponentOf_packComponents, if_neg h]
  split_ifs <;> rfl

/-- A number whose exponent is not too great is packed to a finite double, whether or
not it is canonical. -/
theorem isFinite_ofParts (h : q ≤ 971) : (ofParts (.finite s m q hm)).isFinite = true := by
  change (UnpackedFloat.unpack .binary64
    (UnpackedFloat.pack .binary64 (.finite s m q hm))).isFinite = true
  unfold UnpackedFloat.pack
  simp only [biasedExponent_eq]
  rw [if_neg (show ¬2 ^ 11 ≤ (q + 1075).toNat + 1 by omega)]
  split_ifs
  · apply isFinite_unpack_packComponents
    intro heq
    have hnat := congrArg BitVec.toNat heq
    simp only [BitVec.toNat_ofNat] at hnat
    change (q + 1075).toNat % 2 ^ 11 = 2047 at hnat
    omega
  · exact isFinite_unpack_packComponents (by decide)

/-- A number whose exponent is too great is packed like an infinity. -/
theorem pack_of_lt (h : 971 < q) :
    UnpackedFloat.pack .binary64 (.finite s m q hm) =
      UnpackedFloat.pack .binary64 (.infinity s) := by
  unfold UnpackedFloat.pack
  simp only [biasedExponent_eq]
  rw [if_pos (show 2 ^ 11 ≤ (q + 1075).toNat + 1 by omega)]

theorem isFinite_ofParts_zero : (ofParts (.zero s)).isFinite = true := by
  cases s <;> rfl

/-- A number is packed to a finite double or to an infinity. -/
theorem isFinite_of_isInf_eq_false {u : UnpackedFloat} (hu : u ≠ .notANumber)
    (h : (ofParts u).isInf = false) : (ofParts u).isFinite = true := by
  cases u with
  | notANumber => exact absurd rfl hu
  | infinity s => cases s <;> cases h
  | zero s => exact isFinite_ofParts_zero
  | finite s m q hm =>
      by_cases hq : q ≤ 971
      · exact isFinite_ofParts hq
      · change (UnpackedFloat.unpack .binary64
          (UnpackedFloat.pack .binary64 (.finite s m q hm))).isInf = false at h
        rw [pack_of_lt (not_le.mp hq)] at h
        cases s <;> cases h

theorem isFinite_neg {x : Float} (h : x.isFinite = true) : (-x).isFinite = true := by
  have hneg : -x = ofParts x.toModel.unpack.neg := rfl
  change x.toModel.unpack.isFinite = true at h
  rw [hneg]
  cases hunpack : x.toModel.unpack with
  | notANumber => simp [hunpack, UnpackedFloat.isFinite] at h
  | infinity s => simp [hunpack, UnpackedFloat.isFinite] at h
  | zero s => exact isFinite_ofParts_zero
  | finite s m q hm => exact isFinite_ofParts (eq_ofParts_finite hunpack).1.greatest

end Packed

/-! ## Rounded numbers -/

section Rounded

theorem roundedMantissa_le (em : ExtendedMantissa) : em.roundedMantissa ≤ em.mantissa + 1 := by
  unfold ExtendedMantissa.roundedMantissa Accuracy.roundToNearestEven
  split <;> omega

variable {s : Sign} {m : Nat} {e : Int} {a : Accuracy} {y : ℚ}

theorem roundWithAccuracy_ne_nan :
    roundWithAccuracy .binary64 s m e a ≠ .notANumber := by
  unfold roundWithAccuracy
  simp only
  split_ifs <;> nofun

/-- The mantissa of a number after rounding, at the exponent that it is rounded
at. -/
def roundedAt (m : Nat) (e : Int) (a : Accuracy) : Nat :=
  (shiftToTargetExponent .binary64 m e a).1.roundedMantissa

section Located

variable (hlocates : Locates (.ofMantissaAndAccuracy m a) y) (hbits : e ≤ targetOf m e)
include hlocates hbits

theorem locates_shifted :
    Locates (shiftToTargetExponent .binary64 m e a).1 (y * 2 ^ e / 2 ^ targetOf m e) := by
  have hvalue : y * 2 ^ e / 2 ^ targetOf m e = y / 2 ^ (targetOf m e - e).toNat := by
    rw [← zpow_natCast, Int.toNat_of_nonneg (by omega), zpow_sub₀ two_ne_zero]
    field_simp
  rw [shiftToTargetExponent_eq, shiftToExponent_of_le hbits, hvalue]
  exact hlocates.shiftRight _

theorem roundedAt_bounds :
    (roundedAt m e a : ℚ) - 1 / 2 ≤ y * 2 ^ e / 2 ^ targetOf m e ∧
      y * 2 ^ e / 2 ^ targetOf m e ≤ roundedAt m e a + 1 / 2 :=
  (locates_shifted hlocates hbits).rounded_bounds

/-- What is left of the mantissa fits, so that rounding carries it to `2 ^ 53` at
most. -/
theorem roundedAt_le : roundedAt m e a ≤ 2 ^ 53 := by
  have hshifted := locates_shifted hlocates hbits
  have hvalue : y * 2 ^ e / 2 ^ targetOf m e < 2 ^ 53 := by
    rw [div_lt_iff₀ (by positivity)]
    calc y * 2 ^ e < 2 ^ ((m.log2 : Int) + 1 + e) := hlocates.lt_two_zpow
      _ ≤ 2 ^ ((53 : Int) + targetOf m e) := by
        apply zpow_le_zpow_right₀ one_le_two
        rw [targetOf_eq]
        omega
      _ = 2 ^ 53 * 2 ^ targetOf m e := by
        rw [zpow_add₀ two_ne_zero]
        rfl
  have hmantissa : (shiftToTargetExponent .binary64 m e a).1.mantissa < 2 ^ 53 := by
    exact_mod_cast hshifted.bounds.1.trans_lt hvalue
  exact (roundedMantissa_le _).trans hmantissa

/-- A rounded number is zero, or has the bits of its mantissa, or is the next power
of two. -/
theorem roundWithAccuracy_cases :
    (roundedAt m e a = 0 ∧ roundWithAccuracy .binary64 s m e a = .zero s) ∨
      (∃ h : 0 < roundedAt m e a, roundedAt m e a < 2 ^ 53 ∧
        roundWithAccuracy .binary64 s m e a = .finite s (roundedAt m e a) (targetOf m e) h) ∨
      (roundedAt m e a = 2 ^ 53 ∧ roundWithAccuracy .binary64 s m e a =
        .finite s (2 ^ 52) (targetOf m e + 1) (by decide)) := by
  have hleast : -1074 ≤ targetOf m e := by
    rw [targetOf_eq]
    omega
  have hround : ∀ p, shiftToTargetExponent .binary64 (roundedAt m e a) (targetOf m e) .exact = p →
      roundWithAccuracy .binary64 s m e a =
        if h : p.1.mantissa = 0 then .zero s
        else .finite s p.1.mantissa p.2 (Nat.pos_of_ne_zero h) := by
    have hexponent : (shiftToTargetExponent .binary64 m e a).2 = targetOf m e := by
      rw [shiftToTargetExponent_eq, shiftToExponent_of_le hbits]
    rintro p rfl
    rw [← hexponent]
    rfl
  rcases (roundedAt_le hlocates hbits).lt_or_eq with hlt | heq
  · have hfits := hround _ (shiftToTargetExponent_fitting hlt hleast)
    rcases Nat.eq_zero_or_pos (roundedAt m e a) with hzero | hpos
    · exact .inl ⟨hzero, hfits.trans (dif_pos hzero)⟩
    · exact .inr (.inl ⟨hpos, hlt, hfits.trans (dif_neg hpos.ne')⟩)
  · have hcarried := hround _ (heq ▸ shiftToTargetExponent_carried hleast)
    exact .inr (.inr ⟨heq, hcarried.trans (dif_neg (show ¬2 ^ 52 = 0 by decide))⟩)

/-- Rounding raises the exponent that a number is rounded at by one at most. -/
theorem isFinite_ofParts_roundWithAccuracy (hsmall : targetOf m e ≤ 970) :
    (ofParts (roundWithAccuracy .binary64 s m e a)).isFinite = true := by
  rcases roundWithAccuracy_cases (s := s) hlocates hbits with
    ⟨_, hround⟩ | ⟨_, _, hround⟩ | ⟨_, hround⟩
  · rw [hround]
    exact isFinite_ofParts_zero
  · rw [hround]
    exact isFinite_ofParts (by omega)
  · rw [hround]
    exact isFinite_ofParts (by omega)

end Located

end Rounded

/-! ## Decimal numbers and integers -/

theorem unpackedOfScientific_ne_nan {m : Nat} {e : Int} :
    UnpackedFloat.ofScientific .binary64 m e ≠ .notANumber := by
  unfold UnpackedFloat.ofScientific
  split_ifs
  · nofun
  · nofun
  · nofun
  · exact roundWithAccuracy_ne_nan
  · exact roundWithAccuracy_ne_nan

/-- What a decimal number is computed to is a number or an infinity. -/
theorem exists_ofScientific_eq {m : Nat} (hm : 0 < m) (negative : Bool) (e : Nat) :
    ∃ u : UnpackedFloat, u ≠ .notANumber ∧ Float.ofScientific m negative e = ofParts u := by
  unfold Float.ofScientific
  split_ifs with hfast hnegative
  · obtain ⟨m₁, q₁, h₁, -, hx, -⟩ := isExact_toFloat hm hfast.1
    obtain ⟨m₂, q₂, h₂, -, hy, -⟩ :=
      isExact_ten_pow (show e < Float.exactlyRepresentablePowersOfTen.size from
        Nat.lt_succ_of_le hfast.2)
    simp only [hx, hy]
    rw [div_ofParts h₁ h₂]
    exact ⟨_, roundWithAccuracy_ne_nan, rfl⟩
  · obtain ⟨m₁, q₁, h₁, -, hx, -⟩ := isExact_toFloat hm hfast.1
    obtain ⟨m₂, q₂, h₂, -, hy, -⟩ :=
      isExact_ten_pow (show e < Float.exactlyRepresentablePowersOfTen.size from
        Nat.lt_succ_of_le hfast.2)
    simp only [hx, hy]
    rw [mul_ofParts h₁ h₂]
    exact ⟨_, roundWithAccuracy_ne_nan, rfl⟩
  · exact ⟨_, unpackedOfScientific_ne_nan, rfl⟩
  · exact ⟨_, unpackedOfScientific_ne_nan, rfl⟩

/-- A natural number beyond the exact doubles is rounded. -/
theorem ofScientific_of_ge {n : Nat} (h : 2 ^ 53 ≤ n) :
    Float.ofScientific n false 0 =
      ofParts (roundWithAccuracy .binary64 .positive (n <<< 53) (-53) .exact) := by
  have hproduct : UnpackedFloat.ofScientific .binary64 n 0 =
      roundWithAccuracy .binary64 (.positive * .positive) (n <<< 53 * 10 ^ 0) (-53 + 0) .exact := by
    unfold UnpackedFloat.ofScientific
    rw [dif_neg (show n ≠ 0 by omega), if_neg (show ¬(0 : Int) > 2 ^ 11 by omega),
      if_neg (show ¬(0 : Int) < -((2 ^ 11 : Int) + n.log2) by omega), if_pos le_rfl]
    rfl
  unfold Float.ofScientific
  rw [dif_neg (by omega)]
  change ofParts (UnpackedFloat.ofScientific .binary64 n 0) = _
  rw [hproduct, pow_zero, mul_one]
  rfl

/-- A natural number of 53 bits is a double itself. -/
theorem exists_ofScientific_of_lt {n : Nat} (hpos : 0 < n) (h : n < 2 ^ 53) :
    ∃ m q, ∃ hcanonical : Canonical m q,
      Float.ofScientific n false 0 = ofParts (.finite .positive m q hcanonical.pos) ∧
        (m * 2 ^ q : ℚ) = n := by
  obtain ⟨m, q, hcanonical, -, -, hvalue⟩ := isExact_toFloat hpos h
  have hrounds : RoundsTo m q (n * 10 ^ (0 : Int)) := by
    rw [zpow_zero, mul_one, ← hvalue]
    exact roundsTo_self m q
  exact ⟨m, q, hcanonical, ofScientific_eq hpos hcanonical hrounds (by omega) (by omega), hvalue⟩

/-- The double of a natural number of 64 bits is finite. -/
theorem isFinite_ofNat {n : Nat} (h : n < 2 ^ 64) : (Float.ofNat n).isFinite = true := by
  change (Float.ofScientific n false 0).isFinite = true
  rcases n.eq_zero_or_pos with rfl | hpos
  · decide
  by_cases hsmall : n < 2 ^ 53
  · obtain ⟨m, q, hcanonical, hexact, -⟩ := exists_ofScientific_of_lt hpos hsmall
    rw [hexact]
    exact isFinite_ofParts hcanonical.greatest
  · rw [ofScientific_of_ge (not_lt.mp hsmall)]
    have hshift : n <<< 53 = n * 2 ^ 53 := Nat.shiftLeft_eq n 53
    have hlow : 52 ≤ (n <<< 53).log2 := (Nat.le_log2 (by omega)).mpr (by omega)
    have hhigh : (n <<< 53).log2 < 117 := (Nat.log2_lt (by omega)).mpr (by omega)
    have hlocates : Locates (.ofMantissaAndAccuracy (n <<< 53) .exact) (n <<< 53 : Nat) := rfl
    refine isFinite_ofParts_roundWithAccuracy hlocates ?_ ?_
    · rw [targetOf_eq]
      omega
    · rw [targetOf_eq]
      omega

/-- The double of an integer of 64 bits, signed or unsigned, is finite. -/
theorem isFinite_ofInt {n : Int} (hlow : -9223372036854775808 ≤ n)
    (hhigh : n < 18446744073709551616) : (Float.ofInt n).isFinite = true := by
  cases n with
  | ofNat n =>
      rw [Int.ofNat_eq_natCast] at hhigh
      exact isFinite_ofNat (by omega)
  | negSucc n =>
      rw [Int.negSucc_eq] at hlow
      exact isFinite_neg (isFinite_ofNat (by omega))

end Binary64
end LiftedPomdp
