import LiftedPomdp.Proofs.Float.Rounding

/-!
# Decimal numbers as doubles

A product and a quotient of doubles are rounded correctly, and so is a decimal
number that is computed as one of them: a decimal number within the rounding
interval of a double is read as that double.
-/

namespace LiftedPomdp
namespace Binary64

open Float.Model Float.Model.UnpackedFloat

/-! ## Products and quotients -/

section Operations

variable {s₁ s₂ : Sign} {m₁ m₂ n : Nat} {e₁ e₂ q : Int} {h₁ : 0 < m₁} {h₂ : 0 < m₂}

theorem mul_eq (hbits : 2 ^ 52 ≤ m₁ * m₂) (hcanonical : Canonical n q)
    (h : RoundsTo n q ((m₁ * m₂ : Nat) * 2 ^ (e₁ + e₂))) :
    UnpackedFloat.mul .binary64 (.finite s₁ m₁ e₁ h₁) (.finite s₂ m₂ e₂ h₂) =
      .finite (s₁ * s₂) n q hcanonical.pos := by
  have hlog : 52 ≤ (m₁ * m₂).log2 := (Nat.le_log2 (by omega)).mpr hbits
  have hlocates : Locates (.ofMantissaAndAccuracy (m₁ * m₂) .exact) (m₁ * m₂ : Nat) := rfl
  refine roundWithAccuracy_eq hlocates ?_ hcanonical h
  rw [targetOf_eq]
  omega

/-- A quotient and a remainder locate a fraction. -/
theorem locates_div (m : Nat) {d : Nat} (hd : 0 < d) :
    Locates (.ofMantissaAndAccuracy (m / d) (accuracyOfFraction (m % d) d)) ((m : ℚ) / d) := by
  have hd' : (0 : ℚ) < d := by exact_mod_cast hd
  have hsplit : (m : ℚ) / d = (m / d : Nat) + ((m % d : Nat) : ℚ) / d := by
    rw [eq_comm, ← sub_eq_zero]
    have hdivision : (d : ℚ) * (m / d : Nat) + (m % d : Nat) = m := by
      exact_mod_cast Nat.div_add_mod m d
    field_simp
    linarith
  have hlt : ((m % d : Nat) : ℚ) < d := by exact_mod_cast Nat.mod_lt m hd
  rw [hsplit]
  unfold accuracyOfFraction
  split_ifs with hzero
  · rw [hzero]
    simp [Locates, ExtendedMantissa.ofMantissaAndAccuracy]
  · have hpos : (0 : ℚ) < (m % d : Nat) / d := by
      have hrest : (0 : ℚ) < (m % d : Nat) := by exact_mod_cast Nat.pos_of_ne_zero hzero
      positivity
    have hone : ((m % d : Nat) : ℚ) / d < 1 := by
      rw [div_lt_one hd']
      exact_mod_cast Nat.mod_lt m hd
    cases hcompare : compare (2 * (m % d)) d with
    | lt =>
        have hhalf : ((m % d : Nat) : ℚ) / d < 1 / 2 := by
          rw [div_lt_div_iff₀ hd' two_pos, mul_comm, one_mul]
          exact_mod_cast Nat.compare_eq_lt.mp hcompare
        exact ⟨by linarith, by linarith⟩
    | eq =>
        have hhalf : ((m % d : Nat) : ℚ) / d = 1 / 2 := by
          rw [div_eq_div_iff hd'.ne' two_ne_zero, mul_comm, one_mul]
          exact_mod_cast Nat.compare_eq_eq.mp hcompare
        rw [hhalf]
        rfl
    | gt =>
        have hhalf : 1 / 2 < ((m % d : Nat) : ℚ) / d := by
          rw [div_lt_div_iff₀ two_pos hd', mul_comm _ (2 : ℚ), one_mul]
          exact_mod_cast Nat.compare_eq_gt.mp hcompare
        exact ⟨by linarith, by linarith⟩

theorem div_eq (hcanonical : Canonical n q)
    (h : RoundsTo n q ((m₁ : ℚ) / m₂ * 2 ^ (e₁ - e₂))) :
    UnpackedFloat.div .binary64 (.finite s₁ m₁ e₁ h₁) (.finite s₂ m₂ e₂ h₂) =
      .finite (s₁ / s₂) n q hcanonical.pos := by
  -- the quotient is taken at an exponent that leaves enough bits in it
  let t := min (e₁ - e₂)
    (Format.binary64.targetExponent (totalExponent m₁ e₁ - totalExponent m₂ e₂))
  have ht : t = min (e₁ - e₂) (max (m₁.log2 + 1 + e₁ - (m₂.log2 + 1 + e₂) - 53) (-1074)) := rfl
  have hm₂ : (0 : ℚ) < m₂ := by exact_mod_cast h₂
  have hlocates := locates_div (m₁ <<< (e₁ - e₂ - t).toNat) h₂
  have hvalue : ((m₁ <<< (e₁ - e₂ - t).toNat : Nat) : ℚ) / m₂ * 2 ^ t =
      (m₁ : ℚ) / m₂ * 2 ^ (e₁ - e₂) := by
    have hpow : (2 : ℚ) ^ (e₁ - e₂) = 2 ^ (e₁ - e₂ - t).toNat * 2 ^ t := by
      rw [← zpow_natCast, Int.toNat_of_nonneg (by omega), ← zpow_add₀ two_ne_zero, sub_add_cancel]
    rw [Nat.shiftLeft_eq, hpow]
    push_cast
    ring
  have hmagnitude : (2 : ℚ) ^ ((m₁.log2 : Int) - (m₂.log2 + 1) + (e₁ - e₂)) <
      (m₁ : ℚ) / m₂ * 2 ^ (e₁ - e₂) := by
    have hlow : (2 : ℚ) ^ m₁.log2 ≤ m₁ := by exact_mod_cast Nat.log2_self_le h₁.ne'
    have hhigh : (m₂ : ℚ) < 2 ^ (m₂.log2 + 1) := by exact_mod_cast Nat.lt_log2_self
    have hquotient : (2 : ℚ) ^ ((m₁.log2 : Int) - (m₂.log2 + 1 : Nat)) < (m₁ : ℚ) / m₂ := by
      rw [zpow_sub₀ two_ne_zero, zpow_natCast, zpow_natCast]
      exact div_lt_div₀' hlow hhigh (by positivity) (by positivity)
    rw [zpow_add₀ two_ne_zero]
    exact mul_lt_mul_of_pos_right hquotient (by positivity)
  refine roundWithAccuracy_eq hlocates ?_ hcanonical (hvalue ▸ h)
  have hbelow := hlocates.lt_two_zpow (e := t)
  rw [hvalue] at hbelow
  have hexponent := (zpow_lt_zpow_iff_right₀ one_lt_two).mp (hmagnitude.trans hbelow)
  change t ≤ targetOf _ t
  rw [targetOf_eq]
  omega

end Operations

/-! ## Numbers that are doubles themselves -/

/-- A positive double whose significand has all 53 bits is equal to a number. -/
def IsExact (x : Float) (v : ℚ) : Prop :=
  ∃ m q, ∃ h : Canonical m q,
    2 ^ 52 ≤ m ∧ x = ofParts (.finite .positive m q h.pos) ∧ m * 2 ^ q = v

/-- A natural number below `2 ^ 53` is a double itself. -/
theorem isExact_toFloat {n : Nat} (hpos : 0 < n) (hlt : n < 2 ^ 53) :
    IsExact n.toUInt64.toFloat n := by
  have hlog : n.log2 < 53 := (Nat.log2_lt hpos.ne').mpr hlt
  obtain ⟨k, hk⟩ : ∃ k, n.log2 + k = 52 := ⟨52 - n.log2, by omega⟩
  have hfull : 2 ^ 52 ≤ n <<< k := by
    rw [Nat.shiftLeft_eq, ← hk, pow_add]
    exact Nat.mul_le_mul_right _ (Nat.log2_self_le hpos.ne')
  have hsmall : n <<< k < 2 ^ 53 := by
    rw [Nat.shiftLeft_eq, show 53 = n.log2 + 1 + k by omega, pow_add]
    exact Nat.mul_lt_mul_of_pos_right Nat.lt_log2_self (by positivity)
  have hcanonical : Canonical (n <<< k) (-k) :=
    ⟨by omega, hsmall, by omega, by omega, .inl hfull⟩
  have htarget : targetOf n 0 = -k := by
    rw [targetOf_eq]
    omega
  have hround : UnpackedFloat.round .binary64 .positive n 0 =
      .finite .positive (n <<< k) (-k) hcanonical.pos := by
    have hshift : (0 - -(k : Int)).toNat = k := by omega
    change (let p := decreaseExponent n 0 (targetOf n 0);
      roundWithAccuracy .binary64 .positive p.1 p.2 .exact) = _
    rw [htarget, decreaseExponent, hshift]
    simp only [zero_sub]
    have hlocates : Locates (.ofMantissaAndAccuracy (n <<< k) .exact) (n <<< k : Nat) := rfl
    refine roundWithAccuracy_eq hlocates ?_ hcanonical (roundsTo_self _ _)
    have hbits : 52 ≤ (n <<< k).log2 := (Nat.le_log2 (by omega)).mpr hfull
    rw [targetOf_eq]
    omega
  refine ⟨_, _, hcanonical, hfull, ?_, ?_⟩
  · have hword : n.toUInt64.toNat = n := Nat.mod_eq_of_lt (by omega)
    have hcompare : compare (n : Int) 0 = .gt := Int.compare_eq_gt.mpr (by omega)
    change ofParts (UnpackedFloat.normalize .binary64 (n.toUInt64.toNat : Int) 0 .positive) = _
    rw [hword, UnpackedFloat.normalize, hcompare]
    simp only [Int.toNat_natCast, hround]
  · rw [Nat.shiftLeft_eq, zpow_neg, zpow_natCast]
    push_cast
    field_simp

/-- Whether a double is positive with all 53 bits and equal to a power of ten. -/
def isTenPow (k : Nat) (x : Float) : Bool :=
  match x.toModel.unpack with
  | .finite s m q _ =>
    s == .positive && decide (2 ^ 52 ≤ m) && decide (m * 2 ^ q.toNat = 10 ^ k * 2 ^ (-q).toNat)
  | _ => false

theorem isExact_of_isTenPow {k : Nat} {x : Float} (h : isTenPow k x = true) :
    IsExact x (10 ^ k) := by
  unfold isTenPow at h
  split at h
  · rename_i s m q hm hunpack
    obtain ⟨hcanonical, hx⟩ := eq_ofParts_finite hunpack
    simp only [Bool.and_eq_true, decide_eq_true_eq] at h
    obtain ⟨⟨hs, hfull⟩, hvalue⟩ := h
    obtain rfl : s = .positive := by
      cases s
      · cases hs
      · rfl
    refine ⟨m, q, hcanonical, hfull, hx, ?_⟩
    have hsplit : (2 : ℚ) ^ q = 2 ^ q.toNat / 2 ^ (-q).toNat := by
      rw [← zpow_natCast, ← zpow_natCast, ← zpow_sub₀ two_ne_zero]
      congr 1
      omega
    have hvalue : (m : ℚ) * 2 ^ q.toNat = 10 ^ k * 2 ^ (-q).toNat := by exact_mod_cast hvalue
    rw [hsplit, ← mul_div_assoc, hvalue, mul_div_cancel_right₀ _ (by positivity)]
  · cases h

/-- The powers of ten up to the twenty-second are doubles themselves. -/
theorem isExact_ten_pow {k : Nat} (hk : k < Float.exactlyRepresentablePowersOfTen.size) :
    IsExact Float.exactlyRepresentablePowersOfTen[k] (10 ^ k) := by
  have hall : ∀ k : Fin 23, isTenPow k Float.exactlyRepresentablePowersOfTen[k] = true := by
    decide
  exact isExact_of_isTenPow (hall ⟨k, hk⟩)

/-! ## Decimal numbers -/

section Arithmetic

variable {s₁ s₂ : Sign} {m₁ m₂ : Nat} {q₁ q₂ : Int} {h₁ : 0 < m₁} {h₂ : 0 < m₂}
  (hx : Canonical m₁ q₁) (hy : Canonical m₂ q₂)
include hx hy

theorem mul_ofParts :
    ofParts (.finite s₁ m₁ q₁ h₁) * ofParts (.finite s₂ m₂ q₂ h₂) =
      ofParts (UnpackedFloat.mul .binary64 (.finite s₁ m₁ q₁ h₁) (.finite s₂ m₂ q₂ h₂)) := by
  change ofParts (UnpackedFloat.mul .binary64 (ofParts (.finite s₁ m₁ q₁ h₁)).toModel.unpack
    (ofParts (.finite s₂ m₂ q₂ h₂)).toModel.unpack) = _
  rw [unpack_ofParts hx, unpack_ofParts hy]

theorem div_ofParts :
    ofParts (.finite s₁ m₁ q₁ h₁) / ofParts (.finite s₂ m₂ q₂ h₂) =
      ofParts (UnpackedFloat.div .binary64 (.finite s₁ m₁ q₁ h₁) (.finite s₂ m₂ q₂ h₂)) := by
  change ofParts (UnpackedFloat.div .binary64 (ofParts (.finite s₁ m₁ q₁ h₁)).toModel.unpack
    (ofParts (.finite s₂ m₂ q₂ h₂)).toModel.unpack) = _
  rw [unpack_ofParts hx, unpack_ofParts hy]

end Arithmetic

section OfScientific

variable {m n : Nat} {e q : Int} (hm : 0 < m) (hcanonical : Canonical n q)
  (h : RoundsTo n q (m * 10 ^ e))
include hm h

theorem ofScientific_fast (hlt : m < 2 ^ 53) (hle : e.natAbs ≤ 22) :
    Float.ofScientific m (decide (e < 0)) e.natAbs =
      ofParts (.finite .positive n q hcanonical.pos) := by
  obtain ⟨m₁, q₁, h₁, hfull₁, hx, hvalue₁⟩ := isExact_toFloat hm hlt
  obtain ⟨m₂, q₂, h₂, hfull₂, hy, hvalue₂⟩ :=
    isExact_ten_pow (show e.natAbs < Float.exactlyRepresentablePowersOfTen.size from
      Nat.lt_succ_of_le hle)
  unfold Float.ofScientific
  rw [dif_pos ⟨hlt, hle⟩]
  simp only [hx, hy]
  by_cases hnegative : e < 0
  · have hvalue : (m₁ : ℚ) / m₂ * 2 ^ (q₁ - q₂) = m * 10 ^ e := by
      have habs : e = -(e.natAbs : Int) := by omega
      rw [zpow_sub₀ two_ne_zero, div_mul_div_comm, hvalue₁, hvalue₂, habs, zpow_neg, zpow_natCast,
        Int.natAbs_neg, Int.natAbs_natCast]
      rfl
    rw [decide_eq_true hnegative, if_pos rfl, div_ofParts h₁ h₂, div_eq hcanonical (hvalue ▸ h)]
    rfl
  · have hvalue : ((m₁ * m₂ : Nat) : ℚ) * 2 ^ (q₁ + q₂) = m * 10 ^ e := by
      have habs : e = (e.natAbs : Int) := by omega
      rw [zpow_add₀ two_ne_zero, Nat.cast_mul, mul_mul_mul_comm, hvalue₁, hvalue₂, habs,
        zpow_natCast, Int.natAbs_natCast]
    have hbits : 2 ^ 52 ≤ m₁ * m₂ := hfull₁.trans (Nat.le_mul_of_pos_right _ h₂.pos)
    rw [decide_eq_false hnegative, if_neg (by decide), mul_ofParts h₁ h₂,
      mul_eq hbits hcanonical (hvalue ▸ h)]
    rfl

theorem unpackedOfScientific_eq (hhigh : e ≤ 2048) (hlow : -2048 - m.log2 ≤ e) :
    UnpackedFloat.ofScientific .binary64 m e = .finite .positive n q hcanonical.pos := by
  unfold UnpackedFloat.ofScientific
  rw [dif_neg hm.ne', if_neg (show ¬e > 2 ^ 11 by omega),
    if_neg (show ¬e < -((2 ^ 11 : Int) + m.log2) by omega)]
  split_ifs with hnonneg
  · have hbits : 2 ^ 52 ≤ m <<< 53 * 10 ^ e.toNat := by
      have hshift : 2 ^ 53 ≤ m <<< 53 := by
        rw [Nat.shiftLeft_eq]
        exact Nat.le_mul_of_pos_left _ hm
      have hpow : 0 < 10 ^ e.toNat := by positivity
      exact le_trans (by omega) (Nat.le_mul_of_pos_right _ hpow)
    have hvalue : ((m <<< 53 * 10 ^ e.toNat : Nat) : ℚ) * 2 ^ (-53 + 0 : Int) = m * 10 ^ e := by
      rw [← Int.toNat_of_nonneg hnonneg, zpow_natCast, Int.toNat_natCast, Nat.shiftLeft_eq]
      push_cast
      norm_num
      ring
    exact mul_eq hbits hcanonical (hvalue ▸ h)
  · have hvalue : (m : ℚ) / (10 ^ (-e).toNat : Nat) * 2 ^ (0 - 0 : Int) = m * 10 ^ e := by
      have habs : e = -((-e).toNat : Int) := by omega
      rw [habs, zpow_neg, zpow_natCast, neg_neg, Int.toNat_natCast]
      push_cast
      rw [mul_one, div_eq_mul_inv]
    exact div_eq hcanonical (hvalue ▸ h)

theorem ofScientific_eq (hhigh : e ≤ 2048) (hlow : -2048 - m.log2 ≤ e) :
    Float.ofScientific m (decide (e < 0)) e.natAbs =
      ofParts (.finite .positive n q hcanonical.pos) := by
  by_cases hfast : m < 2 ^ 53 ∧ e.natAbs ≤ 22
  · exact ofScientific_fast hm hcanonical h hfast.1 hfast.2
  · have hexponent :
        (if decide (e < 0) = true then Int.negOfNat e.natAbs else Int.ofNat e.natAbs) = e := by
      rw [Int.negOfNat_eq, Int.ofNat_eq_natCast]
      split_ifs with hnegative <;> simp only [decide_eq_true_eq] at hnegative <;> omega
    unfold Float.ofScientific
    rw [dif_neg hfast]
    change ofParts (UnpackedFloat.ofScientific .binary64 m
      (if decide (e < 0) = true then Int.negOfNat e.natAbs else Int.ofNat e.natAbs)) = _
    rw [hexponent, unpackedOfScientific_eq hm hcanonical h hhigh hlow]

end OfScientific

end Binary64
end LiftedPomdp
