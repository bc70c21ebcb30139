import LiftedPomdp.Decimal.Reading
import LiftedPomdp.Proofs.Decimal.Digits
import LiftedPomdp.Proofs.Float.Finite

/-!
# Decimal numbers read as doubles

A decimal number within the rounding interval of a double is nearest to that double,
with any number of digits and any power of ten.  Numbers that are far beyond the
doubles, for which nothing is computed, are in no rounding interval.  Few digits with a
small power are only rounded once when they are scaled.
-/

namespace LiftedPomdp
namespace Decimal

open Binary64 Float.Model.UnpackedFloat

theorem length_le_log2 {m : Nat} (hm : m ≠ 0) : length m ≤ m.log2 + 1 := by
  have hpow : 2 ^ (length m - 1) < 2 ^ (m.log2 + 1) :=
    calc 2 ^ (length m - 1) ≤ 10 ^ (length m - 1) := Nat.pow_le_pow_left (by omega) _
      _ ≤ m := ten_pow_le_of_length hm
      _ < 2 ^ (m.log2 + 1) := Nat.lt_log2_self
  have hexponent := (Nat.pow_lt_pow_iff_right one_lt_two).mp hpow
  omega

section Nearest

variable {m n : Nat} {e q : Int} (hcanonical : Canonical n q) (h : RoundsTo n q (m * 10 ^ e))
include hcanonical h

theorem ne_zero_of_roundsTo : m ≠ 0 := by
  have hpow : (0 : ℚ) < 2 ^ q := by positivity
  have hn : (1 : ℚ) ≤ n := by exact_mod_cast hcanonical.pos
  have hlow := h.bounds.1
  rintro rfl
  rw [Nat.cast_zero, zero_mul] at hlow
  nlinarith

/-- What rounds to a double has a moderate order of magnitude. -/
theorem magnitude_of_roundsTo : -330 ≤ (length m : Int) + e ∧ (length m : Int) + e ≤ 310 := by
  have hm := ne_zero_of_roundsTo hcanonical h
  have hten : (0 : ℚ) < 10 ^ e := by positivity
  have hlength := length_pos m
  have hexponent : ∀ {i j : Int}, (10 : ℚ) ^ i < 10 ^ j → i < j :=
    (zpow_lt_zpow_iff_right₀ (by norm_num)).mp
  constructor
  · have hbelow : (m : ℚ) * 10 ^ e < 10 ^ ((length m : Int) + e) := by
      rw [zpow_add₀ (by norm_num), zpow_natCast]
      exact mul_lt_mul_of_pos_right (by exact_mod_cast lt_ten_pow_length m) hten
    have hleast : (10 : ℚ) ^ (-330 : Int) ≤ m * 10 ^ e := by
      have hn : (1 : ℚ) ≤ n := by exact_mod_cast hcanonical.pos
      have hpowers : (2 : ℚ) ^ 1075 ≤ 10 ^ 330 := by
        exact_mod_cast (by decide +kernel : 2 ^ 1075 ≤ 10 ^ 330)
      calc (10 : ℚ) ^ (-330 : Int) ≤ 2 ^ (-1075 : Int) := inv_anti₀ (by positivity) hpowers
        _ = 1 / 2 * 2 ^ (-1074 : Int) := by
          rw [show (-1075 : Int) = -1074 - 1 from rfl, zpow_sub_one₀ two_ne_zero]
          ring
        _ ≤ (n - 1 / 2) * 2 ^ q := by
          apply mul_le_mul _ (zpow_le_zpow_right₀ one_le_two hcanonical.least) (by positivity)
          all_goals linarith
        _ ≤ m * 10 ^ e := h.bounds.1
    have hlow := hexponent (hleast.trans_lt hbelow)
    omega
  · have habove : (10 : ℚ) ^ ((length m - 1 : Nat) + e) ≤ m * 10 ^ e := by
      rw [zpow_add₀ (by norm_num), zpow_natCast]
      exact mul_le_mul_of_nonneg_right (by exact_mod_cast ten_pow_le_of_length hm) hten.le
    have hgreatest : (m : ℚ) * 10 ^ e < 10 ^ (309 : Int) := by
      have hpowers : (2 : ℚ) ^ 1024 ≤ 10 ^ 309 := by
        exact_mod_cast (by decide +kernel : 2 ^ 1024 ≤ 10 ^ 309)
      calc (m : ℚ) * 10 ^ e < 2 ^ (q + 53) := h.lt hcanonical
        _ ≤ 2 ^ (1024 : Int) :=
          zpow_le_zpow_right₀ one_le_two (by have := hcanonical.greatest; omega)
        _ ≤ 10 ^ (309 : Int) := hpowers
    have hhigh := hexponent (habove.trans_lt hgreatest)
    omega

/-- A decimal number is read as the double whose rounding interval it lies in. -/
theorem nearest_eq : nearest m e = ofParts (.finite .positive n q hcanonical.pos) := by
  have hm := ne_zero_of_roundsTo hcanonical h
  have hlength := length_le_log2 hm
  obtain ⟨hlow, hhigh⟩ := magnitude_of_roundsTo hcanonical h
  unfold nearest
  simp only
  rw [if_neg (by omega), if_neg (by omega)]
  exact ofScientific_eq (Nat.pos_of_ne_zero hm) hcanonical h (by omega) (by omega)

end Nearest

theorem isFinite_nearest {m : Nat} {e : Int} (h : (nearest m e).isInf = false) :
    (nearest m e).isFinite = true := by
  unfold nearest at h ⊢
  simp only at h ⊢
  split_ifs at h ⊢ with hzero hhigh
  · decide
  · revert h
    decide
  · have hm : 0 < m := Nat.pos_of_ne_zero fun hm => hzero (.inl hm)
    obtain ⟨u, hu, hscientific⟩ := exists_ofScientific_eq hm (decide (e < 0)) e.natAbs
    rw [hscientific] at h ⊢
    exact isFinite_of_isInf_eq_false hu h

/-! ## Scaling -/

theorem appendDigits_eq {n : Nat} {cs : List Char}
    (h : n * 10 ^ cs.length + ofDigits cs < 2 ^ 64) :
    appendDigits n cs = (n * 10 ^ cs.length + ofDigits cs, 0) := by
  rw [← foldl_ofDigits] at h ⊢
  induction cs generalizing n with
  | nil => rfl
  | cons c cs ih =>
      rw [List.foldl_cons] at h ⊢
      have hfits : 10 * n + digitValue c < 18446744073709551616 := by
        rw [foldl_ofDigits] at h
        have hpow : 0 < 10 ^ cs.length := by positivity
        nlinarith
      rw [appendDigits]
      simp only [hfits, if_true, ih h]

theorem tenPower_eq {k : Nat} (hk : k < Float.exactlyRepresentablePowersOfTen.size) :
    tenPower k = Float.exactlyRepresentablePowersOfTen[k] := by
  have hall : ∀ k : Fin 23, tenPower k = Float.exactlyRepresentablePowersOfTen[k] := by
    decide +kernel
  exact hall ⟨k, hk⟩

/-- The double nearest to few digits with a small power, by one multiplication or division. -/
theorem nearest_of_lt {m : Nat} {e : Int} (hm : m < 2 ^ 53) (he : e.natAbs ≤ 22) :
    nearest m e =
      if e < 0 then m.toUInt64.toFloat / tenPower e.natAbs
      else m.toUInt64.toFloat * tenPower e.natAbs := by
  have hk : e.natAbs < Float.exactlyRepresentablePowersOfTen.size := Nat.lt_succ_of_le he
  rcases m.eq_zero_or_pos with rfl | hpos
  · have hall : ∀ k : Fin 23, (0 : Nat).toUInt64.toFloat / tenPower k = 0.0 ∧
        (0 : Nat).toUInt64.toFloat * tenPower k = 0.0 := by
      decide +kernel
    obtain ⟨hquotient, hproduct⟩ := hall ⟨e.natAbs, hk⟩
    unfold nearest
    rw [if_pos (.inl rfl)]
    split_ifs
    · exact hquotient.symm
    · exact hproduct.symm
  · have hlog : m.log2 < 53 := (Nat.log2_lt hpos.ne').mpr hm
    have hlength := length_le_log2 hpos.ne'
    have hlength' := length_pos m
    unfold nearest
    simp only
    rw [if_neg (by omega), if_neg (by omega), tenPower_eq hk]
    unfold Float.ofScientific
    rw [dif_pos ⟨hm, he⟩]
    simp only [decide_eq_true_eq]

/-! ## Literals -/

namespace Reader

variable {whole fraction : List Char} {power : Int}

/-- A literal within the rounding interval of a double is read as that double. -/
theorem nearest_read?_eq {n : Nat} {q : Int} (hcanonical : Canonical n q)
    (h : RoundsTo n q (ofDigits (whole ++ fraction) * 10 ^ (power - fraction.length))) :
    nearest.read? whole fraction power =
      some (ofParts (.finite .positive n q hcanonical.pos)) := by
  unfold nearest
  simp only [nearest_eq hcanonical h, isInf_ofParts hcanonical, Bool.false_eq_true, if_false]

/-- A literal without a digit other than zero is read as zero, whatever its power. -/
theorem nearest_read?_of_eq_zero (h : ofDigits (whole ++ fraction) = 0) :
    nearest.read? whole fraction power = some 0.0 := by
  have hzero : Decimal.nearest 0 (power - fraction.length) = 0.0 := by
    unfold Decimal.nearest
    exact if_pos (.inl rfl)
  unfold nearest
  simp only [h, hzero]
  decide

theorem isFinite_of_nearest_read? {x : Float} (h : nearest.read? whole fraction power = some x) :
    x.isFinite = true := by
  unfold nearest at h
  simp only at h
  split_ifs at h with hinf
  cases h
  exact isFinite_nearest (Bool.not_eq_true _ ▸ hinf)

theorem scaling_read?_of_lt (h : ofDigits (whole ++ fraction) < 2 ^ 64) :
    scaling.read? whole fraction power =
      scale (ofDigits (whole ++ fraction)).toUInt64.toFloat (power - fraction.length) := by
  have hdigits := ofDigits_append whole fraction
  have hwhole : appendDigits 0 whole = (ofDigits whole, 0) := by
    have hle : ofDigits whole ≤ ofDigits whole * 10 ^ fraction.length :=
      Nat.le_mul_of_pos_right _ (by positivity)
    have hall : 0 * 10 ^ whole.length + ofDigits whole < 2 ^ 64 := by omega
    simpa using appendDigits_eq hall
  have hfraction := appendDigits_eq (hdigits ▸ h)
  unfold scaling
  simp only [hwhole, hfraction, ← hdigits]
  congr 1
  omega

/-- Few digits with a small power are scaled by a power of ten that is a double itself, and so
rounded once. -/
theorem scaling_read?_of_nearest {x : Float} (h : nearest.read? whole fraction power = some x)
    (hm : ofDigits (whole ++ fraction) < 2 ^ 53)
    (he : (power - fraction.length).natAbs ≤ 22) :
    scaling.read? whole fraction power = some x := by
  rw [scaling_read?_of_lt (by omega)]
  unfold nearest at h
  simp only [nearest_of_lt hm he] at h
  unfold scale
  by_cases hnegative : power - fraction.length < 0
  · have htimes : ((power - fraction.length).natAbs - 1) / 308 = 0 := by omega
    simp only [if_pos hnegative, htimes, Nat.mul_zero, Nat.sub_zero] at h ⊢
    split_ifs at h
    exact h
  · have hsmall : power - fraction.length ≤ 308 := by omega
    simp only [if_neg hnegative, if_pos hsmall] at h ⊢
    exact h

end Reader
end Decimal
end LiftedPomdp
