import LiftedPomdp.Proofs.Float.Format

/-!
# Rounding to doubles

A mantissa with a round bit and a sticky bit locates a number up to the accuracy
that rounding needs.  Shifting keeps the number located, so every number within the
rounding interval of a double is rounded to that double, whichever way it has been
computed.
-/

namespace LiftedPomdp
namespace Binary64

open Float.Model Float.Model.UnpackedFloat

/-! ## Numbers located by a mantissa -/

/-- Where the number lies that a mantissa with residual bits stands for. -/
def Locates : ExtendedMantissa → ℚ → Prop
  | ⟨m, false, false⟩, y => y = m
  | ⟨m, false, true⟩, y => m < y ∧ y < m + 1 / 2
  | ⟨m, true, false⟩, y => y = m + 1 / 2
  | ⟨m, true, true⟩, y => m + 1 / 2 < y ∧ y < m + 1

variable {em : ExtendedMantissa} {y : ℚ}

theorem Locates.bounds (h : Locates em y) : em.mantissa ≤ y ∧ y < em.mantissa + 1 := by
  obtain ⟨m, r, s⟩ := em
  cases r <;> cases s <;> simp only [Locates] at h
  · exact ⟨h.ge, by linarith⟩
  · exact ⟨by linarith, by linarith⟩
  · exact ⟨by linarith, by linarith⟩
  · exact ⟨by linarith, by linarith⟩

theorem Locates.shiftRightOne (h : Locates em y) : Locates em.shiftRightOne (y / 2) := by
  obtain ⟨m, r, s⟩ := em
  -- the last bit of the mantissa becomes the round bit
  obtain ⟨k, rfl | rfl⟩ := m.even_or_odd'
  · have hhalf : 2 * k / 2 = k := by omega
    have hbit : (2 * k % 2 != 0) = false := by simp
    cases r <;> cases s <;>
      simp only [Locates, ExtendedMantissa.shiftRightOne, hhalf, hbit, Bool.or_false, Bool.or_true,
        Nat.cast_mul, Nat.cast_ofNat] at h ⊢
    · linarith
    · exact ⟨by linarith, by linarith⟩
    · exact ⟨by linarith, by linarith⟩
    · exact ⟨by linarith, by linarith⟩
  · have hhalf : (2 * k + 1) / 2 = k := by omega
    have hbit : ((2 * k + 1) % 2 != 0) = true := by simp
    cases r <;> cases s <;>
      simp only [Locates, ExtendedMantissa.shiftRightOne, hhalf, hbit, Bool.or_false, Bool.or_true,
        Nat.cast_mul, Nat.cast_add, Nat.cast_ofNat, Nat.cast_one] at h ⊢
    · linarith
    · exact ⟨by linarith, by linarith⟩
    · exact ⟨by linarith, by linarith⟩
    · exact ⟨by linarith, by linarith⟩

theorem Locates.shiftRight (h : Locates em y) (n : Nat) : Locates (em >>> n) (y / 2 ^ n) := by
  change Locates (n.repeat ExtendedMantissa.shiftRightOne em) _
  induction n with
  | zero => simpa [Nat.repeat] using h
  | succ n ih =>
      rw [Nat.repeat, pow_succ, ← div_div]
      exact ih.shiftRightOne

/-- A number lies within half a unit of `m`; at that distance only where `m` is
even. -/
def IsNearest (m : Nat) (y : ℚ) : Prop :=
  if m % 2 = 0 then m - 1 / 2 ≤ y ∧ y ≤ m + 1 / 2 else m - 1 / 2 < y ∧ y < m + 1 / 2

theorem IsNearest.bounds {m : Nat} (h : IsNearest m y) : m - 1 / 2 ≤ y ∧ y ≤ m + 1 / 2 := by
  unfold IsNearest at h
  split at h
  · exact h
  · exact ⟨h.1.le, h.2.le⟩

theorem IsNearest.even_of_eq {m : Nat} (h : IsNearest m y)
    (hy : y = m - 1 / 2 ∨ y = m + 1 / 2) : m % 2 = 0 := by
  unfold IsNearest at h
  split at h
  · assumption
  · rcases hy with hy | hy <;> linarith

/-- A number is rounded to the mantissa that it is nearest to. -/
theorem Locates.roundedMantissa_eq (h : Locates em y) {m : Nat} (hm : IsNearest m y) :
    em.roundedMantissa = m := by
  obtain ⟨hlow, hhigh⟩ := hm.bounds
  obtain ⟨k, r, s⟩ := em
  have hle : ∀ {a b : Nat}, (a : ℚ) < b + 1 → a ≤ b := fun h => by
    exact Nat.le_of_lt_succ (by exact_mod_cast h)
  cases r <;> cases s <;>
    simp only [Locates, ExtendedMantissa.roundedMantissa, ExtendedMantissa.accuracy,
      Accuracy.roundToNearestEven] at h ⊢
  · exact le_antisymm (hle (by linarith)) (hle (by linarith))
  · exact le_antisymm (hle (by linarith)) (hle (by linarith))
  · have hge : k ≤ m := hle (by linarith)
    have hle : m ≤ k + 1 := hle (by push_cast; linarith)
    have heven : m % 2 = 0 := by
      apply hm.even_of_eq
      rcases Nat.lt_or_eq_of_le hge with hlt | rfl
      · left
        obtain rfl : m = k + 1 := by omega
        push_cast
        linarith
      · exact .inr h
    omega
  · have hge : k + 1 ≤ m := hle (by push_cast; linarith)
    have hle : m ≤ k + 1 := hle (by push_cast; linarith)
    omega

/-- A number lies within half a unit of the mantissa that it is rounded to. -/
theorem Locates.rounded_bounds (h : Locates em y) :
    (em.roundedMantissa : ℚ) - 1 / 2 ≤ y ∧ y ≤ em.roundedMantissa + 1 / 2 := by
  obtain ⟨k, r, s⟩ := em
  cases r <;> cases s <;>
    simp only [Locates, ExtendedMantissa.roundedMantissa, ExtendedMantissa.accuracy,
      Accuracy.roundToNearestEven] at h ⊢
  · exact ⟨by linarith, by linarith⟩
  · exact ⟨by linarith, by linarith⟩
  · have hparity : ((k % 2 : Nat) : ℚ) ≤ 1 := by
      exact_mod_cast Nat.lt_succ_iff.mp (k.mod_lt two_pos)
    have hnonneg : (0 : ℚ) ≤ (k % 2 : Nat) := Nat.cast_nonneg _
    rw [Nat.cast_add]
    exact ⟨by linarith, by linarith⟩
  · rw [Nat.cast_add, Nat.cast_one]
    exact ⟨by linarith, by linarith⟩

/-! ## The exponent that a number is rounded at -/

/-- The exponent that a mantissa and an exponent are rounded at. -/
def targetOf (m : Nat) (e : Int) : Int :=
  Format.binary64.targetExponent (totalExponent m e)

theorem targetOf_eq (m : Nat) (e : Int) : targetOf m e = max (m.log2 + 1 + e - 53) (-1074) :=
  rfl

variable {m : Nat} {e t : Int} {a : Accuracy}

theorem shiftToTargetExponent_eq :
    shiftToTargetExponent .binary64 m e a = shiftToExponent m e a (targetOf m e) :=
  rfl

theorem shiftToExponent_of_le (h : e ≤ t) :
    shiftToExponent m e a t =
      (ExtendedMantissa.ofMantissaAndAccuracy m a >>> (t - e).toNat, t) := by
  unfold shiftToExponent
  simp only [Prod.mk.injEq, true_and]
  omega

theorem shiftToExponent_of_ge (h : t ≤ e) :
    shiftToExponent m e a t = (ExtendedMantissa.ofMantissaAndAccuracy m a, e) := by
  have hshift : (t - e).toNat = 0 := by omega
  unfold shiftToExponent
  simp only [hshift, Int.natCast_zero, add_zero]
  rfl

/-- A mantissa that fits is not shifted. -/
theorem shiftToTargetExponent_fitting (hm : m < 2 ^ 53) (he : -1074 ≤ e) :
    shiftToTargetExponent .binary64 m e .exact = (⟨m, false, false⟩, e) := by
  have htarget : targetOf m e ≤ e := by
    rw [targetOf_eq]
    by_cases h0 : m = 0
    · rw [h0, Nat.log2_zero]
      omega
    · have hlog := (Nat.log2_lt h0).mpr hm
      omega
  rw [shiftToTargetExponent_eq, shiftToExponent_of_ge htarget]
  rfl

/-- A mantissa that rounding has carried to the next power of two is shifted
once. -/
theorem shiftToTargetExponent_carried (he : -1074 ≤ e) :
    shiftToTargetExponent .binary64 (2 ^ 53) e .exact = (⟨2 ^ 52, false, false⟩, e + 1) := by
  have htarget : targetOf (2 ^ 53) e = e + 1 := by
    rw [targetOf_eq, Nat.log2_two_pow]
    omega
  have hshift : (e + 1 - e).toNat = 1 := by omega
  rw [shiftToTargetExponent_eq, htarget, shiftToExponent_of_le (by omega), hshift]
  rfl

/-! ## The rounding interval of a double -/

/-- The numbers that round to `m * 2 ^ q`: half a unit to both sides, a quarter below
where the next smaller double is only half a unit away.  The ends belong to it where
`m` is even. -/
def RoundsTo (m : Nat) (q : Int) (v : ℚ) : Prop :=
  let below : ℚ := if m = 2 ^ 52 ∧ -1074 < q then 1 / 4 else 1 / 2
  if m % 2 = 0 then (m - below) * 2 ^ q ≤ v ∧ v ≤ (m + 1 / 2) * 2 ^ q
  else (m - below) * 2 ^ q < v ∧ v < (m + 1 / 2) * 2 ^ q

theorem roundsTo_self (n : Nat) (q : Int) : RoundsTo n q (n * 2 ^ q) := by
  have hpow : (0 : ℚ) < 2 ^ q := by positivity
  unfold RoundsTo
  split_ifs <;> constructor <;> nlinarith

section RoundsTo

variable {q : Int} {v : ℚ} (hcanonical : Canonical m q) (h : RoundsTo m q v)
include h

theorem RoundsTo.bounds : (m - 1 / 2) * 2 ^ q ≤ v ∧ v ≤ (m + 1 / 2) * 2 ^ q := by
  have hpow : (0 : ℚ) < 2 ^ q := by positivity
  unfold RoundsTo at h
  split_ifs at h <;> constructor <;> nlinarith [h.1, h.2]

theorem RoundsTo.isNearest : IsNearest m (v / 2 ^ q) := by
  have hpow : (0 : ℚ) < 2 ^ q := by positivity
  unfold RoundsTo at h
  unfold IsNearest
  rw [le_div_iff₀ hpow, div_le_iff₀ hpow, lt_div_iff₀ hpow, div_lt_iff₀ hpow]
  split_ifs at h ⊢ <;> constructor <;> nlinarith [h.1, h.2]

include hcanonical

theorem RoundsTo.lt : v < 2 ^ (q + 53) := by
  have hpow : (0 : ℚ) < 2 ^ q := by positivity
  have hm : (m : ℚ) + 1 ≤ 2 ^ 53 := by exact_mod_cast hcanonical.lt
  calc v ≤ (m + 1 / 2) * 2 ^ q := h.bounds.2
    _ < 2 ^ 53 * 2 ^ q := by
      apply mul_lt_mul_of_pos_right _ hpow
      linarith
    _ = 2 ^ (q + 53) := by
      rw [zpow_add₀ two_ne_zero, mul_comm]
      rfl

/-- What rounds to a normal double is no more than one order of magnitude below
it. -/
theorem RoundsTo.ge (hq : -1074 < q) : 2 ^ (q + 51) ≤ v := by
  have hpow : (0 : ℚ) < 2 ^ q := by positivity
  have hm : (2 : ℚ) ^ 52 ≤ m := by
    exact_mod_cast hcanonical.normal.resolve_right (by omega)
  calc (2 : ℚ) ^ (q + 51) = 2 ^ 51 * 2 ^ q := by
        rw [zpow_add₀ two_ne_zero, mul_comm]
        rfl
    _ ≤ (m - 1 / 2) * 2 ^ q := by
      apply mul_le_mul_of_nonneg_right _ hpow.le
      linarith
    _ ≤ v := h.bounds.1

/-- A number that rounds to a normal double but lies below its order of magnitude
rounds to the first number of that order, also from the finer grid below. -/
theorem RoundsTo.of_lt (hq : -1074 < q) (hv : v < 2 ^ (q + 52)) :
    m = 2 ^ 52 ∧ IsNearest (2 ^ 53) (v / 2 ^ (q - 1)) := by
  have hpow : (0 : ℚ) < 2 ^ q := by positivity
  have hv : v < 2 ^ 52 * 2 ^ q := by
    rw [zpow_add₀ two_ne_zero, mul_comm] at hv
    exact hv
  have hge : 2 ^ 52 ≤ m := hcanonical.normal.resolve_right (by omega)
  obtain rfl : m = 2 ^ 52 := by
    by_contra hne
    have hm : (2 : ℚ) ^ 52 + 1 ≤ m := by exact_mod_cast (by omega : 2 ^ 52 + 1 ≤ m)
    have hlow := h.bounds.1
    nlinarith
  have hlow : (2 ^ 52 - 1 / 4) * 2 ^ q ≤ v := by
    unfold RoundsTo at h
    simp only [hq, and_self, if_true] at h
    rw [if_pos (by norm_num)] at h
    exact_mod_cast h.1
  have hfine : v / 2 ^ (q - 1) = 2 * (v / 2 ^ q) := by
    rw [zpow_sub_one₀ two_ne_zero]
    field_simp
  refine ⟨rfl, ?_⟩
  unfold IsNearest
  rw [if_pos (by norm_num), hfine]
  rw [← le_div_iff₀ hpow] at hlow
  rw [← div_lt_iff₀ hpow] at hv
  push_cast
  constructor <;> linarith

end RoundsTo

/-! ## Rounding -/

section Rounding

variable {q : Int} {s : Sign} {n : Nat}

theorem Locates.bounds_of (h : Locates (.ofMantissaAndAccuracy m a) y) : m ≤ y ∧ y < m + 1 := by
  have hmantissa : (ExtendedMantissa.ofMantissaAndAccuracy m a).mantissa = m := by
    rcases a with _ | (_ | _ | _) <;> rfl
  have hbounds := h.bounds
  rwa [hmantissa] at hbounds

theorem Locates.lt_two_zpow (h : Locates (.ofMantissaAndAccuracy m a) y) :
    y * 2 ^ e < 2 ^ ((m.log2 : Int) + 1 + e) := by
  have hpow : (0 : ℚ) < 2 ^ e := by positivity
  have hlog : (m : ℚ) + 1 ≤ 2 ^ (m.log2 + 1) := by exact_mod_cast Nat.lt_log2_self
  have hy : y < 2 ^ (m.log2 + 1) := h.bounds_of.2.trans_le hlog
  rw [zpow_add₀ two_ne_zero, show (m.log2 : Int) + 1 = (m.log2 + 1 : Nat) from rfl, zpow_natCast]
  exact mul_lt_mul_of_pos_right hy hpow

theorem Locates.two_zpow_le (h : Locates (.ofMantissaAndAccuracy m a) y) (hm : m ≠ 0) :
    2 ^ ((m.log2 : Int) + e) ≤ y * 2 ^ e := by
  have hpow : (0 : ℚ) < 2 ^ e := by positivity
  have hlog : (2 : ℚ) ^ m.log2 ≤ m := by exact_mod_cast Nat.log2_self_le hm
  rw [zpow_add₀ two_ne_zero, zpow_natCast]
  exact mul_le_mul_of_nonneg_right (hlog.trans h.bounds_of.1) hpow.le

/-- A number is rounded at the exponent of the double it rounds to, or at the one
below where it lies below the order of magnitude of that double. -/
theorem targetOf_cases (hlocates : Locates (.ofMantissaAndAccuracy m a) y)
    (hbits : e ≤ targetOf m e) (hcanonical : Canonical n q) (h : RoundsTo n q (y * 2 ^ e)) :
    targetOf m e = q ∨ targetOf m e = q - 1 ∧ -1074 < q ∧ y * 2 ^ e < 2 ^ (q + 52) := by
  have hleast := hcanonical.least
  have hbelow := hlocates.lt_two_zpow (e := e)
  have hexponent : ∀ {i j : Int}, (2 : ℚ) ^ i < 2 ^ j → i < j :=
    (zpow_lt_zpow_iff_right₀ one_lt_two).mp
  rw [targetOf_eq] at hbits ⊢
  by_cases hm : m = 0
  · -- without any bits the number is below the least exponent
    rw [hm, Nat.log2_zero] at hbits hbelow ⊢
    by_cases hq : -1074 < q
    · have hlow := hexponent ((h.ge hcanonical hq).trans_lt hbelow)
      omega
    · omega
  · have hhigh := hexponent ((hlocates.two_zpow_le hm).trans_lt (h.lt hcanonical))
    by_cases hq : -1074 < q
    · by_cases hv : y * 2 ^ e < 2 ^ (q + 52)
      · have hlow := hexponent ((h.ge hcanonical hq).trans_lt hbelow)
        have hless := hexponent ((hlocates.two_zpow_le hm).trans_lt hv)
        exact .inr ⟨by omega, hq, hv⟩
      · have hlow := hexponent ((not_lt.mp hv).trans_lt hbelow)
        omega
    · omega

/-- Any number within the rounding interval of a double, located with enough bits,
is rounded to that double. -/
theorem roundWithAccuracy_eq (hlocates : Locates (.ofMantissaAndAccuracy m a) y)
    (hbits : e ≤ targetOf m e) (hcanonical : Canonical n q) (h : RoundsTo n q (y * 2 ^ e)) :
    roundWithAccuracy .binary64 s m e a = .finite s n q hcanonical.pos := by
  have hshifted :
      Locates (ExtendedMantissa.ofMantissaAndAccuracy m a >>> (targetOf m e - e).toNat)
        (y * 2 ^ e / 2 ^ targetOf m e) := by
    have hvalue : y * 2 ^ e / 2 ^ targetOf m e = y / 2 ^ (targetOf m e - e).toNat := by
      rw [← zpow_natCast, Int.toNat_of_nonneg (by omega), zpow_sub₀ two_ne_zero]
      field_simp
    rw [hvalue]
    exact hlocates.shiftRight _
  unfold roundWithAccuracy
  rw [shiftToTargetExponent_eq, shiftToExponent_of_le hbits]
  simp only
  rcases targetOf_cases hlocates hbits hcanonical h with hq | ⟨hq, hleast, hv⟩
  · rw [hq] at hshifted ⊢
    rw [hshifted.roundedMantissa_eq h.isNearest,
      shiftToTargetExponent_fitting hcanonical.lt hcanonical.least]
    exact dif_neg hcanonical.pos.ne'
  · obtain ⟨rfl, hnearest⟩ := h.of_lt hcanonical hleast hv
    rw [hq] at hshifted ⊢
    rw [hshifted.roundedMantissa_eq hnearest, shiftToTargetExponent_carried (by omega)]
    simp only
    rw [dif_neg (by norm_num)]
    exact finite_congr rfl (by omega)

end Rounding

end Binary64
end LiftedPomdp
