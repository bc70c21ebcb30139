import LiftedPomdp.Proofs.Float.Faithful
import LiftedPomdp.Value

/-!
# The doubles of integers

An integer is rounded to a double, exactly up to `2 ^ 53`. Where the sum of two
integers of 64 bits leaves these bits, so does the sum of their doubles; the
product of the doubles misses the range by 1024 at most (`Follows`).
-/

namespace LiftedPomdp
namespace Binary64

open Float.Model Float.Model.UnpackedFloat

/-! ## Numbers between doubles -/

theorem value_ofParts {u : UnpackedFloat} (h : Regular u) : value (ofParts u) = numberOf u := by
  rw [value, unpack_ofParts_of_regular h]

theorem abs_numberOf {s : Sign} {m : ℕ} {q : ℤ} {hm : 0 < m} :
    |numberOf (.finite s m q hm)| = m * 2 ^ q := by
  rw [numberOf, abs_mul, abs_of_pos (by positivity : (0 : ℚ) < 2 ^ q)]
  cases s <;> simp [Sign.apply]

/-- What is packed to a finite double has not overflown. -/
theorem regular_of_isFinite {u : UnpackedFloat} (hu : Regular u ∨ Overflows u)
    (hfinite : (ofParts u).isFinite = true) : Regular u := by
  rcases hu with hu | hu
  · exact hu
  · cases u with
    | finite s m q hm =>
        have hinfinity : ofParts (.finite s m q hm) = ofParts (.infinity s) := by
          simp only [ofParts, Float.Model.pack, pack_of_lt hu.2]
        rw [hinfinity] at hfinite
        cases s <;> cases hfinite
    | _ => exact hu.elim

theorem value_round {s : Sign} {m : ℕ} {e : ℤ} (hbits : e ≤ targetOf m e)
    (hfinite : (ofParts (roundWithAccuracy .binary64 s m e .exact)).isFinite = true) :
    value (ofParts (roundWithAccuracy .binary64 s m e .exact)) =
      s.apply (roundedAt m e .exact) * 2 ^ targetOf m e := by
  rw [value_ofParts (regular_of_isFinite (regular_or_overflows hbits) hfinite),
    numberOf_roundWithAccuracy hbits]

theorem exists_double {w : ℚ} (h : IsDouble w) : ∃ y : Float, y.isFinite = true ∧ value y = w := by
  obtain rfl | ⟨m, q, hcanonical, habs⟩ := h
  · exact ⟨ofParts (.zero .positive), isFinite_ofParts_of_regular trivial, value_ofParts trivial⟩
  · have hregular : ∀ s, Regular (.finite s m q hcanonical.pos) := fun _ => hcanonical
    rcases abs_cases w with ⟨hw, _⟩ | ⟨hw, _⟩
    · refine ⟨_, isFinite_ofParts_of_regular (hregular .positive), ?_⟩
      rw [value_ofParts (hregular _), numberOf_positive, ← habs, hw]
    · refine ⟨_, isFinite_ofParts_of_regular (hregular .negative), ?_⟩
      rw [value_ofParts (hregular _), numberOf_negative, ← habs, hw, neg_neg]

/-- What lies between doubles is rounded to a finite double. -/
theorem Faithful.isFinite {v w : ℚ} {x : Float} (h : Faithful v x) (hw : IsDouble w)
    (hle : |v| ≤ w) : x.isFinite = true := by
  obtain ⟨hlow, hhigh⟩ := abs_le.mp hle
  obtain ⟨y, hy, rfl⟩ := exists_double hw
  obtain ⟨z, hz, hvalue⟩ := exists_double hw.neg
  exact isFinite_of_le_of_le hz hy (h.le hz (hvalue ▸ hlow)) (h.ge hy hhigh)

section Faithful

variable {v w : ℚ} {x : Float} (h : Faithful v x) (hx : x.isFinite = true) (hw : IsDouble w)
include h hx hw

theorem Faithful.le_value (hle : w ≤ v) : w ≤ value x := by
  obtain ⟨y, hy, rfl⟩ := exists_double hw
  exact (le_iff hy hx).mp (h.le hy hle)

theorem Faithful.value_le (hge : v ≤ w) : value x ≤ w := by
  obtain ⟨y, hy, rfl⟩ := exists_double hw
  exact (le_iff hx hy).mp (h.ge hy hge)

theorem Faithful.le_abs_value (hle : w ≤ |v|) : w ≤ |value x| := by
  rcases le_or_gt 0 v with hv | hv
  · rw [abs_of_nonneg hv] at hle
    exact (h.le_value hx hw hle).trans (le_abs_self _)
  · rw [abs_of_neg hv] at hle
    have hneg := h.value_le hx hw.neg (le_neg.mpr hle)
    exact (le_neg.mpr hneg).trans (neg_le_abs _)

end Faithful

theorem IsExact.exponent_nonpos {n m : ℕ} {q : ℤ} (hn : n < 2 ^ 53) (hm : 2 ^ 52 ≤ m)
    (h : (m * 2 ^ q : ℚ) = n) : q ≤ 0 := by
  by_contra hpos
  have hm' : (2 : ℚ) ^ 52 ≤ m := by exact_mod_cast hm
  have hpow : (2 : ℚ) ^ (1 : ℤ) ≤ 2 ^ q := zpow_le_zpow_right₀ one_le_two (by omega)
  have hlarge : (2 : ℚ) ^ 53 ≤ n := by
    calc (2 : ℚ) ^ 53 = 2 ^ 52 * 2 ^ (1 : ℤ) := by norm_num
      _ ≤ (m : ℚ) * 2 ^ q := mul_le_mul hm' hpow (by positivity) (by positivity)
      _ = n := h
  exact absurd hn (not_lt.mpr (by exact_mod_cast hlarge))

/-- A number of 53 bits with zeros behind them is a double. -/
theorem isDouble_of_lt {n k : ℕ} (hn : n < 2 ^ 53) (hk : k ≤ 971) :
    IsDouble (n * 2 ^ k : ℚ) := by
  rcases n.eq_zero_or_pos with rfl | hpos
  · exact .inl (by norm_num)
  obtain ⟨m, q, hcanonical, hfull, -, hvalue⟩ := isExact_toFloat hpos hn
  have hq := IsExact.exponent_nonpos hn hfull hvalue
  have hleast := hcanonical.least
  refine .inr ⟨m, q + k, ⟨hcanonical.pos, hcanonical.lt, by omega, by omega, .inl hfull⟩, ?_⟩
  rw [abs_of_nonneg (by positivity), zpow_add₀ two_ne_zero, zpow_natCast, ← mul_assoc, hvalue]

/-! ## Natural numbers -/

theorem targetOf_ofNat {n : ℕ} (h : 2 ^ 53 ≤ n) : targetOf (n <<< 53) (-53) = n.log2 - 52 := by
  have hlog : 53 ≤ n.log2 := (Nat.le_log2 (by omega)).mpr h
  rw [targetOf_eq, log2_shiftLeft (by omega)]
  omega

theorem bits_ofNat {n : ℕ} (h : 2 ^ 53 ≤ n) : (-53 : ℤ) ≤ targetOf (n <<< 53) (-53) := by
  have hlog : 53 ≤ n.log2 := (Nat.le_log2 (by omega)).mpr h
  rw [targetOf_ofNat h]
  omega

theorem shifted_ofNat (n : ℕ) : ((n <<< 53 : ℕ) : ℚ) * 2 ^ (-53 : ℤ) = n := by
  rw [Nat.shiftLeft_eq, zpow_neg, Nat.cast_mul, mul_assoc]
  norm_num

theorem rounded_ofNat (n : ℕ) : Rounded n (Float.ofNat n) := by
  change Rounded n (Float.ofScientific n false 0)
  rcases n.eq_zero_or_pos with rfl | hpos
  · have hzero : Float.ofScientific 0 false 0 = ofParts (.zero .positive) := by decide +kernel
    rw [hzero, Nat.cast_zero]
    exact .zero .positive
  by_cases hsmall : n < 2 ^ 53
  · obtain ⟨m, q, hcanonical, hexact, hvalue⟩ := exists_ofScientific_of_lt hpos hsmall
    rw [hexact, ← hvalue, ← numberOf_positive]
    exact rounded_regular hcanonical
  · have hround := Rounded.round (s := .positive) (m := n <<< 53) (e := -53)
      (by rw [Nat.shiftLeft_eq]; positivity) (bits_ofNat (not_lt.mp hsmall))
    rwa [Sign.apply, Int.cast_natCast, shifted_ofNat, ← ofScientific_of_ge (not_lt.mp hsmall)]
      at hround

/-- A natural number of 53 bits is a double itself. -/
theorem value_ofNat_of_lt {n : ℕ} (h : n < 2 ^ 53) : value (Float.ofNat n) = n := by
  have hfaithful := (rounded_ofNat n).faithful
  have hfinite : (Float.ofNat n).isFinite = true := isFinite_ofNat (by omega)
  have hdouble : IsDouble n := by
    have hscaled := isDouble_of_lt h (Nat.zero_le 971)
    rwa [pow_zero, mul_one] at hscaled
  exact le_antisymm (hfaithful.value_le hfinite hdouble le_rfl)
    (hfaithful.le_value hfinite hdouble le_rfl)

/-- A greater one is rounded to a multiple of the power of two that belongs to
its 53rd bit, and by half of it at most. -/
theorem ofNat_bounds {n : ℕ} (h : 2 ^ 53 ≤ n) (hlt : n < 2 ^ 64) :
    ∃ r : ℕ, value (Float.ofNat n) = r * 2 ^ (n.log2 - 52) ∧
      |value (Float.ofNat n) - n| ≤ 2 ^ (n.log2 - 52) / 2 := by
  have hlog : 53 ≤ n.log2 := (Nat.le_log2 (by omega)).mpr h
  have htarget : (2 : ℚ) ^ targetOf (n <<< 53) (-53) = 2 ^ (n.log2 - 52) := by
    rw [targetOf_ofNat h, ← zpow_natCast]
    congr 1
    omega
  have hround : Float.ofNat n =
      ofParts (roundWithAccuracy .binary64 .positive (n <<< 53) (-53) .exact) :=
    ofScientific_of_ge h
  have hfinite : (Float.ofNat n).isFinite = true := isFinite_ofNat hlt
  have hvalue : value (Float.ofNat n) =
      roundedAt (n <<< 53) (-53) .exact * 2 ^ (n.log2 - 52) := by
    rw [hround] at hfinite ⊢
    rw [value_round (bits_ofNat h) hfinite, htarget, Sign.apply, Int.cast_natCast]
  obtain ⟨hlow, hhigh⟩ := rounded_bounds (bits_ofNat h)
  rw [htarget, shifted_ofNat] at hlow hhigh
  refine ⟨_, hvalue, ?_⟩
  rw [hvalue, abs_le]
  constructor <;> linarith

/-- The least integer beyond the signed ones of 64 bits is a double. -/
theorem isDouble_two_pow_63 : IsDouble (2 ^ 63) := by
  have hdouble := isDouble_of_lt (n := 2 ^ 52) (k := 11) (by norm_num) (by norm_num)
  norm_num at hdouble ⊢
  exact hdouble

theorem isDouble_zero : IsDouble 0 := .inl rfl

section OfNat

variable {a b n : ℕ}

theorem value_ofNat_nonneg (hn : n < 2 ^ 64) : 0 ≤ value (Float.ofNat n) :=
  (rounded_ofNat n).faithful.le_value (isFinite_ofNat hn) isDouble_zero (Nat.cast_nonneg n)

/-- Below `2 ^ 63` a number of 63 bits is rounded to a multiple of 1024. -/
theorem ofNat_bounds_63 (hlow : 2 ^ 62 ≤ n) (hhigh : n < 2 ^ 63) :
    ∃ r : ℕ, value (Float.ofNat n) = r * 1024 ∧ |value (Float.ofNat n) - n| ≤ 512 := by
  have hlog : n.log2 = 62 := by
    have h62 : 62 ≤ n.log2 := (Nat.le_log2 (by omega)).mpr hlow
    have h63 : n.log2 < 63 := (Nat.log2_lt (by omega)).mpr hhigh
    omega
  obtain ⟨r, hr, herror⟩ := ofNat_bounds (by omega : 2 ^ 53 ≤ n) (by omega)
  rw [hlog] at hr herror
  norm_num at hr herror
  exact ⟨r, hr, herror⟩

/-- Rounding takes no more than the fraction `2 ^ -53` away. -/
theorem le_value_ofNat (hn : n < 2 ^ 64) : (n - n / 2 ^ 53 : ℚ) ≤ value (Float.ofNat n) := by
  by_cases hsmall : n < 2 ^ 53
  · rw [value_ofNat_of_lt hsmall]
    have hnonneg : (0 : ℚ) ≤ n / 2 ^ 53 := by positivity
    linarith
  · obtain ⟨r, -, herror⟩ := ofNat_bounds (not_lt.mp hsmall) hn
    have hlog : 53 ≤ n.log2 := (Nat.le_log2 (by omega)).mpr (not_lt.mp hsmall)
    have hself : (2 : ℚ) ^ n.log2 ≤ n := by exact_mod_cast Nat.log2_self_le (by omega)
    have hhalf : (2 : ℚ) ^ (n.log2 - 52) / 2 = 2 ^ n.log2 / 2 ^ 53 := by
      rw [pow_sub₀ _ two_ne_zero (by omega)]
      ring
    have hlow := (abs_le.mp herror).1
    rw [hhalf] at hlow
    have hfraction : (2 : ℚ) ^ n.log2 / 2 ^ 53 ≤ n / 2 ^ 53 :=
      div_le_div_of_nonneg_right hself (by positivity)
    linarith

/-- The doubles of two numbers that reach `2 ^ 63` together reach the numbers
that are rounded to it. -/
theorem le_add_value (ha : a ≤ 2 ^ 63) (hb : b ≤ 2 ^ 63) (hab : 2 ^ 63 ≤ a + b) :
    (2 ^ 63 - 512 : ℚ) ≤ value (Float.ofNat a) + value (Float.ofNat b) := by
  wlog hle : b ≤ a generalizing a b
  · rw [add_comm]
    exact this hb ha (by omega) (by omega)
  have hb0 := value_ofNat_nonneg (n := b) (by omega)
  rcases ha.lt_or_eq with hlt | rfl
  · obtain ⟨r, hr, herror⟩ := ofNat_bounds_63 (by omega : 2 ^ 62 ≤ a) hlt
    have hlow := (abs_le.mp herror).1
    have hsum : (2 : ℚ) ^ 63 ≤ a + b := by exact_mod_cast hab
    have hhalf : (2 : ℚ) ^ 62 ≤ a := by exact_mod_cast (by omega : 2 ^ 62 ≤ a)
    rcases le_or_gt (2 ^ 63 - 512 : ℚ) (value (Float.ofNat a)) with hreached | hmissing
    · linarith
    · -- what is missing is a multiple of 512 that is no greater than `b`
      have hr53 : r < 2 ^ 53 := by
        rw [hr] at hmissing
        exact_mod_cast (by linarith : (r : ℚ) < 2 ^ 53)
      have hr52 : 2 ^ 52 ≤ r := by
        rw [hr] at hlow
        have hnext : (2 : ℚ) ^ 52 < r + 1 := by linarith
        exact Nat.lt_succ_iff.mp (by exact_mod_cast hnext)
      obtain ⟨j, hj⟩ : ∃ j, j + 2 * r + 1 = 2 ^ 54 := ⟨2 ^ 54 - 2 * r - 1, by omega⟩
      have hj' : (j : ℚ) + 2 * r + 1 = 2 ^ 54 := by exact_mod_cast hj
      have hdouble : IsDouble (j * 2 ^ 9) := isDouble_of_lt (by omega) (by norm_num)
      have hmissed : (j * 2 ^ 9 : ℚ) ≤ value (Float.ofNat b) :=
        (rounded_ofNat b).faithful.le_value (isFinite_ofNat (by omega)) hdouble (by linarith)
      linarith
  · have hexact := (rounded_ofNat (2 ^ 63)).faithful.le_value (isFinite_ofNat (by norm_num))
      isDouble_two_pow_63 (by norm_num)
    linarith

/-- The doubles of two numbers whose product reaches `2 ^ 63` miss it by 1024 at
most. -/
theorem le_mul_value (ha : a ≤ 2 ^ 63) (hb : b ≤ 2 ^ 63) (hab : 2 ^ 63 ≤ a * b) :
    (2 ^ 63 - 1024 : ℚ) ≤ value (Float.ofNat a) * value (Float.ofNat b) := by
  wlog hle : a ≤ b generalizing a b
  · rw [mul_comm]
    exact this hb ha (by rwa [mul_comm]) (by omega)
  have hproduct : (2 : ℚ) ^ 63 ≤ a * b := by exact_mod_cast hab
  have hlow := le_value_ofNat (n := b) (by omega)
  by_cases hsmall : a < 2 ^ 53
  · rw [value_ofNat_of_lt hsmall]
    have hscaled : (a : ℚ) * (b - b / 2 ^ 53) ≤ a * value (Float.ofNat b) :=
      mul_le_mul_of_nonneg_left hlow (Nat.cast_nonneg a)
    linarith
  · have hlarge : ∀ {n : ℕ}, 2 ^ 53 ≤ n → n ≤ 2 ^ 63 → (2 ^ 52 : ℚ) ≤ value (Float.ofNat n) := by
      intro n hn hn'
      have hn'' : (2 : ℚ) ^ 53 ≤ n := by exact_mod_cast hn
      have hlow := le_value_ofNat (n := n) (by omega)
      linarith
    have hmul := mul_le_mul (hlarge (not_lt.mp hsmall) ha) (hlarge (by omega) hb) (by positivity)
      (value_ofNat_nonneg (by omega))
    norm_num at hmul ⊢
    linarith

end OfNat

/-! ## Rounding to `2 ^ 63` -/

theorem rounded_self {x : Float} (hx : x.isFinite = true) : Rounded (value x) x := by
  have hround := rounded_regular (regular_unpack hx)
  rwa [← eq_ofParts_unpack] at hround

/-- Numbers no more than 512 below `2 ^ 63` are rounded to it, the one at this
distance because the significand of `2 ^ 63` is even. -/
theorem Rounded.le_abs_value {v : ℚ} {x : Float} (h : Rounded v x) (hx : x.isFinite = true)
    (hv : 2 ^ 63 - 512 ≤ |v|) : 2 ^ 63 ≤ |value x| := by
  rcases le_or_gt (2 ^ 63) |v| with hlarge | hsmall
  · exact h.faithful.le_abs_value hx isDouble_two_pow_63 hlarge
  cases h with
  | zero s => norm_num at hv
  | @round s m e hm hbits =>
      have habs : |((s.apply m : ℤ) : ℚ) * 2 ^ e| = m * 2 ^ e := @abs_numberOf s m e hm
      rw [habs] at hv hsmall
      have hcanonical : Canonical (2 ^ 52) 11 := by
        refine ⟨by norm_num, by norm_num, by norm_num, by norm_num, .inl le_rfl⟩
      have hrounds : RoundsTo (2 ^ 52) 11 (m * 2 ^ e) := by
        unfold RoundsTo
        norm_num
        norm_num at hv hsmall
        constructor <;> linarith
      have hlocates : Locates (.ofMantissaAndAccuracy m .exact) m := rfl
      have hregular : Regular (.finite s (2 ^ 52) 11 hcanonical.pos) := hcanonical
      rw [roundWithAccuracy_eq hlocates hbits hcanonical hrounds, value_ofParts hregular]
      cases s <;> norm_num [numberOf, Sign.apply]

theorem Rounded.le_value {v : ℚ} {x : Float} (h : Rounded v x) (hx : x.isFinite = true)
    (hv : 2 ^ 63 - 512 ≤ v) : 2 ^ 63 ≤ value x := by
  have hnonneg := h.faithful.le_value hx isDouble_zero (by linarith)
  rw [← abs_of_nonneg hnonneg]
  exact h.le_abs_value hx (hv.trans (le_abs_self v))

theorem Rounded.value_le {v : ℚ} {x : Float} (h : Rounded v x) (hx : x.isFinite = true)
    (hv : v ≤ -(2 ^ 63 - 512)) : value x ≤ -2 ^ 63 := by
  have hnonpos := h.faithful.value_le hx isDouble_zero (by linarith)
  have hlarge := h.le_abs_value hx ((le_neg.mpr hv).trans (neg_le_abs v))
  rw [abs_of_nonpos hnonpos] at hlarge
  linarith

/-! ## Integers -/

theorem value_neg {x : Float} (hx : x.isFinite = true) : value (-x) = -value x := by
  have hneg : -x = ofParts x.toModel.unpack.neg := rfl
  rw [hneg, value_ofParts (regular_neg (regular_unpack hx)), numberOf_neg]
  rfl

theorem value_ofInt {n : ℤ} (hn : n.natAbs < 2 ^ 64) :
    value (Float.ofInt n) = n.sign * value (Float.ofNat n.natAbs) := by
  cases n with
  | ofNat n =>
      rcases n.eq_zero_or_pos with rfl | hpos
      · rw [show Float.ofInt (.ofNat 0) = Float.ofNat 0 from rfl, value_ofNat_of_lt (by norm_num)]
        norm_num
      · have hsign : (Int.ofNat n).sign = 1 := Int.sign_eq_one_of_pos (by simpa using hpos)
        rw [hsign, Int.cast_one, one_mul]
        rfl
  | negSucc n =>
      have hfinite : (Float.ofNat (n + 1)).isFinite = true := isFinite_ofNat hn
      change value (-Float.ofNat (n + 1)) = _
      rw [value_neg hfinite]
      simp

/-! ## Whole doubles -/

/-- A number without bits for a fraction becomes an integer as it is. -/
theorem roundToInt_eq (s : Sign) (m k : ℕ) : roundToInt s m (k : ℤ) = s.apply (m * 2 ^ k : ℕ) := by
  have hshift : ((k : ℤ) - 0).toNat = k := by omega
  unfold roundToInt decreaseExponent
  simp only [hshift, sub_self]
  rw [shiftToExponent_of_ge le_rfl, Nat.shiftLeft_eq]
  rfl

/-- A finite double that has no bits left for a fraction becomes the integer that
it is, clamped to 64 bits. -/
theorem exists_whole {x : Float} (hx : x.isFinite = true) (hlarge : 2 ^ 53 ≤ |value x|) :
    ∃ n : ℤ, value x = n ∧ isWhole x = true ∧ x.toModel.toInt64 = Int64.ofIntClamp n := by
  have hregular := regular_unpack hx
  unfold value isWhole Float.Model.toInt64 Float.Model.UnpackedFloat.toInt64 at *
  cases hunpack : x.toModel.unpack with
  | notANumber =>
      rw [hunpack] at hregular
      exact hregular.elim
  | infinity s =>
      rw [hunpack] at hregular
      exact hregular.elim
  | zero s =>
      rw [hunpack, numberOf_zero] at hlarge
      norm_num at hlarge
  | finite s m q hm =>
      rw [hunpack] at hregular hlarge
      rw [abs_numberOf] at hlarge
      have hm' : (m : ℚ) < 2 ^ 53 := by exact_mod_cast hregular.lt
      have hq : 0 ≤ q := by
        by_contra hneg
        have hpow : (2 : ℚ) ^ q ≤ 1 := zpow_le_one_of_nonpos₀ one_le_two (by omega)
        have hle : (m : ℚ) * 2 ^ q ≤ m := mul_le_of_le_one_right (Nat.cast_nonneg m) hpow
        linarith
      lift q to ℕ using hq
      refine ⟨s.apply (m * 2 ^ q : ℕ), ?_, by simp, ?_⟩
      · cases s <;> simp [numberOf, Sign.apply]
      · rw [Float.Model.UnpackedFloat.toInt, roundToInt_eq]

/-! ## Sums and products of integers -/

section Bounds

variable {a b : ℤ} (ha : a.natAbs ≤ 2 ^ 63) (hb : b.natAbs ≤ 2 ^ 63)

include ha

theorem isFinite_ofInt_of_natAbs_le : (Float.ofInt a).isFinite = true :=
  isFinite_ofInt (by omega) (by omega)

theorem value_ofInt_neg : value (Float.ofInt (-a)) = -value (Float.ofInt a) := by
  rw [value_ofInt (by omega), value_ofInt (by omega), Int.sign_neg, Int.natAbs_neg, Int.cast_neg,
    neg_mul]

theorem abs_value_ofInt_le : |value (Float.ofInt a)| ≤ 2 ^ 63 := by
  have hlt : a.natAbs < 2 ^ 64 := by omega
  have hle : value (Float.ofNat a.natAbs) ≤ 2 ^ 63 :=
    (rounded_ofNat _).faithful.value_le (isFinite_ofNat hlt) isDouble_two_pow_63
      (by exact_mod_cast ha)
  have hsign : |(a.sign : ℚ)| ≤ 1 := by
    rcases lt_trichotomy a 0 with hneg | rfl | hpos
    · rw [Int.sign_eq_neg_one_of_neg hneg]
      norm_num
    · norm_num
    · rw [Int.sign_eq_one_of_pos hpos]
      norm_num
  rw [value_ofInt hlt, abs_mul, abs_of_nonneg (value_ofNat_nonneg hlt)]
  exact (mul_le_of_le_one_left (value_ofNat_nonneg hlt) hsign).trans hle

include hb

theorem le_add_ofInt (h : 2 ^ 63 ≤ a + b) :
    (2 ^ 63 - 512 : ℚ) ≤ value (Float.ofInt a) + value (Float.ofInt b) := by
  lift a to ℕ using (by omega)
  lift b to ℕ using (by omega)
  exact le_add_value ha hb (by omega)

theorem add_ofInt_le (h : a + b ≤ -2 ^ 63) :
    value (Float.ofInt a) + value (Float.ofInt b) ≤ -(2 ^ 63 - 512 : ℚ) := by
  have hneg := le_add_ofInt (a := -a) (b := -b) (by omega) (by omega) (by omega)
  rw [value_ofInt_neg ha, value_ofInt_neg hb] at hneg
  linarith

theorem mul_ofInt_eq : value (Float.ofInt a) * value (Float.ofInt b) =
    (a * b).sign * (value (Float.ofNat a.natAbs) * value (Float.ofNat b.natAbs)) := by
  rw [value_ofInt (by omega), value_ofInt (by omega), Int.sign_mul, Int.cast_mul]
  ring

theorem le_mul_ofInt (h : 2 ^ 63 ≤ a * b) :
    (2 ^ 63 - 1024 : ℚ) ≤ value (Float.ofInt a) * value (Float.ofInt b) := by
  rw [mul_ofInt_eq ha hb, Int.sign_eq_one_of_pos (by omega), Int.cast_one, one_mul]
  apply le_mul_value ha hb
  rw [← Int.natAbs_mul]
  omega

theorem mul_ofInt_le (h : a * b ≤ -2 ^ 63) :
    value (Float.ofInt a) * value (Float.ofInt b) ≤ -(2 ^ 63 - 1024 : ℚ) := by
  have hneg := le_mul_ofInt (a := -a) (b := b) (by omega) hb (by
    rw [neg_mul]
    omega)
  rw [value_ofInt_neg ha] at hneg
  linarith

end Bounds

/-! ## Results beyond 64 bits -/

/-- A finite double lies beyond the signed integers of 64 bits where an integer
does, or no further within them than some slack. -/
structure Follows (slack : ℚ) (n : ℤ) (x : Float) : Prop where
  finite : x.isFinite = true
  above : 2 ^ 63 ≤ n → 2 ^ 63 - slack ≤ value x
  below : n ≤ -2 ^ 63 → value x ≤ -(2 ^ 63 - slack)

/-- The numbers that arithmetic on the doubles of integers comes to are far from
the greatest doubles. -/
theorem isDouble_two_pow_126 : IsDouble (2 ^ 126) := by
  have hdouble := isDouble_of_lt (n := 1) (k := 126) (by norm_num) (by norm_num)
  rwa [Nat.cast_one, one_mul] at hdouble

section Follows

variable {a b : ℤ} (ha : a.natAbs ≤ 2 ^ 63) (hb : b.natAbs ≤ 2 ^ 63)
include ha hb

theorem follows_of_rounded {x : Float}
    (h : Rounded (value (Float.ofInt a) + value (Float.ofInt b)) x) : Follows 0 (a + b) x := by
  have hfinite : x.isFinite = true := by
    refine h.faithful.isFinite isDouble_two_pow_126 ((abs_add_le _ _).trans ?_)
    have hsum := add_le_add (abs_value_ofInt_le ha) (abs_value_ofInt_le hb)
    norm_num at hsum ⊢
    linarith
  refine ⟨hfinite, fun hn => ?_, fun hn => ?_⟩
  · rw [sub_zero]
    exact h.le_value hfinite (le_add_ofInt ha hb hn)
  · rw [sub_zero]
    exact h.value_le hfinite (add_ofInt_le ha hb hn)

theorem follows_add : Follows 0 (a + b) (Float.ofInt a + Float.ofInt b) :=
  follows_of_rounded ha hb
    (rounded_add (isFinite_ofInt_of_natAbs_le ha) (isFinite_ofInt_of_natAbs_le hb))

theorem follows_sub : Follows 0 (a - b) (Float.ofInt a - Float.ofInt b) := by
  have hround := rounded_sub (isFinite_ofInt_of_natAbs_le ha) (isFinite_ofInt_of_natAbs_le hb)
  rw [sub_eq_add_neg, ← value_ofInt_neg hb] at hround
  exact follows_of_rounded ha (by omega) hround

omit hb in
theorem follows_neg : Follows 0 (-a) (-Float.ofInt a) := by
  have hfinite := isFinite_ofInt_of_natAbs_le ha
  have hzero : value (Float.ofInt 0) = 0 := by
    rw [value_ofInt (by norm_num), Int.sign_zero, Int.cast_zero, zero_mul]
  have hround := rounded_self (isFinite_neg hfinite)
  rw [value_neg hfinite, ← value_ofInt_neg ha, ← zero_add (value _), ← hzero] at hround
  have hfollows := follows_of_rounded (a := 0) (by norm_num) (by omega) hround
  rwa [zero_add] at hfollows

theorem follows_mul : Follows 1024 (a * b) (Float.ofInt a * Float.ofInt b) := by
  have hround := rounded_mul (isFinite_ofInt_of_natAbs_le ha) (isFinite_ofInt_of_natAbs_le hb)
  have hfinite : (Float.ofInt a * Float.ofInt b).isFinite = true := by
    refine hround.faithful.isFinite isDouble_two_pow_126 ?_
    rw [abs_mul]
    have hproduct := mul_le_mul (abs_value_ofInt_le ha) (abs_value_ofInt_le hb) (abs_nonneg _)
      (by positivity)
    norm_num at hproduct ⊢
    linarith
  have hdouble : IsDouble (2 ^ 63 - 1024) := by
    have hdouble := isDouble_of_lt (n := 2 ^ 53 - 1) (k := 10) (by norm_num) (by norm_num)
    norm_num at hdouble ⊢
    exact hdouble
  refine ⟨hfinite, fun h => ?_, fun h => ?_⟩
  · exact hround.faithful.le_value hfinite hdouble (le_mul_ofInt ha hb h)
  · exact hround.faithful.value_le hfinite hdouble.neg (mul_ofInt_le ha hb h)

end Follows

end Binary64
end LiftedPomdp
