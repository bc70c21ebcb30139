import LiftedPomdp.Proofs.Float.Order

/-!
# Faithful rounding

A number is rounded to a multiple of the power of two at which it is rounded.  A
double of that exponent or a greater one is such a multiple itself, and a double
of a smaller exponent lies below all numbers that are rounded there.  So nothing
is rounded past a double: the sum, the difference and the product of two doubles
are at most a double where the exact result is, and at least a double where the
exact result is.
-/

namespace LiftedPomdp
namespace Binary64

open Float.Model Float.Model.UnpackedFloat

/-- A double lies on the same side of all finite doubles as a number does. -/
structure Faithful (v : ℚ) (x : Float) : Prop where
  le : ∀ {y : Float}, y.isFinite = true → value y ≤ v → y ≤ x
  ge : ∀ {y : Float}, y.isFinite = true → v ≤ value y → x ≤ y

/-! ## Magnitudes -/

theorem IsDouble.exists_canonical_of_pos {w : ℚ} (h : IsDouble w) (hpos : 0 < w) :
    ∃ n q, Canonical n q ∧ w = n * 2 ^ q := by
  obtain rfl | ⟨n, q, hcanonical, habs⟩ := h
  · exact absurd hpos (lt_irrefl 0)
  · rw [abs_of_pos hpos] at habs
    exact ⟨n, q, hcanonical, habs⟩

/-- A double of a smaller exponent lies below everything that is rounded here. -/
theorem magnitude_lt_of_lt {m n : Nat} {e q : Int} (h : Canonical n q) (hq : q < targetOf m e) :
    (n : ℚ) * 2 ^ q < 2 ^ 52 * 2 ^ targetOf m e := by
  have hn : (n : ℚ) < 2 ^ 53 := by exact_mod_cast h.lt
  calc (n : ℚ) * 2 ^ q < 2 ^ 53 * 2 ^ q := mul_lt_mul_of_pos_right hn (by positivity)
    _ = 2 ^ 52 * 2 ^ (q + 1) := by
      rw [zpow_add_one₀ two_ne_zero]
      ring
    _ ≤ 2 ^ 52 * 2 ^ targetOf m e := by
      apply mul_le_mul_of_nonneg_left _ (by positivity)
      exact zpow_le_zpow_right₀ one_le_two (by omega)

/-- A double of a greater exponent is a multiple of the power of two. -/
theorem exists_multiple {m : Nat} {e q : Int} (n : Nat) (hq : targetOf m e ≤ q) :
    ∃ k : Nat, (n : ℚ) * 2 ^ q = k * 2 ^ targetOf m e := by
  refine ⟨n * 2 ^ (q - targetOf m e).toNat, ?_⟩
  have hpow : (2 : ℚ) ^ q = 2 ^ (q - targetOf m e).toNat * 2 ^ targetOf m e := by
    rw [← zpow_natCast, Int.toNat_of_nonneg (by omega), ← zpow_add₀ two_ne_zero, sub_add_cancel]
  rw [hpow]
  push_cast
  ring

/-- A multiple of the power of two that is not more than half a unit above the
rounded number is not above it. -/
theorem multiple_le {k r : Nat} {t : Int} (h : (k : ℚ) * 2 ^ t ≤ (r + 1 / 2) * 2 ^ t) :
    (k : ℚ) * 2 ^ t ≤ r * 2 ^ t := by
  have hpow : (0 : ℚ) < 2 ^ t := by positivity
  have hlt : (k : ℚ) < r + 1 := by
    have hle := le_of_mul_le_mul_right h hpow
    linarith
  have hk : k ≤ r := Nat.lt_succ_iff.mp (by exact_mod_cast hlt)
  exact mul_le_mul_of_nonneg_right (by exact_mod_cast hk) hpow.le

theorem le_multiple {k r : Nat} {t : Int} (h : (r - 1 / 2 : ℚ) * 2 ^ t ≤ k * 2 ^ t) :
    (r : ℚ) * 2 ^ t ≤ k * 2 ^ t := by
  have hpow : (0 : ℚ) < 2 ^ t := by positivity
  have hlt : (r : ℚ) < k + 1 := by
    have hle := le_of_mul_le_mul_right h hpow
    linarith
  have hk : r ≤ k := Nat.lt_succ_iff.mp (by exact_mod_cast hlt)
  exact mul_le_mul_of_nonneg_right (by exact_mod_cast hk) hpow.le

section Magnitudes

variable {m : Nat} {e : Int} {w : ℚ} (hbits : e ≤ targetOf m e)
include hbits

theorem rounded_bounds :
    (roundedAt m e .exact - 1 / 2 : ℚ) * 2 ^ targetOf m e ≤ m * 2 ^ e ∧
      (m * 2 ^ e : ℚ) ≤ (roundedAt m e .exact + 1 / 2) * 2 ^ targetOf m e := by
  have hlocates : Locates (.ofMantissaAndAccuracy m .exact) m := rfl
  have hpow : (0 : ℚ) < 2 ^ targetOf m e := by positivity
  obtain ⟨hlow, hhigh⟩ := roundedAt_bounds hlocates hbits
  exact ⟨(le_div_iff₀ hpow).mp hlow, (div_le_iff₀ hpow).mp hhigh⟩

/-- Above the least exponent a number is rounded with all 53 bits. -/
theorem two_zpow_le_of_lt (ht : -1074 < targetOf m e) :
    (2 : ℚ) ^ 52 * 2 ^ targetOf m e ≤ m * 2 ^ e := by
  rw [targetOf_eq] at hbits ht ⊢
  have hm : m ≠ 0 := by
    rintro rfl
    rw [Nat.log2_zero] at hbits ht
    omega
  have hlow : (2 : ℚ) ^ m.log2 ≤ m := by exact_mod_cast Nat.log2_self_le hm
  calc (2 : ℚ) ^ 52 * 2 ^ (max ((m.log2 : Int) + 1 + e - 53) (-1074)) =
        2 ^ m.log2 * 2 ^ e := by
        rw [max_eq_left (by omega), ← zpow_natCast, ← zpow_natCast, ← zpow_add₀ two_ne_zero,
          ← zpow_add₀ two_ne_zero]
        congr 1
        push_cast
        ring
    _ ≤ m * 2 ^ e := mul_le_mul_of_nonneg_right hlow (by positivity)

theorem two_pow_le_roundedAt (ht : -1074 < targetOf m e) : 2 ^ 52 ≤ roundedAt m e .exact := by
  have hpow : (0 : ℚ) < 2 ^ targetOf m e := by positivity
  have hlow := two_zpow_le_of_lt hbits ht
  have hfull : ((2 ^ 52 : Nat) : ℚ) * 2 ^ targetOf m e ≤
      roundedAt m e .exact * 2 ^ targetOf m e := by
    apply multiple_le
    push_cast
    exact hlow.trans (rounded_bounds hbits).2
  exact_mod_cast le_of_mul_le_mul_right hfull hpow

/-- A number is not rounded below a double that it is not below. -/
theorem le_rounded (hw : IsDouble w) (hle : w ≤ m * 2 ^ e) :
    w ≤ roundedAt m e .exact * 2 ^ targetOf m e := by
  obtain ⟨_, hhigh⟩ := rounded_bounds hbits
  rcases le_or_gt w 0 with hneg | hpos
  · exact hneg.trans (by positivity)
  obtain ⟨n, q, hcanonical, rfl⟩ := hw.exists_canonical_of_pos hpos
  rcases le_or_gt (targetOf m e) q with hq | hq
  · obtain ⟨k, hk⟩ := exists_multiple n hq
    rw [hk] at hle ⊢
    exact multiple_le (hle.trans hhigh)
  · have hleast := hcanonical.least
    have hfull : (2 : ℚ) ^ 52 ≤ roundedAt m e .exact := by
      exact_mod_cast two_pow_le_roundedAt hbits (by omega)
    exact (magnitude_lt_of_lt hcanonical hq).le.trans
      (mul_le_mul_of_nonneg_right hfull (by positivity))

/-- A number is not rounded above a double that it is not above. -/
theorem rounded_le (hm : 0 < m) (hw : IsDouble w) (hge : m * 2 ^ e ≤ w) :
    roundedAt m e .exact * 2 ^ targetOf m e ≤ w := by
  obtain ⟨hlow, _⟩ := rounded_bounds hbits
  have hm' : (0 : ℚ) < m := by exact_mod_cast hm
  have hpos : 0 < w := lt_of_lt_of_le (by positivity) hge
  obtain ⟨n, q, hcanonical, rfl⟩ := hw.exists_canonical_of_pos hpos
  rcases le_or_gt (targetOf m e) q with hq | hq
  · obtain ⟨k, hk⟩ := exists_multiple n hq
    rw [hk] at hge ⊢
    exact le_multiple (hlow.trans hge)
  · have hleast := hcanonical.least
    have hlow := two_zpow_le_of_lt hbits (by omega)
    exact absurd (hlow.trans hge) (not_le.mpr (magnitude_lt_of_lt hcanonical hq))

end Magnitudes

/-! ## Numbers beyond the doubles -/

/-- The parts belong to a number beyond the finite doubles. -/
def Overflows : UnpackedFloat → Prop
  | .finite _ m q _ => 2 ^ 52 ≤ m ∧ 971 < q
  | _ => False

theorem two_pow_le_magnitude {m : Nat} {q : Int} (hm : 2 ^ 52 ≤ m) (hq : 971 < q) :
    (2 : ℚ) ^ 1024 ≤ m * 2 ^ q := by
  have hm' : (2 : ℚ) ^ 52 ≤ m := by exact_mod_cast hm
  have hsplit : (2 : ℚ) ^ 1024 = 2 ^ 52 * 2 ^ (972 : Int) := by
    rw [show (972 : Int) = (972 : Nat) from rfl, zpow_natCast, ← pow_add]
  rw [hsplit]
  calc (2 : ℚ) ^ 52 * 2 ^ (972 : Int) ≤ m * 2 ^ (972 : Int) :=
        mul_le_mul_of_nonneg_right hm' (by positivity)
    _ ≤ m * 2 ^ q := by
      apply mul_le_mul_of_nonneg_left _ (by positivity)
      exact zpow_le_zpow_right₀ one_le_two (by omega)

theorem compare_infinity {u : UnpackedFloat} (hu : Regular u) (s : Sign) :
    u.compare (.infinity s) = some (compare (-s) s) := by
  cases u with
  | notANumber => exact hu.elim
  | infinity s' => exact hu.elim
  | zero s' => cases s <;> rfl
  | finite s' m q hm => cases s <;> cases s' <;> rfl

theorem infinity_compare {u : UnpackedFloat} (hu : Regular u) (s : Sign) :
    (UnpackedFloat.infinity s).compare u = some (compare s (-s)) := by
  cases u with
  | notANumber => exact hu.elim
  | infinity s' => exact hu.elim
  | zero s' => cases s <;> rfl
  | finite s' m q hm => cases s <;> cases s' <;> rfl

theorem le_infinity {y : Float} (hy : y.isFinite = true) : y ≤ ofParts (.infinity .positive) := by
  have hunpack : y ≤ ofParts (.infinity .positive) ↔
      (y.toModel.unpack.compare (.infinity .positive)).any (·.isLE) = true :=
    decide_eq_true_iff
  rw [hunpack, compare_infinity (regular_unpack hy)]
  rfl

theorem infinity_le {y : Float} (hy : y.isFinite = true) : ofParts (.infinity .negative) ≤ y := by
  have hunpack : ofParts (.infinity .negative) ≤ y ↔
      ((UnpackedFloat.infinity .negative).compare y.toModel.unpack).any (·.isLE) = true :=
    decide_eq_true_iff
  rw [hunpack, infinity_compare (regular_unpack hy)]
  rfl

section Packing

variable {u : UnpackedFloat} {v : ℚ} (hle : ∀ w, IsDouble w → w ≤ v → w ≤ numberOf u)
  (hge : ∀ w, IsDouble w → v ≤ w → numberOf u ≤ w)

theorem isDouble_value {y : Float} (hy : y.isFinite = true) : IsDouble (value y) :=
  isDouble_numberOf (regular_unpack hy)

include hle hge

theorem faithful_of_regular (hu : Regular u) : Faithful v (ofParts u) := by
  have hfinite : (ofParts u).isFinite = true := isFinite_ofParts_of_regular hu
  have hvalue : value (ofParts u) = numberOf u := by rw [value, unpack_ofParts_of_regular hu]
  constructor
  · intro y hy hyv
    rw [le_iff hy hfinite, hvalue]
    exact hle _ (isDouble_value hy) hyv
  · intro y hy hvy
    rw [le_iff hfinite hy, hvalue]
    exact hge _ (isDouble_value hy) hvy

/-- Beyond the finite doubles the packed double is infinite, and a number is not
on the far side of a finite double there. -/
theorem faithful_of_overflows (hu : Overflows u) : Faithful v (ofParts u) := by
  obtain ⟨s, m, q, hm, rfl⟩ : ∃ s m q hm, u = .finite s m q hm := by
    cases u with
    | finite s m q hm => exact ⟨s, m, q, hm, rfl⟩
    | _ => exact hu.elim
  obtain ⟨hfull, hq⟩ := hu
  have hlarge := two_pow_le_magnitude hfull hq
  have hinfinity : ofParts (.finite s m q hm) = ofParts (.infinity s) := by
    simp only [ofParts, Float.Model.pack, pack_of_lt hq]
  rw [hinfinity]
  cases s with
  | positive =>
      refine ⟨fun hy _ => le_infinity hy, fun {y} hy hvy => ?_⟩
      have hbelow := hge _ (isDouble_value hy) hvy
      have habove := (le_abs_self _).trans_lt (isDouble_value hy).abs_lt
      rw [numberOf_positive] at hbelow
      exact absurd (hbelow.trans_lt habove) (not_lt.mpr hlarge)
  | negative =>
      refine ⟨fun {y} hy hyv => ?_, fun hy _ => infinity_le hy⟩
      have habove := hle _ (isDouble_value hy) hyv
      have hbelow := (neg_le_abs _).trans_lt (isDouble_value hy).abs_lt
      rw [numberOf_negative] at habove
      exact absurd ((le_neg.mpr habove).trans_lt hbelow) (not_lt.mpr hlarge)

/-- Parts that lie on the same side of all doubles as a number are packed to a
double that does. -/
theorem faithful_ofParts (hu : Regular u ∨ Overflows u) : Faithful v (ofParts u) :=
  hu.elim (faithful_of_regular hle hge) (faithful_of_overflows hle hge)

end Packing

/-! ## Rounding -/

section Rounding

variable {s : Sign} {m : Nat} {e : Int}

theorem numberOf_roundWithAccuracy (hbits : e ≤ targetOf m e) :
    numberOf (roundWithAccuracy .binary64 s m e .exact) =
      s.apply (roundedAt m e .exact) * 2 ^ targetOf m e := by
  have hlocates : Locates (.ofMantissaAndAccuracy m .exact) m := rfl
  rcases roundWithAccuracy_cases (s := s) hlocates hbits with
    ⟨hr, hround⟩ | ⟨_, _, hround⟩ | ⟨hr, hround⟩
  · rw [hround, hr]
    cases s <;> simp [numberOf, Sign.apply]
  · rw [hround]
    rfl
  · rw [hround, hr]
    cases s <;> simp [numberOf, Sign.apply, zpow_add_one₀] <;> ring

theorem regular_or_overflows (hbits : e ≤ targetOf m e) :
    Regular (roundWithAccuracy .binary64 s m e .exact) ∨
      Overflows (roundWithAccuracy .binary64 s m e .exact) := by
  have hlocates : Locates (.ofMantissaAndAccuracy m .exact) m := rfl
  have hleast : -1074 ≤ targetOf m e := by
    rw [targetOf_eq]
    omega
  rcases roundWithAccuracy_cases (s := s) hlocates hbits with
    ⟨_, hround⟩ | ⟨hpos, hlt, hround⟩ | ⟨_, hround⟩
  · rw [hround]
    exact .inl trivial
  · rw [hround]
    have hnormal : 2 ^ 52 ≤ roundedAt m e .exact ∨ targetOf m e = -1074 := by
      rcases hleast.lt_or_eq with hlt | heq
      · exact .inl (two_pow_le_roundedAt hbits hlt)
      · exact .inr heq.symm
    rcases le_or_gt (targetOf m e) 971 with hq | hq
    · exact .inl ⟨hpos, hlt, hleast, hq, hnormal⟩
    · exact .inr ⟨hnormal.resolve_right (by omega), hq⟩
  · rw [hround]
    rcases le_or_gt (targetOf m e + 1) 971 with hq | hq
    · exact .inl ⟨by norm_num, by norm_num, by omega, hq, .inl le_rfl⟩
    · exact .inr ⟨le_rfl, hq⟩

theorem faithful_roundWithAccuracy (hm : 0 < m) (hbits : e ≤ targetOf m e) :
    Faithful (s.apply m * 2 ^ e) (ofParts (roundWithAccuracy .binary64 s m e .exact)) := by
  refine faithful_ofParts ?_ ?_ (regular_or_overflows hbits)
  · intro w hw hle
    rw [numberOf_roundWithAccuracy hbits]
    cases s with
    | positive => exact le_rounded hbits hw (by simpa [Sign.apply] using hle)
    | negative =>
        have hge : (m : ℚ) * 2 ^ e ≤ -w := le_neg.mpr (by simpa [Sign.apply] using hle)
        simpa [Sign.apply] using le_neg.mpr (rounded_le hbits hm hw.neg hge)
  · intro w hw hge
    rw [numberOf_roundWithAccuracy hbits]
    cases s with
    | positive => exact rounded_le hbits hm hw (by simpa [Sign.apply] using hge)
    | negative =>
        have hle : -w ≤ (m : ℚ) * 2 ^ e := neg_le.mpr (by simpa [Sign.apply] using hge)
        simpa [Sign.apply] using neg_le.mpr (le_rounded hbits hw.neg hle)

/-- A double is what a number is rounded to. -/
inductive Rounded : ℚ → Float → Prop
  | zero (s : Sign) : Rounded 0 (ofParts (.zero s))
  | round {s : Sign} {m : Nat} {e : Int} (hm : 0 < m) (hbits : e ≤ targetOf m e) :
      Rounded (s.apply m * 2 ^ e) (ofParts (roundWithAccuracy .binary64 s m e .exact))

theorem Rounded.faithful {v : ℚ} {x : Float} (h : Rounded v x) : Faithful v x := by
  cases h with
  | zero s => exact faithful_of_regular (fun _ _ hw => hw) (fun _ _ hw => hw) trivial
  | round hm hbits => exact faithful_roundWithAccuracy hm hbits

theorem canonical_bits (h : Canonical m e) : e ≤ targetOf m e := by
  rw [targetOf_eq]
  rcases h.normal with hm | he
  · have hlog : 52 ≤ m.log2 := (Nat.le_log2 h.pos.ne').mpr hm
    omega
  · omega

/-- A finite double is rounded to itself. -/
theorem rounded_regular {u : UnpackedFloat} (hu : Regular u) : Rounded (numberOf u) (ofParts u) := by
  cases u with
  | notANumber => exact hu.elim
  | infinity s => exact hu.elim
  | zero s => exact .zero s
  | finite s m q hm =>
      have hlocates : Locates (.ofMantissaAndAccuracy m .exact) m := rfl
      have hround := Rounded.round (s := s) hm (canonical_bits hu)
      rwa [roundWithAccuracy_eq hlocates (canonical_bits hu) hu (roundsTo_self m q)] at hround

theorem log2_shiftLeft (hm : 0 < m) (k : Nat) : (m <<< k).log2 = m.log2 + k := by
  rw [Nat.shiftLeft_eq, Nat.log2_eq_iff (by positivity), pow_add, add_right_comm, pow_add]
  constructor
  · exact Nat.mul_le_mul_right _ (Nat.log2_self_le hm.ne')
  · exact Nat.mul_lt_mul_of_pos_right Nat.lt_log2_self (by positivity)

theorem apply_shiftLeft (s : Sign) (m k : Nat) :
    ((s.apply (m <<< k : Nat) : Int) : ℚ) = s.apply m * 2 ^ k := by
  rw [Nat.shiftLeft_eq]
  cases s <;> simp [Sign.apply]

/-- A number is shifted to the exponent at which it is rounded. -/
theorem rounded_round (hm : 0 < m) :
    Rounded (s.apply m * 2 ^ e) (ofParts (UnpackedFloat.round .binary64 s m e)) := by
  let k := (e - targetOf m e).toNat
  have hround : UnpackedFloat.round .binary64 s m e =
      roundWithAccuracy .binary64 s (m <<< k) (e - k) .exact := rfl
  have htarget : targetOf (m <<< k) (e - k) = targetOf m e := by
    rw [targetOf_eq, targetOf_eq, log2_shiftLeft hm]
    push_cast
    ring_nf
  have hbits : e - k ≤ targetOf (m <<< k) (e - k) := by
    rw [htarget]
    omega
  have hvalue : (s.apply (m <<< k : Nat) : ℚ) * 2 ^ (e - k) = s.apply m * 2 ^ e := by
    rw [apply_shiftLeft, zpow_sub₀ two_ne_zero, zpow_natCast]
    field_simp
  rw [hround, ← hvalue]
  exact .round (by rw [Nat.shiftLeft_eq]; positivity) hbits

theorem rounded_normalize (n : Int) (e : Int) (z : Sign) :
    Rounded (n * 2 ^ e) (ofParts (UnpackedFloat.normalize .binary64 n e z)) := by
  rcases lt_trichotomy n 0 with hn | rfl | hn
  · have hround : UnpackedFloat.normalize .binary64 n e z =
        UnpackedFloat.round .binary64 .negative (-n).toNat e := by
      rw [UnpackedFloat.normalize, Int.compare_eq_lt.mpr hn]
    have hvalue : n = Sign.negative.apply (-n).toNat := by
      rw [Sign.apply]
      omega
    rw [hround]
    nth_rewrite 1 [hvalue]
    exact rounded_round (by omega)
  · rw [Int.cast_zero, zero_mul]
    exact .zero z
  · have hround : UnpackedFloat.normalize .binary64 n e z =
        UnpackedFloat.round .binary64 .positive n.toNat e := by
      rw [UnpackedFloat.normalize, Int.compare_eq_gt.mpr hn]
    have hvalue : n = Sign.positive.apply n.toNat := by
      rw [Sign.apply]
      omega
    rw [hround]
    nth_rewrite 1 [hvalue]
    exact rounded_round (by omega)

end Rounding

/-! ## Arithmetic -/

theorem numberOf_shifted {s : Sign} {m : Nat} {q t : Int} {hm : 0 < m} (ht : t ≤ q) :
    numberOf (.finite s m q hm) = (s.apply (m <<< (q - t).toNat : Nat) : Int) * 2 ^ t := by
  have hpow : (2 : ℚ) ^ q = 2 ^ (q - t).toNat * 2 ^ t := by
    rw [← zpow_natCast, Int.toNat_of_nonneg (by omega), ← zpow_add₀ two_ne_zero, sub_add_cancel]
  rw [apply_shiftLeft, numberOf, hpow, mul_assoc]

/-- A difference is the sum with the negated number. -/
theorem sub_eq_add_neg_parts (u v : UnpackedFloat) :
    UnpackedFloat.sub .binary64 u v = UnpackedFloat.add .binary64 u v.neg := by
  cases u with
  | notANumber => rfl
  | infinity s =>
      cases v with
      | infinity s' => rfl
      | _ => rfl
  | zero s => cases v <;> rfl
  | finite s m q hm =>
      cases v with
      | finite s' m' q' hm' =>
          cases s' with
          | positive => rfl
          | negative =>
              change UnpackedFloat.normalize .binary64 (_ - -_) _ _ =
                UnpackedFloat.normalize .binary64 (_ + _) _ _
              rw [sub_neg_eq_add]
              rfl
      | _ => rfl

theorem numberOf_neg (v : UnpackedFloat) : numberOf v.neg = -numberOf v := by
  cases v with
  | finite s m q hm => cases s <;> simp [numberOf, UnpackedFloat.neg, Sign.apply]
  | _ => exact neg_zero.symm

theorem apply_mul (s s' : Sign) (a b : Int) : (s * s').apply (a * b) = s.apply a * s'.apply b := by
  cases s <;> cases s'
  · exact (neg_mul_neg a b).symm
  · exact (neg_mul a b).symm
  · exact (mul_neg a b).symm
  · rfl

/-- Unless both factors are below the normal numbers, their product has all 53
bits. -/
theorem mul_bits {m m' : Nat} {q q' : Int} (h : Canonical m q) (h' : Canonical m' q') :
    q + q' ≤ targetOf (m * m') (q + q') := by
  have hpos := h.pos
  have hpos' := h'.pos
  have hproduct : 2 ^ 52 ≤ m * m' ∨ (q = -1074 ∧ q' = -1074) := by
    rcases h.normal with hm | hq
    · exact .inl (hm.trans (Nat.le_mul_of_pos_right m hpos'))
    · rcases h'.normal with hm' | hq'
      · exact .inl (hm'.trans (Nat.le_mul_of_pos_left m' hpos))
      · exact .inr ⟨hq, hq'⟩
  rw [targetOf_eq]
  rcases hproduct with hfull | ⟨rfl, rfl⟩
  · have hlog : 52 ≤ (m * m').log2 := (Nat.le_log2 (by positivity)).mpr hfull
    omega
  · omega

section Parts

variable {u v : UnpackedFloat} (hu : Regular u) (hv : Regular v)

include hu hv in
theorem rounded_add_parts :
    Rounded (numberOf u + numberOf v) (ofParts (UnpackedFloat.add .binary64 u v)) := by
  cases u with
  | notANumber => exact hu.elim
  | infinity s => exact hu.elim
  | zero s =>
      rw [numberOf_zero, zero_add]
      cases v with
      | notANumber => exact hv.elim
      | infinity s' => exact hv.elim
      | zero s' => cases s <;> cases s' <;> exact .zero _
      | finite s' m' q' hm' => exact rounded_regular hv
  | finite s m q hm =>
      cases v with
      | notANumber => exact hv.elim
      | infinity s' => exact hv.elim
      | zero s' =>
          rw [numberOf_zero, add_zero]
          exact rounded_regular hu
      | finite s' m' q' hm' =>
          rw [numberOf_shifted (min_le_left q q'), numberOf_shifted (min_le_right q q'), ← add_mul,
            ← Int.cast_add]
          exact rounded_normalize _ _ _

include hv in
theorem regular_neg : Regular v.neg := by
  cases v with
  | notANumber => exact hv.elim
  | infinity s => exact hv.elim
  | zero s => exact trivial
  | finite s m q hm => exact hv

include hu hv in
theorem rounded_sub_parts :
    Rounded (numberOf u - numberOf v) (ofParts (UnpackedFloat.sub .binary64 u v)) := by
  rw [sub_eq_add_neg_parts, sub_eq_add_neg, ← numberOf_neg]
  exact rounded_add_parts hu (regular_neg hv)

include hu hv in
theorem rounded_mul_parts :
    Rounded (numberOf u * numberOf v) (ofParts (UnpackedFloat.mul .binary64 u v)) := by
  cases u with
  | notANumber => exact hu.elim
  | infinity s => exact hu.elim
  | zero s =>
      rw [numberOf_zero, zero_mul]
      cases v with
      | notANumber => exact hv.elim
      | infinity s' => exact hv.elim
      | zero s' => exact .zero _
      | finite s' m' q' hm' => exact .zero _
  | finite s m q hm =>
      cases v with
      | notANumber => exact hv.elim
      | infinity s' => exact hv.elim
      | zero s' =>
          rw [numberOf_zero, mul_zero]
          exact .zero _
      | finite s' m' q' hm' =>
          have hproduct : numberOf (.finite s m q hm) * numberOf (.finite s' m' q' hm') =
              (s * s').apply (m * m' : Nat) * 2 ^ (q + q') := by
            rw [Nat.cast_mul, apply_mul, Int.cast_mul, zpow_add₀ two_ne_zero, numberOf, numberOf]
            ring
          rw [hproduct]
          exact .round (Nat.mul_pos hm hm') (mul_bits hu hv)

end Parts

section Doubles

variable {x y : Float} (hx : x.isFinite = true) (hy : y.isFinite = true)
include hx hy

theorem rounded_add : Rounded (value x + value y) (x + y) :=
  rounded_add_parts (regular_unpack hx) (regular_unpack hy)

theorem rounded_sub : Rounded (value x - value y) (x - y) :=
  rounded_sub_parts (regular_unpack hx) (regular_unpack hy)

theorem rounded_mul : Rounded (value x * value y) (x * y) :=
  rounded_mul_parts (regular_unpack hx) (regular_unpack hy)

theorem faithful_add : Faithful (value x + value y) (x + y) :=
  (rounded_add hx hy).faithful

theorem faithful_sub : Faithful (value x - value y) (x - y) :=
  (rounded_sub hx hy).faithful

theorem faithful_mul : Faithful (value x * value y) (x * y) :=
  (rounded_mul hx hy).faithful

/-- What lies between finite doubles is finite. -/
theorem isFinite_of_le_of_le {z : Float} (hxz : x ≤ z) (hzy : z ≤ y) : z.isFinite = true := by
  have hlow : (x.toModel.unpack.compare z.toModel.unpack).any (·.isLE) = true :=
    decide_eq_true_iff.mp hxz
  have hhigh : (z.toModel.unpack.compare y.toModel.unpack).any (·.isLE) = true :=
    decide_eq_true_iff.mp hzy
  change z.toModel.unpack.isFinite = true
  cases hz : z.toModel.unpack with
  | zero s => rfl
  | finite s m q hm => rfl
  | notANumber =>
      rw [hz] at hhigh
      cases hhigh
  | infinity s =>
      rw [hz, compare_infinity (regular_unpack hx)] at hlow
      rw [hz, infinity_compare (regular_unpack hy)] at hhigh
      cases s with
      | positive => cases hhigh
      | negative => cases hlow

end Doubles

end Binary64
end LiftedPomdp
