import Mathlib

/-!
# The format of the doubles

A finite double other than zero is `m * 2 ^ q` for a significand `m` below `2 ^ 53`
and an exponent `q` between `-1074` and `971`, where only the least exponent allows
significands below `2 ^ 52`.  Packing such a number and unpacking its bits are
inverse to each other.
-/

namespace LiftedPomdp
namespace Binary64

open Float.Model Float.Model.UnpackedFloat

/-- The significand and the exponent of a finite double other than zero. -/
structure Canonical (m : Nat) (q : Int) : Prop where
  pos : 0 < m
  lt : m < 2 ^ 53
  least : -1074 ≤ q
  greatest : q ≤ 971
  normal : 2 ^ 52 ≤ m ∨ q = -1074

/-! ## The fields of the bits -/

/-- The sign of some bits. -/
def signOf (b : BitVec 64) : Sign :=
  .ofBitVec (@unpackSign .binary64 b)

/-- The biased exponent of some bits. -/
def exponentOf (b : BitVec 64) : BitVec 11 :=
  @unpackExponent .binary64 b

/-- The significand of some bits, without the leading one of a normal number. -/
def fractionOf (b : BitVec 64) : BitVec 52 :=
  @unpackMantissa .binary64 b

section Fields

variable (s : Sign) (e : BitVec 11) (f : BitVec 52)

theorem signOf_packComponents : signOf (packComponents .binary64 s e f) = s := by
  rw [signOf, unpackSign_packComponents, Sign.ofBitVec_toBitVec]

theorem exponentOf_packComponents : exponentOf (packComponents .binary64 s e f) = e :=
  unpackExponent_packComponents

theorem fractionOf_packComponents : fractionOf (packComponents .binary64 s e f) = f :=
  unpackMantissa_packComponents

end Fields

theorem toNat_one_append (v : BitVec 52) : (1#1 ++ v).toNat = 2 ^ 52 + v.toNat := by
  rw [BitVec.toNat_append, ← Nat.shiftLeft_add_eq_or_of_lt v.isLt, Nat.shiftLeft_eq]
  rfl

theorem biasedExponent_eq (q : Int) :
    (q + (Format.binary64.exponentBias : Int) + (52 : Nat)).toNat = (q + 1075).toNat := by
  rw [add_assoc]
  rfl

theorem finite_congr {s : Sign} {m m' : Nat} {q q' : Int} {h : 0 < m} {h' : 0 < m'} (hm : m = m')
    (hq : q = q') : UnpackedFloat.finite s m q h = .finite s m' q' h' := by
  subst hm hq
  rfl

/-- What some bits spell, by their fields. -/
theorem unpack_eq (b : BitVec 64) :
    UnpackedFloat.unpack .binary64 b =
      if exponentOf b = 2047#11 then
        if fractionOf b = 0#52 then .infinity (signOf b) else .notANumber
      else if exponentOf b = 0#11 then
        if h : fractionOf b = 0#52 then .zero (signOf b)
        else .finite (signOf b) (fractionOf b).toNat (-1074)
          (by simpa [BitVec.toNat_pos, BitVec.pos_iff_ne_zero] using h)
      else
        .finite (signOf b) (2 ^ 52 + (fractionOf b).toNat) ((exponentOf b).toNat - 1075)
          (by omega) := by
  unfold UnpackedFloat.unpack
  by_cases hexponent : exponentOf b = 2047#11
  · rw [if_pos (show @unpackExponent .binary64 b = -1#11 from hexponent), if_pos hexponent]
    rfl
  · rw [if_neg (show @unpackExponent .binary64 b ≠ -1#11 from hexponent), if_neg hexponent]
    by_cases hleast : exponentOf b = 0#11
    · rw [if_pos (show @unpackExponent .binary64 b = 0#11 from hleast), if_pos hleast]
      by_cases hfraction : fractionOf b = 0#52
      · rw [dif_pos (show @unpackMantissa .binary64 b = 0#52 from hfraction), dif_pos hfraction]
        rfl
      · rw [dif_neg (show @unpackMantissa .binary64 b ≠ 0#52 from hfraction), dif_neg hfraction]
        refine finite_congr rfl ?_
        change ((exponentOf b).toNat : Int) - 1075 + 1 = -1074
        rw [hleast]
        rfl
    · rw [if_neg (show @unpackExponent .binary64 b ≠ 0#11 from hleast), if_neg hleast]
      exact finite_congr (toNat_one_append _) rfl

theorem log2_eq_iff {m : Nat} (h : m < 2 ^ 53) : m.log2 + 1 = 53 ↔ 2 ^ 52 ≤ m := by
  by_cases hm : m = 0
  · simp [hm]
  · have hlow : 52 ≤ m.log2 ↔ 2 ^ 52 ≤ m := Nat.le_log2 hm
    have hhigh : m.log2 < 53 := (Nat.log2_lt hm).mpr h
    omega

/-- A canonical number is packed with its exponent biased, and with exponent zero
where its significand is small. -/
theorem pack_finite {s : Sign} {m : Nat} {q : Int} {hm : 0 < m} (h : Canonical m q) :
    UnpackedFloat.pack .binary64 (.finite s m q hm) =
      packComponents .binary64 s
        (if 2 ^ 52 ≤ m then BitVec.ofNat 11 (q + 1075).toNat else 0#11) (BitVec.ofNat 52 m) := by
  have hleast := h.least
  have hgreatest := h.greatest
  have hbits : Format.binary64.mantissaBits = 53 := rfl
  unfold UnpackedFloat.pack
  simp only [biasedExponent_eq, hbits]
  rw [if_neg (show ¬2 ^ 11 ≤ (q + 1075).toNat + 1 by omega)]
  by_cases hnormal : 2 ^ 52 ≤ m
  · rw [if_pos hnormal, if_pos ((log2_eq_iff h.lt).mpr hnormal)]
  · rw [if_neg hnormal, if_neg (mt (log2_eq_iff h.lt).mp hnormal)]

/-- A finite double other than zero is canonical. -/
theorem canonical_of_unpack {b : BitVec 64} {s : Sign} {m : Nat} {q : Int} {hm : 0 < m}
    (h : UnpackedFloat.unpack .binary64 b = .finite s m q hm) : Canonical m q := by
  have hfraction := (fractionOf b).isLt
  have hexponent := (exponentOf b).isLt
  rw [unpack_eq] at h
  split_ifs at h with hall hzero hleast hzero
  · cases h
    exact ⟨hm, by omega, le_refl _, by omega, .inr rfl⟩
  · cases h
    have hlow : (exponentOf b).toNat ≠ 0 := fun h => hleast (BitVec.eq_of_toNat_eq h)
    have hhigh : (exponentOf b).toNat ≠ 2047 := fun h => hall (BitVec.eq_of_toNat_eq h)
    exact ⟨hm, by omega, by omega, by omega, .inl (by omega)⟩

theorem unpack_packComponents_normal (s : Sign) {e : BitVec 11} (f : BitVec 52)
    (hall : e ≠ 2047#11) (hleast : e ≠ 0#11) :
    UnpackedFloat.unpack .binary64 (packComponents .binary64 s e f) =
      .finite s (2 ^ 52 + f.toNat) (e.toNat - 1075) (by omega) := by
  rw [unpack_eq]
  simp only [exponentOf_packComponents, fractionOf_packComponents, signOf_packComponents]
  rw [if_neg hall, if_neg hleast]

theorem unpack_packComponents_subnormal (s : Sign) {f : BitVec 52} (hf : f ≠ 0#52) :
    UnpackedFloat.unpack .binary64 (packComponents .binary64 s 0#11 f) =
      .finite s f.toNat (-1074) (by simpa [BitVec.toNat_pos, BitVec.pos_iff_ne_zero] using hf) := by
  rw [unpack_eq]
  simp only [exponentOf_packComponents, fractionOf_packComponents, signOf_packComponents]
  rw [if_neg (by decide), if_pos trivial, dif_neg hf]

/-- Packing and unpacking a canonical number gives it back. -/
theorem unpack_pack {s : Sign} {m : Nat} {q : Int} {hm : 0 < m} (h : Canonical m q) :
    UnpackedFloat.unpack .binary64 (UnpackedFloat.pack .binary64 (.finite s m q hm)) =
      .finite s m q hm := by
  have hlt := h.lt
  have hleast := h.least
  have hgreatest := h.greatest
  rw [pack_finite h]
  by_cases hnormal : 2 ^ 52 ≤ m
  · have hexponent : (BitVec.ofNat 11 (q + 1075).toNat).toNat = (q + 1075).toNat := by
      rw [BitVec.toNat_ofNat]
      omega
    have hfraction : (BitVec.ofNat 52 m).toNat = m - 2 ^ 52 := by
      rw [BitVec.toNat_ofNat]
      omega
    have hne : ∀ k < 2048, (q + 1075).toNat ≠ k →
        BitVec.ofNat 11 (q + 1075).toNat ≠ BitVec.ofNat 11 k := by
      intro k hk hne heq
      have hnat := congrArg BitVec.toNat heq
      rw [hexponent, BitVec.toNat_ofNat] at hnat
      omega
    rw [if_pos hnormal, unpack_packComponents_normal s _ (hne 2047 (by omega) (by omega))
      (hne 0 (by omega) (by omega))]
    exact finite_congr (by omega) (by omega)
  · have hpos := h.pos
    have hfraction : (BitVec.ofNat 52 m).toNat = m := by
      rw [BitVec.toNat_ofNat]
      omega
    have hne : BitVec.ofNat 52 m ≠ 0#52 := by
      intro heq
      have hnat := congrArg BitVec.toNat heq
      rw [hfraction, BitVec.toNat_ofNat] at hnat
      omega
    rw [if_neg hnormal, unpack_packComponents_subnormal s hne]
    exact finite_congr hfraction (h.normal.resolve_left hnormal).symm

/-! ## Doubles -/

/-- The double with the given parts. -/
def ofParts (u : UnpackedFloat) : Float :=
  .ofModel (.pack u)

theorem unpack_ofParts {s : Sign} {m : Nat} {q : Int} {hm : 0 < m} (h : Canonical m q) :
    (ofParts (.finite s m q hm)).toModel.unpack = .finite s m q hm :=
  unpack_pack h

/-- A double is determined by its parts. -/
theorem eq_ofParts_unpack (x : Float) : x = ofParts x.toModel.unpack := by
  obtain ⟨⟨bits, hvalid⟩⟩ := x
  simp only [ofParts, Float.Model.pack, Float.Model.unpack, pack_unpack_of_valid hvalid]

/-- A finite double other than zero is determined by its parts, which are
canonical. -/
theorem eq_ofParts_finite {x : Float} {s : Sign} {m : Nat} {q : Int} {hm : 0 < m}
    (h : x.toModel.unpack = .finite s m q hm) : Canonical m q ∧ x = ofParts (.finite s m q hm) :=
  ⟨canonical_of_unpack h, h ▸ eq_ofParts_unpack x⟩

theorem eq_ofParts_zero {x : Float} {s : Sign} (h : x.toModel.unpack = .zero s) :
    x = ofParts (.zero s) :=
  h ▸ eq_ofParts_unpack x

theorem neg_ofParts {m : Nat} {q : Int} {hm : 0 < m} (h : Canonical m q) :
    -ofParts (.finite .positive m q hm) = ofParts (.finite .negative m q hm) := by
  change ofParts (ofParts (.finite .positive m q hm)).toModel.unpack.neg = _
  rw [unpack_ofParts h]
  rfl

theorem isInf_ofParts {s : Sign} {m : Nat} {q : Int} {hm : 0 < m} (h : Canonical m q) :
    (ofParts (.finite s m q hm)).isInf = false := by
  change (ofParts (.finite s m q hm)).toModel.unpack.isInf = false
  rw [unpack_ofParts h]
  rfl

end Binary64
end LiftedPomdp
