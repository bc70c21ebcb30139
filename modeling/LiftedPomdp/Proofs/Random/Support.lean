import LiftedPomdp.Proofs.Eval.Slots
import LiftedPomdp.Proofs.Float.Faithful

/-!
# What is drawn lies in the support

The words of the stream give reals from zero to one, and coins compare them with
the probability.  A uniform real is the lower bound plus a part of the length of
the interval; as no rounding goes past a double, it is never below the lower
bound, and words whose reals do not stay below the upper one are refused.  All of
this needs the length of the interval to be a double.

The stream has a period, so the draw ends within that many words if it ends at
all.  That some word of the stream is not refused depends on the words, and is
assumed where a value is to be drawn.
-/

namespace LiftedPomdp

open Binary64 Float.Model Float.Model.UnpackedFloat

/-! ## The period of a stream -/

namespace RandomStream

/-- After a period, the words of a stream come again. -/
theorem periodic_word (key : Vector UInt32 8) (stream : UInt64) :
    Function.Periodic (word key stream) period := by
  intro n
  have hblock : (n + period) / 8 = n / 8 + UInt64.size := by
    simp only [period, UInt64.size]
    omega
  have hplace : (n + period) % 8 = n % 8 := by
    simp only [period]
    omega
  have hnumber : UInt64.ofNat (n / 8 + UInt64.size) = UInt64.ofNat (n / 8) := by
    apply UInt64.toNat_inj.mp
    rw [UInt64.toNat_ofNat', UInt64.toNat_ofNat']
    exact Nat.add_mod_right _ _
  simp only [word, hblock, hplace, hnumber]

end RandomStream

/-! ## Doubles with known bits -/

theorem isExact_one : IsExact 1.0 1 := by
  refine ⟨2 ^ 52, -52, ⟨by norm_num, by norm_num, by norm_num, by norm_num, .inl le_rfl⟩, le_rfl,
    ?_, by norm_num⟩
  rfl

/-- The spacing of the reals that a coin is compared with. -/
theorem isExact_spacing : IsExact (Float.ofBits 0x3CA0000000000000) (2 ^ (-53 : Int)) := by
  refine ⟨2 ^ 52, -105, ⟨by norm_num, by norm_num, by norm_num, by norm_num, .inl le_rfl⟩, le_rfl,
    ?_, by norm_num⟩
  rfl

/-- The greatest of the reals that a coin is compared with. -/
theorem isExact_greatest : IsExact (Float.ofBits 0x3FEFFFFFFFFFFFFF) (1 - 2 ^ (-53 : Int)) := by
  refine ⟨2 ^ 53 - 1, -53, ⟨by norm_num, by norm_num, by norm_num, by norm_num, .inl (by norm_num)⟩,
    by norm_num, ?_, by norm_num⟩
  rfl

theorem value_zero : value 0.0 = 0 := rfl

theorem isFinite_zero : (0.0 : Float).isFinite = true := rfl

namespace Sampler

/-! ## Coins -/

/-- A natural number below `2 ^ 53` as a double. -/
theorem toFloat_exact {n : UInt64} (h : n.toNat < 2 ^ 53) :
    n.toFloat.isFinite = true ∧ value n.toFloat = n.toNat := by
  rcases Nat.eq_zero_or_pos n.toNat with hzero | hpos
  · obtain rfl : n = 0 := UInt64.toNat_inj.mp hzero
    exact ⟨rfl, rfl⟩
  · have hexact := isExact_toFloat hpos h
    have hword : n.toNat.toUInt64 = n := UInt64.ofNat_toNat
    rw [hword] at hexact
    exact ⟨hexact.isFinite, hexact.value_eq⟩

/-- The reals that a coin is compared with are not negative and less than one. -/
theorem unitReal_mem (w : UInt64) :
    (unitReal w).isFinite = true ∧ 0 ≤ value (unitReal w) ∧ value (unitReal w) < 1 := by
  have hword : (w >>> 11).toNat < 2 ^ 53 := by
    have hlt := w.toNat_lt
    rw [UInt64.toNat_shiftRight, Nat.shiftRight_eq_div_pow]
    simp
    omega
  obtain ⟨hfinite, hvalue⟩ := toFloat_exact hword
  have hfaithful := faithful_mul hfinite isExact_spacing.isFinite
  rw [hvalue, isExact_spacing.value_eq] at hfaithful
  have hlow : 0.0 ≤ unitReal w := hfaithful.le isFinite_zero (by rw [value_zero]; positivity)
  have hhigh : unitReal w ≤ Float.ofBits 0x3FEFFFFFFFFFFFFF := by
    refine hfaithful.ge isExact_greatest.isFinite ?_
    rw [isExact_greatest.value_eq]
    have hle : ((w >>> 11).toNat : ℚ) ≤ 2 ^ 53 - 1 := by
      have hsucc : ((w >>> 11).toNat : ℚ) + 1 ≤ 2 ^ 53 := by exact_mod_cast hword
      linarith
    have hspacing : (2 ^ 53 - 1) * (2 : ℚ) ^ (-53 : Int) = 1 - 2 ^ (-53 : Int) := by norm_num
    rw [← hspacing]
    exact mul_le_mul_of_nonneg_right hle (by positivity)
  have hunit := isFinite_of_le_of_le isFinite_zero isExact_greatest.isFinite hlow hhigh
  refine ⟨hunit, ?_, ?_⟩
  · rw [le_iff isFinite_zero hunit] at hlow
    exact hlow
  · rw [le_iff hunit isExact_greatest.isFinite, isExact_greatest.value_eq] at hhigh
    have hpos : (0 : ℚ) < 2 ^ (-53 : Int) := by positivity
    linarith

/-! ## Uniform reals -/

theorem fraction_lt (w : UInt64) : w.toNat >>> 12 < 2 ^ 52 := by
  have hlt := w.toNat_lt
  rw [Nat.shiftRight_eq_div_pow]
  omega

/-- The upper bits of a word become the fraction of a number in `[1, 2)`. -/
theorem fraction_bits (w : UInt64) :
    ((0x3FF0000000000000 : UInt64) ||| (w >>> 12)).toBitVec =
      packComponents .binary64 .positive 1023#11 (BitVec.ofNat 52 (w.toNat >>> 12)) := by
  have hfits := fraction_lt w
  apply BitVec.eq_of_toNat_eq
  have hleft : ((0x3FF0000000000000 : UInt64) ||| (w >>> 12)).toBitVec.toNat =
      1023 <<< 52 ||| w.toNat >>> 12 := by
    simp
  have hright : (packComponents .binary64 .positive 1023#11
      (BitVec.ofNat 52 (w.toNat >>> 12))).toNat = 1023 <<< 52 ||| w.toNat >>> 12 := by
    rw [packComponents, BitVec.toNat_append, BitVec.toNat_ofNat, Nat.mod_eq_of_lt hfits]
    rfl
  rw [hleft, hright]

theorem isExact_fraction (w : UInt64) :
    IsExact (Float.ofBits ((0x3FF0000000000000 : UInt64) ||| (w >>> 12)))
      ((1 : ℚ) + (w.toNat >>> 12 : Nat) / 2 ^ 52) := by
  have hfits := fraction_lt w
  have hcanonical : Canonical (2 ^ 52 + w.toNat >>> 12) (-52) :=
    ⟨by omega, by omega, by norm_num, by norm_num, .inl (by omega)⟩
  refine ⟨2 ^ 52 + w.toNat >>> 12, -52, hcanonical, by omega, ?_, ?_⟩
  · have hunpack : UnpackedFloat.unpack .binary64
        ((0x3FF0000000000000 : UInt64) ||| (w >>> 12)).toBitVec =
          .finite .positive (2 ^ 52 + w.toNat >>> 12) (-52) hcanonical.pos := by
      rw [fraction_bits, unpack_packComponents_normal _ _ (by decide) (by decide)]
      refine finite_congr ?_ rfl
      rw [BitVec.toNat_ofNat, Nat.mod_eq_of_lt hfits]
    exact congrArg ofParts hunpack
  · have hpow : (2 : ℚ) ^ (-52 : Int) = 1 / 2 ^ 52 := by norm_num
    rw [hpow]
    push_cast
    ring

/-- The reals of which a uniform real is made are not negative and at most one. -/
theorem unitFraction_mem (w : UInt64) :
    (unitFraction w).isFinite = true ∧ 0 ≤ value (unitFraction w) ∧ value (unitFraction w) ≤ 1 := by
  have hexact := isExact_fraction w
  have hfaithful := faithful_sub hexact.isFinite isExact_one.isFinite
  rw [hexact.value_eq, isExact_one.value_eq, add_sub_cancel_left] at hfaithful
  have hfits : ((w.toNat >>> 12 : Nat) : ℚ) ≤ 2 ^ 52 := by exact_mod_cast (fraction_lt w).le
  have hlow : 0.0 ≤ unitFraction w := hfaithful.le isFinite_zero (by rw [value_zero]; positivity)
  have hhigh : unitFraction w ≤ 1.0 := by
    refine hfaithful.ge isExact_one.isFinite ?_
    rw [isExact_one.value_eq]
    exact div_le_one_of_le₀ hfits (by positivity)
  have hfinite := isFinite_of_le_of_le isFinite_zero isExact_one.isFinite hlow hhigh
  refine ⟨hfinite, ?_, ?_⟩
  · rw [le_iff isFinite_zero hfinite] at hlow
    exact hlow
  · rwa [le_iff hfinite isExact_one.isFinite, isExact_one.value_eq] at hhigh

/-- No word stands for a real below the lower bound. -/
theorem le_realAt {low scale : Float} (hlow : low.isFinite = true)
    (hscale : scale.isFinite = true) (hlength : 0 ≤ value scale) (w : UInt64) :
    low ≤ realAt low scale w := by
  obtain ⟨hunit, hnonneg, hle⟩ := unitFraction_mem w
  have hproduct := faithful_mul hunit hscale
  have hpartLow : 0.0 ≤ unitFraction w * scale :=
    hproduct.le isFinite_zero (by rw [value_zero]; positivity)
  have hpartHigh : unitFraction w * scale ≤ scale :=
    hproduct.ge hscale (mul_le_of_le_one_left hlength hle)
  have hpart := isFinite_of_le_of_le isFinite_zero hscale hpartLow hpartHigh
  have hpartNonneg : 0 ≤ value (unitFraction w * scale) :=
    (le_iff isFinite_zero hpart).mp hpartLow
  exact (faithful_add hpart hlow).le hlow (le_add_of_nonneg_left hpartNonneg)

/-- What is drawn is the real of a word that is not refused. -/
theorem exists_of_trial {low high scale x : Float} {n : Nat} {r r' : RandomStream}
    (h : trial low high scale n r = some (x, r')) : ∃ w, x = realAt low scale w ∧ x < high := by
  induction n generalizing r with
  | zero => cases h
  | succ n ih =>
      rw [trial] at h
      dsimp only at h
      split at h
      next hless =>
        cases h
        exact ⟨_, rfl, hless⟩
      next => exact ih h

/-- Nothing is drawn if and only if all the words are refused. -/
theorem trial_eq_none_iff {low high scale : Float} {n : Nat} {r : RandomStream} :
    trial low high scale n r = none ↔
      ∀ k < n, ¬realAt low scale (RandomStream.word r.key r.stream (r.position + k)) < high := by
  induction n generalizing r with
  | zero => exact ⟨fun _ => nofun, fun _ => rfl⟩
  | succ n ih =>
      have hafter : ∀ k, r.next.2.position + k = r.position + (k + 1) := by
        intro k
        change r.position + 1 + k = _
        omega
      rw [trial]
      dsimp only
      constructor
      · intro hnone k hk
        split at hnone
        next => cases hnone
        next hrefused =>
          cases k with
          | zero => exact hrefused
          | succ k =>
              rw [← hafter]
              exact ih.mp hnone k (by omega)
      · intro hrefused
        have hfirst : ¬realAt low scale r.next.1 < high := hrefused 0 (Nat.succ_pos n)
        rw [if_neg hfirst]
        refine ih.mpr fun k hk => ?_
        rw [hafter]
        exact hrefused (k + 1) (by omega)

end Sampler

/-! ## Distributions -/

namespace Distribution

/-- A point mass, or what a constructor that checks its parameters has accepted. -/
inductive Accepted : Distribution → Prop
  | kronDelta (v : Value) : Accepted (.kronDelta v)
  | diracDelta (x : Float) : Accepted (.diracDelta x)
  | coin {context : String} {p : Float} {d : Distribution} :
      Distribution.coin context p = .ok d → Accepted d
  | interval {context : String} {low high : Float} {d : Distribution} :
      Distribution.interval context low high = .ok d → Accepted d

/-- The values that a distribution may give. -/
def Supports : Distribution → Value → Prop
  | .kronDelta v, w => w = v
  | .diracDelta x, w => w = .real x
  | .bernoulli p, w =>
    ∃ b, w = .bool b ∧ ((p == 0.0) = true → b = false) ∧ ((p == 1.0) = true → b = true)
  | .uniform low high, w => ∃ x, w = .real x ∧ low ≤ x ∧ x < high

/-- The length of an interval is a double. -/
def Bounded : Distribution → Prop
  | .uniform low high => (high - low).isFinite = true
  | _ => True

/-- Some word of a stream, from its place on, stands for a real below the upper
bound. -/
def Settles (r : RandomStream) : Distribution → Prop
  | .uniform low high =>
    ∃ k, Sampler.realAt low (high - low)
      (RandomStream.word r.key r.stream (r.position + k)) < high
  | _ => True

theorem eq_of_coin {context : String} {p : Float} {d : Distribution}
    (h : Distribution.coin context p = .ok d) : d = .bernoulli p ∧ p.isFinite = true := by
  unfold Distribution.coin at h
  split at h
  · rename_i hcheck
    rw [Bool.and_eq_true] at hcheck
    cases h
    exact ⟨rfl, hcheck.1⟩
  · cases h

theorem eq_of_interval {context : String} {low high : Float} {d : Distribution}
    (h : Distribution.interval context low high = .ok d) :
    d = .uniform low high ∧ low.isFinite = true ∧ high.isFinite = true ∧ low < high := by
  unfold Distribution.interval at h
  split at h
  · cases h
  · rename_i hcheck
    simp only [Bool.or_eq_true, Bool.not_eq_true', decide_eq_true_eq, not_or,
      Bool.not_eq_false] at hcheck
    obtain ⟨⟨hlow, hhigh⟩, horder⟩ := hcheck
    cases h
    rw [le_iff hhigh hlow, not_le, ← lt_iff hlow hhigh] at horder
    exact ⟨rfl, hlow, hhigh, horder⟩

end Distribution

namespace Sampler

variable (s : Sampler)

/-- A coin that never falls on one side does not. -/
theorem exists_side {p : Float} (hp : p.isFinite = true) :
    ∃ v, (s.sample (.bernoulli p)).1 = .ok v ∧ Distribution.Supports (.bernoulli p) v := by
  obtain ⟨hunit, hnonneg, hlt⟩ := unitReal_mem s.stream.next.1
  have hdrawn : (s.sample (.bernoulli p)).1 =
      .ok (.bool (decide (unitReal s.stream.next.1 < p))) := rfl
  refine ⟨_, hdrawn, _, rfl, ?_, ?_⟩
  · intro hzero
    rw [beq_iff hp isFinite_zero, value_zero] at hzero
    rw [decide_eq_false_iff_not, lt_iff hunit hp, hzero]
    exact not_lt.mpr hnonneg
  · intro hone
    rw [beq_iff hp isExact_one.isFinite, isExact_one.value_eq] at hone
    rw [decide_eq_true_iff, lt_iff hunit hp, hone]
    exact hlt

/-- A draw from an interval of finite length tries the words of a period. -/
theorem sample_uniform {low high : Float} (horder : low < high)
    (hbounded : (high - low).isFinite = true) :
    (s.sample (.uniform low high)).1 =
      match trial low high (high - low) RandomStream.period s.stream with
      | some (x, _) => .ok (.real x)
      | none => .error (.endlessDraw low high) := by
  rw [sample, hbounded, decide_eq_true horder, Bool.and_self, if_pos rfl]
  cases trial low high (high - low) RandomStream.period s.stream with
  | none => rfl
  | some taken => rfl

/-- A whole period is refused if and only if the draw would never end. -/
theorem trial_period_eq_none_iff {low high : Float} {r : RandomStream} :
    trial low high (high - low) RandomStream.period r = none ↔
      ¬Distribution.Settles r (.uniform low high) := by
  rw [trial_eq_none_iff]
  constructor
  · rintro hrefused ⟨k, hk⟩
    have hperiodic : Function.Periodic
        (fun n => RandomStream.word r.key r.stream (r.position + n)) RandomStream.period := by
      intro n
      dsimp only
      rw [← Nat.add_assoc]
      exact RandomStream.periodic_word r.key r.stream _
    have hpos : 0 < RandomStream.period := by decide
    have hwithin := hrefused _ (Nat.mod_lt k hpos)
    rw [hperiodic.map_mod_nat k] at hwithin
    exact hwithin hk
  · intro hrefused k _ hk
    exact hrefused ⟨k, hk⟩

theorem exists_between {low high : Float} (hlow : low.isFinite = true)
    (hhigh : high.isFinite = true) (horder : low < high)
    (hbounded : (high - low).isFinite = true)
    (hsettles : Distribution.Settles s.stream (.uniform low high)) :
    ∃ v, (s.sample (.uniform low high)).1 = .ok v ∧
      Distribution.Supports (.uniform low high) v := by
  have hlength : 0 ≤ value (high - low) := by
    have hle := (lt_iff hlow hhigh).mp horder
    have hzero : 0.0 ≤ high - low :=
      (faithful_sub hhigh hlow).le isFinite_zero (sub_nonneg.mpr hle.le)
    exact (le_iff isFinite_zero hbounded).mp hzero
  rw [s.sample_uniform horder hbounded]
  rcases htrial : trial low high (high - low) RandomStream.period s.stream with _ | ⟨x, r⟩
  · exact absurd hsettles (trial_period_eq_none_iff.mp htrial)
  · obtain ⟨w, rfl, hless⟩ := exists_of_trial htrial
    exact ⟨_, rfl, _, rfl, le_realAt hlow hbounded hlength w, hless⟩

/-- Every value that is drawn lies in the support, and one is drawn. -/
theorem exists_supported {d : Distribution} (h : d.Accepted) (hbounded : d.Bounded)
    (hsettles : d.Settles s.stream) : ∃ v, (s.sample d).1 = .ok v ∧ d.Supports v := by
  cases h with
  | kronDelta v => exact ⟨_, rfl, rfl⟩
  | diracDelta x => exact ⟨_, rfl, rfl⟩
  | coin hcoin =>
      obtain ⟨rfl, hp⟩ := Distribution.eq_of_coin hcoin
      exact s.exists_side hp
  | interval hinterval =>
      obtain ⟨rfl, hlow, hhigh, horder⟩ := Distribution.eq_of_interval hinterval
      exact s.exists_between hlow hhigh horder hbounded hsettles

/-- Only an interval whose length is beyond the doubles cannot be drawn from. -/
theorem sample_of_not_bounded {d : Distribution} (h : ¬d.Bounded) :
    ∃ low high, d = .uniform low high ∧ (s.sample d).1 = .error (.endlessInterval low high) := by
  cases d with
  | uniform low high =>
      refine ⟨low, high, rfl, ?_⟩
      have hlength : (high - low).isFinite = false := Bool.eq_false_iff.mpr h
      rw [sample, hlength]
      rfl
  | _ => exact absurd trivial h

/-- A draw that refuses every word of the stream goes on for ever. -/
theorem sample_of_not_settles {d : Distribution} (h : d.Accepted) (hbounded : d.Bounded)
    (hsettles : ¬d.Settles s.stream) :
    ∃ low high, d = .uniform low high ∧ (s.sample d).1 = .error (.endlessDraw low high) := by
  cases h with
  | kronDelta v => exact absurd trivial hsettles
  | diracDelta x => exact absurd trivial hsettles
  | coin hcoin =>
      obtain ⟨rfl, _⟩ := Distribution.eq_of_coin hcoin
      exact absurd trivial hsettles
  | @interval _ low high _ hinterval =>
      obtain ⟨rfl, _, _, horder⟩ := Distribution.eq_of_interval hinterval
      refine ⟨low, high, rfl, ?_⟩
      rw [s.sample_uniform horder hbounded, trial_period_eq_none_iff.mpr hsettles]

end Sampler

/-! ## Evaluation -/

section Evaluation

open Effects

variable (c : Context)

theorem Context.accepts_coin (p : Float) :
    Keeps (fun _ => True) (c.coin p) Distribution.Accepted := by
  unfold Context.coin
  cases hcoin : Distribution.coin c.label p with
  | ok d => exact Keeps.value (.coin hcoin)
  | error e => exact Keeps.error _

theorem Context.accepts_interval (low high : Float) :
    Keeps (fun _ => True) (c.interval low high) Distribution.Accepted := by
  unfold Context.interval
  cases hinterval : Distribution.interval c.label low high with
  | ok d => exact Keeps.value (.interval hinterval)
  | error e => exact Keeps.error _

/-- The distributions of an evaluation have parameters that were checked. -/
theorem Node.accepts_distribution (n : Node) :
    Keeps (fun _ => True) (n.distribution c) Distribution.Accepted := by
  fun_induction Node.distribution c n with
  | case1 a => exact (Keeps.vacuous _).bind fun v _ => Keeps.value (.kronDelta v)
  | case2 a => exact (Keeps.vacuous _).bind fun x _ => Keeps.value (.diracDelta x)
  | case3 p => exact (Keeps.vacuous _).bind fun p _ => c.accepts_coin p
  | case4 l h =>
      exact (Keeps.vacuous _).bind fun l _ =>
        (Keeps.vacuous _).bind fun h _ => c.accepts_interval l h
  | case5 cond t e iht ihe =>
      refine (Keeps.vacuous _).bind fun b _ => ?_
      cases b with
      | true => exact iht
      | false => exact ihe
  | case6 n => exact (Keeps.vacuous _).bind fun v _ => Keeps.value (.kronDelta v)

end Evaluation

/-! ## Sampling what an evaluation results in -/

/-- An evaluation results in point masses and in distributions whose parameters
were checked.  From any of these a value of the support is drawn if and only if
the length of an interval is a double and some word of the stream, from its place
on, stands for a real below the upper bound.  The draw fails where the length is no
double, and goes on for ever where every word is refused. -/
theorem sample_supported (c : Context) (n : Node) (w : Walk) (d : Distribution) (s : Sampler) :
    (((n.distribution c).run w).1 = .ok d → d.Accepted) ∧
      (d.Accepted →
        ((∃ v, (s.sample d).1 = .ok v ∧ d.Supports v) ↔ d.Bounded ∧ d.Settles s.stream) ∧
        (¬d.Bounded → ∃ low high, d = .uniform low high ∧
          (s.sample d).1 = .error (.endlessInterval low high)) ∧
        (d.Bounded → ¬d.Settles s.stream → ∃ low high, d = .uniform low high ∧
          (s.sample d).1 = .error (.endlessDraw low high))) := by
  refine ⟨(n.accepts_distribution c w trivial).2 d, fun haccepted => ⟨⟨?_, ?_⟩, ?_, ?_⟩⟩
  · rintro ⟨v, hv, _⟩
    have hbounded : d.Bounded := by
      by_contra hbounded
      obtain ⟨low, high, _, herror⟩ := s.sample_of_not_bounded hbounded
      rw [hv] at herror
      cases herror
    refine ⟨hbounded, ?_⟩
    by_contra hsettles
    obtain ⟨low, high, _, herror⟩ := s.sample_of_not_settles haccepted hbounded hsettles
    rw [hv] at herror
    cases herror
  · rintro ⟨hbounded, hsettles⟩
    exact s.exists_supported haccepted hbounded hsettles
  · exact s.sample_of_not_bounded
  · exact s.sample_of_not_settles haccepted

/-- A real is drawn from the interval that an expression denotes. -/
theorem sample_supported_interval :
    ∃ x, ((Sampler.ofSeed 5).sample (.uniform (-1.0) 2.0)).1 = .ok (.real x) ∧
      -1.0 ≤ x ∧ x < 2.0 := by
  let c : Context :=
    { types := #[], blocks := #[], snapshot := .current #[] #[] #[], label := "x" }
  let w : Walk := { slots := #[], sampler := .ofSeed 5 }
  have hevaluated : (((Node.uniform (.const (.real (-1.0))) (.const (.real 2.0))).distribution
      c).run w).1 = .ok (.uniform (-1.0) 2.0) := by
    decide +kernel
  have hbounded : Distribution.Bounded (.uniform (-1.0) 2.0) := by
    change ((2.0 : Float) - -1.0).isFinite = true
    decide +kernel
  have hsettles : Distribution.Settles (Sampler.ofSeed 5).stream (.uniform (-1.0) 2.0) := by
    refine ⟨0, ?_⟩
    decide +kernel
  obtain ⟨haccepted, hsample⟩ := sample_supported c _ w _ (.ofSeed 5)
  obtain ⟨v, hv, x, rfl, hbounds⟩ :=
    (hsample (haccepted hevaluated)).1.mpr ⟨hbounded, hsettles⟩
  exact ⟨x, hv, hbounds⟩

/-- The interval of all doubles is accepted, and nothing can be drawn from it. -/
theorem sample_endless_doubles :
    Distribution.interval "x" (Float.ofBits 0xFFEFFFFFFFFFFFFF) (Float.ofBits 0x7FEFFFFFFFFFFFFF) =
        .ok (.uniform (Float.ofBits 0xFFEFFFFFFFFFFFFF) (Float.ofBits 0x7FEFFFFFFFFFFFFF)) ∧
      ((Sampler.ofSeed 0).sample (.uniform (Float.ofBits 0xFFEFFFFFFFFFFFFF)
        (Float.ofBits 0x7FEFFFFFFFFFFFFF))).1 =
        .error (.endlessInterval (Float.ofBits 0xFFEFFFFFFFFFFFFF)
          (Float.ofBits 0x7FEFFFFFFFFFFFFF)) := by
  decide +kernel

end LiftedPomdp
