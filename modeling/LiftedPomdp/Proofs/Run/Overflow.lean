import LiftedPomdp.Proofs.Effects.Parallel
import LiftedPomdp.Proofs.Float.Integer
import LiftedPomdp.Run.Engine

/-!
# Integers beyond 64 bits

Sums, differences, products and opposites of integers are exact as long as they
have 64 bits, and computed with reals where they do not.  Such a real is whole,
so that an integer fluent accepts it and holds the nearest integer that it can:
the result of a step that has left the 64 bits is held as one that has not.
-/

namespace LiftedPomdp

open Binary64 Effects

/-! ## Clamped integers -/

theorem toInt_ofIntClamp (n : ℤ) : (Int64.ofIntClamp n).toInt =
    max Int64.minValue.toInt (min n Int64.maxValue.toInt) := by
  have hmin : Int64.minValue.toInt = -9223372036854775808 := rfl
  have hmax : Int64.maxValue.toInt = 9223372036854775807 := rfl
  unfold Int64.ofIntClamp
  split_ifs with hlow hhigh
  · rw [Int64.toInt_ofIntLE]
    omega
  · omega
  · omega

theorem int64?_eq_some_iff {n : ℤ} {k : Int64} : int64? n = some k ↔ k.toInt = n := by
  have hlow := k.minValue_le_toInt
  have hhigh := k.toInt_le
  unfold int64?
  split_ifs with hfits
  · rw [Option.some.injEq]
    constructor
    · rintro rfl
      exact Int64.toInt_ofInt_of_le hfits.1 (Int.lt_of_le_sub_one hfits.2)
    · rintro rfl
      exact Int64.ofInt_toInt k
  · simp only [false_iff]
    rintro rfl
    exact hfits ⟨hlow, hhigh⟩

theorem not_fits_of_int64? {n : ℤ} (h : int64? n = none) :
    ¬(Int64.minValue.toInt ≤ n ∧ n ≤ Int64.maxValue.toInt) := by
  intro hfits
  rw [int64?, if_pos hfits] at h
  cases h

/-- An integer is held for the exact result `n`: `n` itself exactly where it has
64 bits, and the end of the range on its side where it does not, up to some
slack. -/
structure HeldFor (slack : ℕ) (n : ℤ) (k : Int64) : Prop where
  exact_iff : k.toInt = n ↔ Int64.minValue.toInt ≤ n ∧ n ≤ Int64.maxValue.toInt
  clamped : |k.toInt - (Int64.ofIntClamp n).toInt| ≤ slack

/-- How far what is held for a result of an operation can be from the end of the
range. -/
def ArithOp.slack : ArithOp → ℕ
  | .mul => 1024
  | _ => 0

theorem HeldFor.of_eq {slack : ℕ} {n : ℤ} {k : Int64} (h : k.toInt = n) : HeldFor slack n k := by
  have hlow := k.minValue_le_toInt
  have hhigh := k.toInt_le
  rw [h] at hlow hhigh
  refine ⟨iff_of_true h ⟨hlow, hhigh⟩, ?_⟩
  rw [Int64.toInt_ofIntClamp hlow hhigh, h, sub_self, abs_zero]
  exact Int.natCast_nonneg slack

/-- A double that follows a result beyond 64 bits is accepted for it. -/
theorem HeldFor.of_follows {slack : ℕ} {n : ℤ} {x : Float} (h : Follows slack n x)
    (hslack : slack ≤ 1024) (hn : ¬(Int64.minValue.toInt ≤ n ∧ n ≤ Int64.maxValue.toInt)) :
    ∃ k, (Value.real x).coerce .int = some (.int k) ∧ HeldFor slack n k := by
  have hmin : Int64.minValue.toInt = -9223372036854775808 := rfl
  have hmax : Int64.maxValue.toInt = 9223372036854775807 := rfl
  have hslack' : (slack : ℚ) ≤ 1024 := by exact_mod_cast hslack
  have hside : (2 ^ 63 ≤ n ∧ 2 ^ 63 - slack ≤ value x) ∨
      (n ≤ -2 ^ 63 ∧ value x ≤ -(2 ^ 63 - slack)) := by
    by_cases hpos : 2 ^ 63 ≤ n
    · exact .inl ⟨hpos, h.above hpos⟩
    · have hneg : n ≤ -2 ^ 63 := by omega
      exact .inr ⟨hneg, h.below hneg⟩
  have hlarge : 2 ^ 53 ≤ |value x| := by
    rw [le_abs]
    rcases hside with ⟨-, hx⟩ | ⟨-, hx⟩
    · left
      linarith
    · right
      linarith
  obtain ⟨N, hN, hwhole, hclamp⟩ := exists_whole h.finite hlarge
  have hbeyond : (2 ^ 63 ≤ n ∧ 2 ^ 63 - (slack : ℤ) ≤ N) ∨
      (n ≤ -2 ^ 63 ∧ N ≤ -(2 ^ 63 - (slack : ℤ))) := by
    rw [hN] at hside
    refine hside.imp (And.imp_right fun hx => ?_) (And.imp_right fun hx => ?_)
    · rw [← Int.cast_le (R := ℚ)]
      push_cast
      exact hx
    · rw [← Int.cast_le (R := ℚ)]
      push_cast
      exact hx
  refine ⟨Int64.ofIntClamp N, ?_, ?_, ?_⟩
  · rw [Value.coerce, if_pos hwhole, hclamp]
  · refine iff_of_false ?_ hn
    rintro rfl
    exact hn ⟨Int64.minValue_le_toInt _, Int64.toInt_le _⟩
  · rw [toInt_ofIntClamp, toInt_ofIntClamp, abs_le]
    omega

/-! ## Arithmetic -/

namespace Value

theorem toReal_of_int? {v : Value} {a : Int64} (h : v.int? = some a) :
    v.toReal = Float.ofInt a.toInt := by
  cases v with
  | bool b =>
      obtain rfl := Option.some.inj h
      cases b <;> decide +kernel
  | int n =>
      obtain rfl := Option.some.inj h
      rfl
  | real x => cases h

theorem natAbs_toInt_le (a : Int64) : a.toInt.natAbs ≤ 2 ^ 63 := by
  have hlow := a.minValue_le_toInt
  have hhigh := a.toInt_le
  have hmin : Int64.minValue.toInt = -9223372036854775808 := rfl
  have hmax : Int64.maxValue.toInt = 9223372036854775807 := rfl
  omega

/-- The reals that stand in for a result. -/
theorem exists_onReals? {op : ArithOp} {a b n : ℤ} (ha : a.natAbs ≤ 2 ^ 63)
    (hb : b.natAbs ≤ 2 ^ 63) (hn : op.onInts? a b = some n) :
    ∃ x, op.onReals? (Float.ofInt a) (Float.ofInt b) = some x ∧ Follows op.slack n x := by
  cases op with
  | add =>
      obtain rfl := Option.some.inj hn
      exact ⟨_, rfl, by simpa [ArithOp.slack] using follows_add ha hb⟩
  | sub =>
      obtain rfl := Option.some.inj hn
      exact ⟨_, rfl, by simpa [ArithOp.slack] using follows_sub ha hb⟩
  | mul =>
      obtain rfl := Option.some.inj hn
      exact ⟨_, rfl, by simpa [ArithOp.slack] using follows_mul ha hb⟩
  | div => cases hn

theorem coerce_arith {op : ArithOp} {v w : Value} {a b : Int64} {n : ℤ} (hv : v.int? = some a)
    (hw : w.int? = some b) (hn : op.onInts? a.toInt b.toInt = some n) :
    ∃ r k, arith? op v w = some r ∧ r.coerce .int = some (.int k) ∧ HeldFor op.slack n k := by
  have hresult : integerResult? op v w = int64? n := by
    simp only [integerResult?, hv, hw, hn, Option.bind_some]
  cases hfits : int64? n with
  | some k =>
      refine ⟨.int k, k, ?_, rfl, HeldFor.of_eq (int64?_eq_some_iff.mp hfits)⟩
      rw [arith?, hresult, hfits]
  | none =>
      obtain ⟨x, hx, hfollows⟩ := exists_onReals? (natAbs_toInt_le a) (natAbs_toInt_le b) hn
      have hslack : op.slack ≤ 1024 := by cases op <;> decide
      obtain ⟨k, hk, hheld⟩ := HeldFor.of_follows hfollows hslack (not_fits_of_int64? hfits)
      refine ⟨.real x, k, ?_, hk, hheld⟩
      rw [arith?, hresult, hfits, toReal_of_int? hv, toReal_of_int? hw, hx]
      rfl

theorem coerce_opposite {v : Value} {a : Int64} (hv : v.int? = some a) :
    ∃ k, v.opposite.coerce .int = some (.int k) ∧ HeldFor 0 (-a.toInt) k := by
  cases hfits : int64? (-a.toInt) with
  | some k =>
      refine ⟨k, ?_, HeldFor.of_eq (int64?_eq_some_iff.mp hfits)⟩
      simp only [opposite, hv, hfits]
      rfl
  | none =>
      have hfollows := follows_neg (natAbs_toInt_le a)
      rw [← Nat.cast_zero, ← toReal_of_int? hv] at hfollows
      have hreal : v.opposite = .real (-v.toReal) := by simp only [opposite, hv, hfits]
      rw [hreal]
      exact HeldFor.of_follows hfollows (Nat.zero_le _) (not_fits_of_int64? hfits)

end Value

/-! ## Evaluation -/

/-- An expression computes an integer exactly, as the sum, the difference, the
product or the opposite of integers or booleans that its parts come to; the
slack is that of the operation. -/
inductive Node.Computes (c : Context) : Node → Walk → ℕ → ℤ → Walk → Prop
  | arith {op : ArithOp} {l r : Node} {u u' u'' : Walk} {v w : Value} {a b : Int64} {n : ℤ}
      (hl : (Node.value c l).run u = (.ok v, u')) (hr : (Node.value c r).run u' = (.ok w, u''))
      (hv : v.int? = some a) (hw : w.int? = some b)
      (hn : op.onInts? a.toInt b.toInt = some n) : Computes c (.arith op l r) u op.slack n u''
  | neg {e : Node} {u u' : Walk} {v : Value} {a : Int64}
      (he : (Node.value c e).run u = (.ok v, u')) (hv : v.int? = some a) :
      Computes c (.neg e) u 0 (-a.toInt) u'

theorem Node.Computes.exists_value {c : Context} {e : Node} {u u' : Walk} {slack : ℕ} {n : ℤ}
    (h : Node.Computes c e u slack n u') :
    ∃ v k, (Node.value c e).run u = (.ok v, u') ∧ v.coerce .int = some (.int k) ∧
      HeldFor slack n k := by
  cases h with
  | arith hl hr hv hw hn =>
      obtain ⟨v, k, harith, hk, hheld⟩ := Value.coerce_arith hv hw hn
      refine ⟨v, k, ?_, hk, hheld⟩
      rw [Node.value, run_bind_of_ok hl, run_bind_of_ok hr, Context.arith, harith]
      rfl
  | neg he hv =>
      obtain ⟨k, hk, hheld⟩ := Value.coerce_opposite hv
      refine ⟨_, k, ?_, hk, hheld⟩
      rw [Node.value, run_bind_of_ok he]
      rfl

theorem Work.checked_int {b : FluentBlock} (hb : b.range = .int) {label : String} {v : Value}
    {k : Int64} (hv : v.coerce .int = some (.int k)) (w : Workspace) :
    (Work.checked b label v).run w = (.ok (.int k), w) := by
  rw [Work.checked, hb, hv]
  rfl

/-- An expression that is no distribution is drawn from as its value. -/
theorem Node.run_draw {c : Context} {e : Node} {u u' : Walk} {slack : ℕ} {n : ℤ} {v : Value}
    (h : Node.Computes c e u slack n u') (hv : (Node.value c e).run u = (.ok v, u')) :
    (Node.distribution c e >>= Eval.draw).run u = (.ok v, u') := by
  have hpoint : (Node.distribution c e).run u = (.ok (.kronDelta v), u') := by
    cases h with
    | arith =>
        simp only [Node.distribution]
        rw [run_bind_of_ok hv]
        rfl
    | neg =>
        simp only [Node.distribution]
        rw [run_bind_of_ok hv]
        rfl
  rw [run_bind_of_ok hpoint]
  rfl

/-- Whatever integer an expression computes, exactly or beyond 64 bits, an integer
fluent that is drawn from the expression accepts its value.  The integer that is
held is the exact one where this has 64 bits, and where it has not the end of the
range, from which a product can be 1024 away; no step fails for it. -/
theorem integers_held {c : Context} {e : Node} {u u' : Walk} {slack : ℕ} {n : ℤ}
    (h : Node.Computes c e u slack n u') {b : FluentBlock} (hb : b.range = .int) (label : String)
    (w : Workspace) :
    ∃ v k, (Node.value c e).run u = (.ok v, u') ∧
      (Node.distribution c e >>= Eval.draw).run u = (.ok v, u') ∧
      (Work.checked b label v).run w = (.ok (.int k), w) ∧ HeldFor slack n k := by
  obtain ⟨v, k, hv, hk, hheld⟩ := h.exists_value
  exact ⟨v, k, hv, Node.run_draw h hv, Work.checked_int hb hk w, hheld⟩

/-! ## A full counter -/

namespace Tally

/-- A fluent that counts. -/
def counter : FluentBlock where
  name := "count"
  kind := .state
  range := .int
  params := []
  default := .int 0
  offset := 0
  strides := []
  size := 1

/-- The counter has reached the greatest integer. -/
def full : Context where
  types := #[]
  blocks := #[counter]
  snapshot := .current #[] #[.int Int64.maxValue] #[]
  label := "count"

/-- The counter is increased by one. -/
def increased : Node :=
  .arith .add (.read 0 .state .current []) (.const (.int 1))

def start : Walk where
  slots := #[]
  sampler := .ofSeed 0

def workspace : Workspace where
  next := #[.int 0]
  observed := #[]
  slots := #[]
  sampler := .ofSeed 0

theorem computes_increased :
    Node.Computes full increased start 0 (Int64.maxValue.toInt + 1) start :=
  .arith (a := Int64.maxValue) (b := 1) rfl rfl rfl rfl rfl

/-- One more than the greatest integer is held as the greatest integer. -/
theorem integers_held_full :
    Node.Computes full increased start 0 (Int64.maxValue.toInt + 1) start ∧ counter.range = .int ∧
      ∃ v, (Node.value full increased).run start = (.ok v, start) ∧
        (Work.checked counter "count" v).run workspace = (.ok (.int Int64.maxValue), workspace) := by
  obtain ⟨v, k, hv, -, hk, hheld⟩ :=
    integers_held computes_increased (b := counter) rfl "count" workspace
  have hclamp : (Int64.ofIntClamp (Int64.maxValue.toInt + 1)).toInt = Int64.maxValue.toInt := by
    decide +kernel
  have hsame : k.toInt = Int64.maxValue.toInt := by
    rw [← hclamp, ← sub_eq_zero, ← abs_nonpos_iff]
    exact hheld.clamped
  obtain rfl := Int64.toInt_inj.mp hsame
  exact ⟨computes_increased, rfl, v, hv, hk⟩

/-- So what an integer fluent accepts is not always the exact result. -/
theorem not_integers_exact :
    ¬∀ (c : Context) (e : Node) (u u' : Walk) (slack : ℕ) (n : ℤ),
      Node.Computes c e u slack n u' → ∀ (b : FluentBlock) (label : String) (w : Workspace)
        (v : Value) (k : Int64), b.range = .int → (Node.value c e).run u = (.ok v, u') →
          (Work.checked b label v).run w = (.ok (.int k), w) → k.toInt = n := by
  intro hexact
  let v : Value := .real (Float.ofInt Int64.maxValue.toInt + Float.ofInt 1)
  have hv : (Node.value full increased).run start = (.ok v, start) := rfl
  have hk : v.coerce .int = some (.int Int64.maxValue) := by decide +kernel
  have hheld := hexact full increased start start 0 _ computes_increased counter "count" workspace
    v Int64.maxValue rfl hv (Work.checked_int rfl hk workspace)
  exact absurd hheld (by decide +kernel)

end Tally

end LiftedPomdp
