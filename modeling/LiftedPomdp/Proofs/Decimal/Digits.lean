import LiftedPomdp.Decimal.Digits
import Mathlib.Tactic.Ring

/-!
# Decimal digits read back

The digits of a natural number are digit characters, there are as many as its
length says, none but zero starts with a zero, and they denote the number.
-/

namespace LiftedPomdp
namespace Decimal

/-! ## Digit characters -/

theorem toNat_digitChar {d : Nat} (h : d < 10) : (digitChar d).toNat = 48 + d := by
  unfold digitChar Char.ofNat
  rw [dif_pos (show (48 + d).isValidChar from Or.inl (by omega))]
  rfl

theorem digitValue_digitChar {d : Nat} (h : d < 10) : digitValue (digitChar d) = d := by
  rw [digitValue, toNat_digitChar h, Nat.add_sub_cancel_left]

theorem isDigit_digitChar {d : Nat} (h : d < 10) : isDigit (digitChar d) = true := by
  simp only [isDigit, toNat_digitChar h, Bool.and_eq_true, decide_eq_true_eq]
  omega

theorem digitChar_eq_zero_iff {d : Nat} (h : d < 10) : digitChar d = '0' ↔ d = 0 := by
  constructor
  · intro hd
    have hnat := congrArg Char.toNat hd
    rw [toNat_digitChar h] at hnat
    change 48 + d = 48 at hnat
    omega
  · rintro rfl
    rfl

/-! ## The digits of a number -/

theorem length_digits (n : Nat) : (digits n).length = length n := by
  fun_induction digits n with
  | case1 n hn => rw [length, if_pos hn, List.length_singleton]
  | case2 n hn ih => rw [length, if_neg hn, List.length_append, ih, List.length_singleton]

theorem length_pos (n : Nat) : 0 < length n := by
  rw [length]
  split <;> omega

theorem digits_ne_nil (n : Nat) : digits n ≠ [] := by
  rw [← List.length_pos_iff, length_digits]
  exact length_pos n

theorem isDigit_of_mem_digits {n : Nat} {c : Char} (h : c ∈ digits n) : isDigit c = true := by
  fun_induction digits n with
  | case1 n hn =>
      rw [List.mem_singleton.mp h]
      exact isDigit_digitChar hn
  | case2 n hn ih =>
      rcases List.mem_append.mp h with hmem | hmem
      · exact ih hmem
      · rw [List.mem_singleton.mp hmem]
        exact isDigit_digitChar (Nat.mod_lt n (by omega))

/-- No number but zero is written with a leading zero. -/
theorem head?_digits {n : Nat} (h : n ≠ 0) : (digits n).head? ≠ some '0' := by
  fun_induction digits n with
  | case1 n hn =>
      rw [List.head?_singleton, ne_eq, Option.some.injEq, digitChar_eq_zero_iff hn]
      exact h
  | case2 n hn ih =>
      rw [List.head?_append, List.head?_eq_some_head (digits_ne_nil _), Option.some_or,
        ← List.head?_eq_some_head (digits_ne_nil _)]
      exact ih (by omega)

/-- A number lies below the power of ten of its length, and zero apart not below the
power before. -/
theorem lt_ten_pow_length (n : Nat) : n < 10 ^ length n := by
  fun_induction length n with
  | case1 n hn => simpa using hn
  | case2 n hn ih =>
      rw [pow_succ]
      omega

theorem ten_pow_le_of_length {n : Nat} (h : n ≠ 0) : 10 ^ (length n - 1) ≤ n := by
  fun_induction length n with
  | case1 n hn => exact Nat.pos_of_ne_zero h
  | case2 n hn ih =>
      have hrest := ih (by omega)
      obtain ⟨k, hk⟩ := Nat.exists_eq_succ_of_ne_zero (length_pos (n / 10)).ne'
      rw [hk, Nat.succ_sub_one] at hrest
      rw [hk, Nat.succ_eq_add_one, Nat.add_sub_cancel, pow_succ]
      omega

/-! ## What digits denote -/

theorem foldl_ofDigits (cs : List Char) (n : Nat) :
    cs.foldl (fun n c => 10 * n + digitValue c) n = n * 10 ^ cs.length + ofDigits cs := by
  unfold ofDigits
  induction cs generalizing n with
  | nil => simp
  | cons c cs ih =>
      rw [List.foldl_cons, ih, List.foldl_cons, ih (10 * 0 + digitValue c), List.length_cons]
      ring

theorem ofDigits_append (cs cs' : List Char) :
    ofDigits (cs ++ cs') = ofDigits cs * 10 ^ cs'.length + ofDigits cs' := by
  rw [ofDigits, List.foldl_append, foldl_ofDigits]
  rfl

theorem digitValue_lt {c : Char} (h : isDigit c = true) : digitValue c < 10 := by
  simp only [isDigit, Bool.and_eq_true, decide_eq_true_eq] at h
  unfold digitValue
  omega

theorem ofDigits_lt {cs : List Char} (h : ∀ c ∈ cs, isDigit c = true) :
    ofDigits cs < 10 ^ cs.length := by
  induction cs with
  | nil => exact Nat.one_pos
  | cons c cs ih =>
      obtain ⟨hc, hcs⟩ := List.forall_mem_cons.mp h
      rw [ofDigits, List.foldl_cons, foldl_ofDigits, Nat.mul_zero, Nat.zero_add]
      calc digitValue c * 10 ^ cs.length + ofDigits cs
          < digitValue c * 10 ^ cs.length + 10 ^ cs.length := Nat.add_lt_add_left (ih hcs) _
        _ = (digitValue c + 1) * 10 ^ cs.length := (Nat.succ_mul _ _).symm
        _ ≤ 10 * 10 ^ cs.length := Nat.mul_le_mul_right _ (digitValue_lt hc)
        _ = 10 ^ (c :: cs).length := (Nat.pow_succ').symm

theorem ofDigits_zeros (k : Nat) : ofDigits (List.replicate k '0') = 0 := by
  induction k with
  | zero => rfl
  | succ k ih =>
      rw [List.replicate_succ', ofDigits_append, ih, Nat.zero_mul]
      rfl

/-- The digits of a number denote it. -/
theorem ofDigits_digits (n : Nat) : ofDigits (digits n) = n := by
  fun_induction digits n with
  | case1 n hn =>
      have hvalue := digitValue_digitChar hn
      simpa [ofDigits] using hvalue
  | case2 n hn ih =>
      have hvalue := digitValue_digitChar (Nat.mod_lt n (by omega : 10 > 0))
      rw [ofDigits_append, ih, List.length_singleton, ofDigits, List.foldl_cons, List.foldl_nil,
        hvalue]
      omega

end Decimal
end LiftedPomdp
