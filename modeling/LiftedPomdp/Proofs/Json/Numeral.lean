import LiftedPomdp.Json.Token
import LiftedPomdp.Proofs.Decimal.Digits

/-!
# Numbers read back

A number is written as an optional minus sign, digits, and perhaps a fraction and
a power of ten.  Such a text is a numeral; it denotes the integer or the decimal
number that its parts spell.
-/

namespace LiftedPomdp
namespace Json

open Decimal

/-! ## The text of a numeral -/

/-- The fraction of a numeral, where there are digits for one. -/
def fractionChars : List Char → List Char
  | [] => []
  | c :: cs => '.' :: c :: cs

/-- The power of a numeral, where there is one. -/
def powerChars : Option Int → List Char
  | none => []
  | some k => 'e' :: (if k < 0 then '-' :: digits k.natAbs else '+' :: digits k.natAbs)

/-- The numeral with these parts. -/
def numeralChars (negative : Bool) (whole fraction : List Char) (power : Option Int) :
    List Char :=
  (if negative then ['-'] else []) ++ (whole ++ (fractionChars fraction ++ powerChars power))

/-- Digits that may stand before the point: at least one, and no leading zero
before others. -/
structure IsWhole (cs : List Char) : Prop where
  digits : ∀ c ∈ cs, isDigit c = true
  ne_nil : cs ≠ []
  leading : cs.length = 1 ∨ cs.head? ≠ some '0'

theorem isWhole_digits (n : Nat) : IsWhole (digits n) where
  digits := fun _ h => isDigit_of_mem_digits h
  ne_nil := digits_ne_nil n
  leading := by
    by_cases h : n = 0
    · left
      rw [length_digits, h, length]
      rfl
    · exact .inr (head?_digits h)

/-! ## Reading its parts -/

section Parts

variable {ds rest : List Char} (hds : ∀ c ∈ ds, isDigit c = true)
  (hrest : ∀ c ∈ rest.head?, isDigit c = false)
include hds hrest

theorem takeWhile_isDigit : (ds ++ rest).takeWhile isDigit = ds := by
  rw [List.takeWhile_append_of_pos hds]
  cases rest with
  | nil => simp
  | cons c cs => simp [hrest c rfl]

theorem dropWhile_isDigit : (ds ++ rest).dropWhile isDigit = rest := by
  rw [List.dropWhile_append_of_pos hds]
  cases rest with
  | nil => rfl
  | cons c cs => simp [hrest c rfl]

end Parts

theorem head?_powerChars (power : Option Int) :
    ∀ c ∈ (powerChars power).head?, isDigit c = false := by
  cases power with
  | none => simp [powerChars]
  | some k =>
      intro c hc
      obtain rfl : 'e' = c := by simpa [powerChars] using hc
      decide

theorem head?_fractionChars (fraction : List Char) (power : Option Int) :
    ∀ c ∈ (fractionChars fraction ++ powerChars power).head?, isDigit c = false := by
  cases fraction with
  | nil => exact head?_powerChars power
  | cons c cs =>
      intro d hd
      obtain rfl : '.' = d := by simpa [fractionChars] using hd
      decide

/-- What a numeral denotes: an integer that fits in 64 bits where it is written as
one, and otherwise the real number that its parts are read as. -/
theorem numeral?_numeralChars (r : Reader) {negative : Bool} {whole fraction : List Char}
    {power : Option Int} (hwhole : IsWhole whole) (hfraction : ∀ c ∈ fraction, isDigit c = true) :
    numeral? r (numeralChars negative whole fraction power) =
      if fraction = [] ∧ power = none ∧ ¬(negative = true ∧ ofDigits whole = 0) ∧
          fitsWord negative (ofDigits whole) = true then
        some (.int (if negative then -(ofDigits whole : Int) else ofDigits whole))
      else
        some (realNumeral r negative whole fraction (power.getD 0)) := by
  obtain ⟨first, others, rfl⟩ := List.exists_cons_of_ne_nil hwhole.ne_nil
  have hfirst : first ≠ '-' := by
    rintro rfl
    exact absurd (hwhole.digits '-' List.mem_cons_self) (by decide)
  unfold numeral?
  extract_lets negative' unsigned whole' afterWhole hasPoint fraction' afterFraction hasPower
    power' powerSigned powerDigits wellFormed n magnitude exponent
  have hnegative : negative' = negative := by
    cases negative <;> simp [negative', numeralChars, hfirst]
  have hunsigned :
      unsigned = first :: others ++ (fractionChars fraction ++ powerChars power) := by
    simp only [unsigned, hnegative]
    cases negative <;> rfl
  have hwhole' : whole' = first :: others := by
    rw [← takeWhile_isDigit hwhole.digits (head?_fractionChars fraction power), ← hunsigned]
  have hafterWhole : afterWhole = fractionChars fraction ++ powerChars power := by
    rw [← dropWhile_isDigit hwhole.digits (head?_fractionChars fraction power), ← hunsigned]
  have hhasPoint : hasPoint = !fraction.isEmpty := by
    simp only [hasPoint, hafterWhole]
    cases fraction with
    | cons c cs => rfl
    | nil => cases power <;> rfl
  have hfraction' : fraction' = fraction := by
    simp only [fraction', hhasPoint, hafterWhole]
    cases fraction with
    | nil => rfl
    | cons c cs => exact takeWhile_isDigit hfraction (head?_powerChars power)
  have hafterFraction : afterFraction = powerChars power := by
    simp only [afterFraction, hhasPoint, hafterWhole]
    cases fraction with
    | nil => rfl
    | cons c cs => exact dropWhile_isDigit hfraction (head?_powerChars power)
  have hhasPower : hasPower = power.isSome := by
    simp only [hasPower, hafterFraction]
    cases power <;> rfl
  have hpower' : power' = (powerChars power).drop 1 := by
    simp only [power', hhasPower, hafterFraction]
    cases power <;> rfl
  have hpowerDigits : powerDigits = power.elim [] fun k => digits k.natAbs := by
    simp only [powerDigits, powerSigned, hpower']
    cases power with
    | none => rfl
    | some k => by_cases hk : k < 0 <;> simp [powerChars, hk]
  have hpowerNegative : (power'.head? == some '-') = decide (power.getD 0 < 0) := by
    rw [hpower']
    cases power with
    | none => rfl
    | some k => by_cases hk : k < 0 <;> simp [powerChars, hk]
  have hexponent : exponent = power.getD 0 := by
    simp only [exponent, magnitude, hpowerDigits, hpowerNegative]
    cases power with
    | none => rfl
    | some k =>
        simp only [Option.elim_some, Option.getD_some, ofDigits_digits, decide_eq_true_eq]
        split <;> omega
  have hwellFormed : wellFormed = true := by
    have hlead : ((first :: others).length == 1 || (first :: others).head? != some '0') = true := by
      simpa using hwhole.leading
    simp only [wellFormed, hwhole', hlead, hhasPoint, hfraction', hhasPower, hpowerDigits,
      hafterFraction]
    cases power with
    | none => simp [powerChars]
    | some k =>
        have hall : ∀ c ∈ digits k.natAbs, isDigit c = true := fun _ => isDigit_of_mem_digits
        simpa [digits_ne_nil] using hall
  simp only [hwellFormed, if_true, hhasPoint, hhasPower, hnegative, hwhole', hfraction', n,
    hexponent]
  cases fraction <;> cases power <;> cases negative <;> simp

/-! ## Integers -/

/-- An integer is written as a numeral without a fraction and a power. -/
theorem intChars_eq (n : Int) :
    intChars n = numeralChars (decide (n < 0)) (digits n.natAbs) [] none := by
  unfold numeralChars fractionChars powerChars
  rw [List.append_nil, List.append_nil]
  cases n with
  | ofNat n => rfl
  | negSucc n => simp [intChars]

theorem numeral?_intChars (r : Reader) {n : Int} (hlow : -9223372036854775808 ≤ n)
    (hhigh : n < 18446744073709551616) : numeral? r (intChars n) = some (.int n) := by
  have hzero : ¬(decide (n < 0) = true ∧ n.natAbs = 0) := by
    rw [decide_eq_true_eq]
    omega
  have hfits : fitsWord (decide (n < 0)) n.natAbs = true := by
    unfold fitsWord
    by_cases hn : n < 0
    · simp only [hn, decide_true, if_true, decide_eq_true_eq]
      omega
    · simp only [hn, decide_false, Bool.false_eq_true, if_false, decide_eq_true_eq]
      omega
  have hvalue : (if decide (n < 0) = true then -(n.natAbs : Int) else n.natAbs) = n := by
    split_ifs with hn <;> simp only [decide_eq_true_eq] at hn <;> omega
  rw [intChars_eq, numeral?_numeralChars r (isWhole_digits _) (by simp), ofDigits_digits,
    if_pos ⟨rfl, rfl, hzero, hfits⟩, hvalue]

end Json
end LiftedPomdp
