/-!
# Decimal digits of natural numbers

A natural number is written with the digits `0` to `9`, most significant first and without
leading zeros.  `Decimal.digits` writes and `Decimal.ofDigits` reads positionally.
-/

namespace LiftedPomdp
namespace Decimal

/-- The character of a digit below ten. -/
def digitChar (d : Nat) : Char :=
  Char.ofNat (48 + d)

/-- The value of a digit character, counted from `0`. -/
def digitValue (c : Char) : Nat :=
  c.toNat - 48

/-- A character is a decimal digit when it lies between `0` and `9`. -/
def isDigit (c : Char) : Bool :=
  decide (48 ≤ c.toNat) && decide (c.toNat ≤ 57)

/-- The decimal digits of `n`, most significant first; zero has one digit. -/
def digits (n : Nat) : List Char :=
  if n < 10 then [digitChar n] else digits (n / 10) ++ [digitChar (n % 10)]
termination_by n

/-- The number that a list of digit characters denotes. -/
def ofDigits (cs : List Char) : Nat :=
  cs.foldl (fun n c => 10 * n + digitValue c) 0

/-- The number of decimal digits of `n`. -/
def length (n : Nat) : Nat :=
  if n < 10 then 1 else length (n / 10) + 1
termination_by n

/-- The decimal text of a natural number. -/
def natChars (n : Nat) : List Char :=
  digits n

/-- The decimal text of an integer, a minus sign before the digits of a negative one. -/
def intChars : Int → List Char
  | .ofNat n => digits n
  | .negSucc n => '-' :: digits (n + 1)

/-- The decimal text of a natural number as a string. -/
def natText (n : Nat) : String :=
  String.ofList (natChars n)

/-- The decimal text of an integer as a string. -/
def intText (n : Int) : String :=
  String.ofList (intChars n)

end Decimal
end LiftedPomdp
