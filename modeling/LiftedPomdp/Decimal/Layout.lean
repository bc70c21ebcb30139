import LiftedPomdp.Decimal.Shortest

/-!
# Writing real numbers

A real number is written with its shortest digits.  A `Layout` record says when they stand
positionally and when with an exponent, and how the special values are written.  The two layouts
in use are `Layout.message`, for texts meant for a reader, and `Layout.data`, for documents.
-/

namespace LiftedPomdp
namespace Decimal

/-- How real numbers are written. -/
structure Layout where
  /-- What decides between two equally short and equally near decimals. -/
  tie : Tie
  /-- Whether the leading digit at this power of ten is written positionally. -/
  positional : Int → Bool
  /-- What follows the digits of a number without a fractional part. -/
  wholeMark : List Char
  /-- The text of a number that is not one. -/
  nan : List Char
  /-- The text of an infinity, after its sign. -/
  infinity : List Char
  /-- The sign of a negative infinity. -/
  negativeInfinity : List Char

namespace Layout

/-- In messages every digit is written out, a whole number has no point, there is never an
exponent, and of two equally near decimals the larger one is written. -/
def message : Layout where
  tie := .up
  positional := fun _ => true
  wholeMark := []
  nan := ['N', 'a', 'N']
  infinity := ['i', 'n', 'f']
  negativeInfinity := ['-', 'i', 'n', 'f']

/-- In documents a whole number ends in `.0`, a leading digit outside the powers `-5` to `15`
takes an exponent, and a number without a finite value is `null`. -/
def data : Layout where
  tie := .even
  positional := fun k => decide (-5 ≤ k) && decide (k ≤ 15)
  wholeMark := ['.', '0']
  nan := ['n', 'u', 'l', 'l']
  infinity := ['n', 'u', 'l', 'l']
  negativeInfinity := ['n', 'u', 'l', 'l']

/-- Digits with their leading one at the power `k` of ten, written out. -/
def positionalChars (l : Layout) (ds : List Char) (k : Int) : List Char :=
  if k < 0 then
    '0' :: '.' :: (List.replicate ((-k).toNat - 1) '0' ++ ds)
  else
    let whole := k.toNat + 1
    if ds.length ≤ whole then
      ds ++ List.replicate (whole - ds.length) '0' ++ l.wholeMark
    else
      ds.take whole ++ '.' :: ds.drop whole

/-- Digits with one before the point, then `e` and the signed exponent. -/
def scientificChars (ds : List Char) (k : Int) : List Char :=
  let fraction := ds.drop 1
  let mantissa := if fraction.isEmpty then ds else ds.take 1 ++ '.' :: fraction
  let power := if k < 0 then '-' :: digits k.natAbs else '+' :: digits k.natAbs
  mantissa ++ 'e' :: power

/-- A positive decimal number. -/
def decimalChars (l : Layout) (d : Decimal) : List Char :=
  let ds := digits d.significand
  let k := d.exponent + ds.length - 1
  if l.positional k then l.positionalChars ds k else scientificChars ds k

/-- A sign before the text of a magnitude. -/
def signed : Float.Model.UnpackedFloat.Sign → List Char → List Char
  | .positive, cs => cs
  | .negative, cs => '-' :: cs

/-- The text of a real number. -/
def realChars (l : Layout) (x : Float) : List Char :=
  match x.toModel.unpack with
  | .notANumber => l.nan
  | .infinity .positive => l.infinity
  | .infinity .negative => l.negativeInfinity
  | .zero s => signed s ('0' :: l.wholeMark)
  | .finite s m q _ => signed s (l.decimalChars (shortest l.tie m q))

end Layout

/-- The text of a real number in a message. -/
def realText (x : Float) : String :=
  String.ofList (Layout.message.realChars x)

end Decimal
end LiftedPomdp
