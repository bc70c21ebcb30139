import LiftedPomdp.Decimal.Reading
import LiftedPomdp.Json.Basic

/-!
# JSON tokens

A text is cut into tokens by an automaton that takes one character at a time.  Its state holds the
tokens found so far and the piece that is being read: a word, a number, or a string with the
escape it may be inside of.  A reader tells the doubles that numbers denote.
-/

namespace LiftedPomdp
namespace Json

/-- The smallest parts of a JSON text. -/
inductive Token where
  | arrayStart
  | arrayEnd
  | objectStart
  | objectEnd
  /-- The colon between a key and its value. -/
  | colon
  /-- The comma between two items or members. -/
  | comma
  /-- A string; none where half of a surrogate pair stands alone in it. -/
  | text (s : Option String)
  /-- A number, a truth value or `null`. -/
  | atom (j : Json)

/-- The blanks that may stand between tokens. -/
def isBlank (c : Char) : Bool :=
  c == ' ' || c == '\t' || c == '\n' || c == '\r'

/-- The characters that a number is made of. -/
def isNumeral (c : Char) : Bool :=
  Decimal.isDigit c || c == '-' || c == '+' || c == '.' || c == 'e' || c == 'E'

/-- The characters that a word is made of. -/
def isLetter (c : Char) : Bool :=
  decide (97 ≤ c.toNat) && decide (c.toNat ≤ 122)

/-- The value of a hexadecimal digit. -/
def hexValue? (c : Char) : Option Nat :=
  let n := c.toNat
  if 48 ≤ n ∧ n ≤ 57 then some (n - 48)
  else if 97 ≤ n ∧ n ≤ 102 then some (n - 87)
  else if 65 ≤ n ∧ n ≤ 70 then some (n - 55)
  else none

/-- A number with a fraction or an exponent, as far as the doubles go. -/
def realNumeral (r : Decimal.Reader) (negative : Bool) (whole fraction : List Char)
    (power : Int) : Json :=
  match r.read? whole fraction power with
  | some x => .real (if negative then -x else x)
  | none => .garbled

/-- Whether an integer fits in 64 bits, with a sign where there is one. -/
def fitsWord (negative : Bool) (n : Nat) : Bool :=
  if negative then decide (n ≤ 9223372036854775808) else decide (n < 18446744073709551616)

/-- The number that a run of characters denotes, where it is one: an optional minus sign, digits
without a leading zero, then optionally a fraction and an exponent.  An integer that fits in
64 bits, signed or unsigned, is kept as one, except negative zero. -/
def numeral? (r : Decimal.Reader) (cs : List Char) : Option Json :=
  let negative := cs.head? == some '-'
  let unsigned := if negative then cs.drop 1 else cs
  let whole := unsigned.takeWhile Decimal.isDigit
  let afterWhole := unsigned.dropWhile Decimal.isDigit
  let hasPoint := afterWhole.head? == some '.'
  let fraction := if hasPoint then (afterWhole.drop 1).takeWhile Decimal.isDigit else []
  let afterFraction :=
    if hasPoint then (afterWhole.drop 1).dropWhile Decimal.isDigit else afterWhole
  let hasPower := afterFraction.head? == some 'e' || afterFraction.head? == some 'E'
  let power := if hasPower then afterFraction.drop 1 else []
  let powerSigned := power.head? == some '-' || power.head? == some '+'
  let powerDigits := if powerSigned then power.drop 1 else power
  let wellFormed :=
    !whole.isEmpty && (whole.length == 1 || whole.head? != some '0') &&
    (!hasPoint || !fraction.isEmpty) &&
    (if hasPower then !powerDigits.isEmpty && powerDigits.all Decimal.isDigit
      else afterFraction.isEmpty)
  if wellFormed then
    let n := Decimal.ofDigits whole
    if !hasPoint && !hasPower && !(negative && n == 0) && fitsWord negative n then
      some (.int (if negative then -(n : Int) else n))
    else
      let magnitude : Int := Decimal.ofDigits powerDigits
      let exponent := if power.head? == some '-' then -magnitude else magnitude
      some (realNumeral r negative whole fraction exponent)
  else
    none

/-- The three words of JSON. -/
def word? : List Char → Option Json
  | ['n', 'u', 'l', 'l'] => some .null
  | ['t', 'r', 'u', 'e'] => some (.bool true)
  | ['f', 'a', 'l', 's', 'e'] => some (.bool false)
  | _ => none

/-- What the automaton is in the middle of.  Characters already read stand in reverse; those of a
string are dropped once half of a surrogate pair stands alone among them. -/
inductive Reading where
  /-- Between two tokens. -/
  | between
  | word (read : List Char)
  | numeral (read : List Char)
  | text (read : Option (List Char))
  /-- After a backslash in a string. -/
  | escape (read : Option (List Char))
  /-- In the four digits of a code unit, of which some are still to come; `high` is the first half
  of a surrogate pair, where one came before. -/
  | unit (read : Option (List Char)) (high : Option Nat) (missing : Nat) (value : Nat)
  /-- After the first half of a surrogate pair. -/
  | pair (read : Option (List Char)) (high : Nat)
  /-- After the first half of a surrogate pair and a backslash. -/
  | pairEscape (read : Option (List Char)) (high : Nat)

/-- The state of the automaton: the tokens found, the last one first, and the piece being read. -/
structure Lexer where
  /-- The tokens found so far, the last one first. -/
  found : List Token
  /-- The piece being read. -/
  reading : Reading

namespace Lexer

/-- The state before the first character. -/
def start : Lexer :=
  { found := [], reading := .between }

/-- Adds a token and goes on between tokens. -/
def push (l : Lexer) (t : Token) : Lexer :=
  { found := t :: l.found, reading := .between }

/-- Ends a word or a number. -/
def close (r : Decimal.Reader) (l : Lexer) : Option Lexer :=
  match l.reading with
  | .between => some l
  | .word read => (word? read.reverse).map fun j => l.push (.atom j)
  | .numeral read => (numeral? r read.reverse).map fun j => l.push (.atom j)
  | _ => none

/-- Takes a character that starts something new. -/
def begin (l : Lexer) (c : Char) : Option Lexer :=
  if isBlank c then some l
  else if c = '[' then some (l.push .arrayStart)
  else if c = ']' then some (l.push .arrayEnd)
  else if c = '\x7b' then some (l.push .objectStart)
  else if c = '\x7d' then some (l.push .objectEnd)
  else if c = ':' then some (l.push .colon)
  else if c = ',' then some (l.push .comma)
  else if c = '"' then some { l with reading := .text (some []) }
  else if isLetter c then some { l with reading := .word [c] }
  else if isNumeral c then some { l with reading := .numeral [c] }
  else none

/-- The character that a single letter stands for after a backslash. -/
def escaped? (c : Char) : Option Char :=
  if c = '"' then some '"'
  else if c = '\\' then some '\\'
  else if c = '/' then some '/'
  else if c = 'b' then some '\x08'
  else if c = 'f' then some '\x0c'
  else if c = 'n' then some '\n'
  else if c = 'r' then some '\r'
  else if c = 't' then some '\t'
  else none

/-- What follows a complete code unit of a string.  The first half of a surrogate pair waits for
the second. -/
def afterUnit (read : Option (List Char)) : Option Nat → Nat → Reading
  | none, u =>
    if 0xD800 ≤ u ∧ u ≤ 0xDBFF then .pair read u
    else if 0xDC00 ≤ u ∧ u ≤ 0xDFFF then .text none
    else .text (read.map (Char.ofNat u :: ·))
  | some high, u =>
    if 0xDC00 ≤ u ∧ u ≤ 0xDFFF then
      let code := 0x10000 + (high - 0xD800) * 0x400 + (u - 0xDC00)
      .text (read.map (Char.ofNat code :: ·))
    else .text none

/-- Takes a character of a string. -/
def textStep (l : Lexer) (read : Option (List Char)) (c : Char) : Option Lexer :=
  if c = '"' then some (l.push (.text (read.map fun cs => String.ofList cs.reverse)))
  else if c = '\\' then some { l with reading := .escape read }
  else if c.toNat < 32 then none
  else some { l with reading := .text (read.map (c :: ·)) }

/-- Takes the character after a backslash. -/
def escapeStep (l : Lexer) (read : Option (List Char)) (c : Char) : Option Lexer :=
  if c = 'u' then some { l with reading := .unit read none 4 0 }
  else (escaped? c).map fun d => { l with reading := .text (read.map (d :: ·)) }

/-- Takes one character. -/
def step (r : Decimal.Reader) (l : Lexer) (c : Char) : Option Lexer :=
  match l.reading with
  | .between => l.begin c
  | .word read =>
    if isLetter c then some { l with reading := .word (c :: read) }
    else (l.close r).bind (·.begin c)
  | .numeral read =>
    if isNumeral c then some { l with reading := .numeral (c :: read) }
    else (l.close r).bind (·.begin c)
  | .text read => l.textStep read c
  | .escape read => l.escapeStep read c
  | .unit read high missing value =>
    match hexValue? c with
    | none => none
    | some d =>
      let value := 16 * value + d
      if missing ≤ 1 then some { l with reading := afterUnit read high value }
      else some { l with reading := .unit read high (missing - 1) value }
  | .pair read high =>
    if c = '\\' then some { l with reading := .pairEscape read high } else l.textStep none c
  | .pairEscape read high =>
    if c = 'u' then some { l with reading := .unit read (some high) 4 0 }
    else l.escapeStep none c

/-- Takes all characters of a text. -/
def run (r : Decimal.Reader) (l : Lexer) : List Char → Option Lexer
  | [] => some l
  | c :: cs =>
    match l.step r c with
    | none => none
    | some l' => l'.run r cs

end Lexer

/-- The tokens of a text, where it is made of tokens only. -/
def tokens? (r : Decimal.Reader) (cs : List Char) : Option (List Token) :=
  match Lexer.start.run r cs with
  | none => none
  | some l => (l.close r).map fun l => l.found.reverse

end Json
end LiftedPomdp
