import LiftedPomdp.Bytes
import LiftedPomdp.Decimal.Layout
import LiftedPomdp.Json.Basic

/-!
# Writing JSON

A document has two written forms.  `Json.compact` has no blanks; `Json.pretty` puts every item and
member on a line of its own, indented by two spaces per level, and leaves empty arrays and objects
on one line.
-/

namespace LiftedPomdp
namespace Json

/-- A character inside a string.  Quotes, backslashes and control characters are escaped. -/
def escapeChar (c : Char) : List Char :=
  if c = '"' then ['\\', '"']
  else if c = '\\' then ['\\', '\\']
  else if c = '\n' then ['\\', 'n']
  else if c = '\r' then ['\\', 'r']
  else if c = '\t' then ['\\', 't']
  else if c = '\x08' then ['\\', 'b']
  else if c = '\x0c' then ['\\', 'f']
  else if c.toNat < 32 then
    ['\\', 'u', '0', '0', Bytes.hexDigit (c.toNat / 16), Bytes.hexDigit (c.toNat % 16)]
  else [c]

/-- A string between quotes. -/
def quoteChars (s : String) : List Char :=
  '"' :: (s.toList.flatMap escapeChar ++ ['"'])

/-- A document without parts.  What has no value is written as `null`. -/
def scalarChars : Json → List Char
  | .null => ['n', 'u', 'l', 'l']
  | .bool true => ['t', 'r', 'u', 'e']
  | .bool false => ['f', 'a', 'l', 's', 'e']
  | .int n => Decimal.intChars n
  | .real x => Decimal.Layout.data.realChars x
  | .str s => quoteChars s
  | .garbled => ['n', 'u', 'l', 'l']
  | .arr _ => []
  | .obj _ => []

mutual

/-- A document without blanks. -/
def compactChars : Json → List Char
  | .arr items => '[' :: (compactItems items ++ [']'])
  | .obj members => '\x7b' :: (compactMembers members ++ ['\x7d'])
  | j => j.scalarChars

/-- The items of an array, separated by commas. -/
def compactItems : List Json → List Char
  | [] => []
  | [j] => j.compactChars
  | j :: js => j.compactChars ++ ',' :: compactItems js

/-- The members of an object, separated by commas. -/
def compactMembers : List (String × Json) → List Char
  | [] => []
  | [(k, j)] => quoteChars k ++ ':' :: j.compactChars
  | (k, j) :: ms => quoteChars k ++ ':' :: (j.compactChars ++ ',' :: compactMembers ms)

end

/-- The start of a line at a level of indentation. -/
def newLine (level : Nat) : List Char :=
  '\n' :: List.replicate (2 * level) ' '

mutual

/-- A document over several lines, starting at a level of indentation. -/
def prettyChars (level : Nat) : Json → List Char
  | .arr [] => ['[', ']']
  | .arr items => '[' :: (prettyItems (level + 1) items ++ newLine level ++ [']'])
  | .obj [] => ['\x7b', '\x7d']
  | .obj members => '\x7b' :: (prettyMembers (level + 1) members ++ newLine level ++ ['\x7d'])
  | j => j.scalarChars

/-- The items of an array, each on its line. -/
def prettyItems (level : Nat) : List Json → List Char
  | [] => []
  | [j] => newLine level ++ j.prettyChars level
  | j :: js => newLine level ++ j.prettyChars level ++ ',' :: prettyItems level js

/-- The members of an object, each on its line. -/
def prettyMembers (level : Nat) : List (String × Json) → List Char
  | [] => []
  | [(k, j)] => newLine level ++ quoteChars k ++ ':' :: ' ' :: j.prettyChars level
  | (k, j) :: ms =>
    newLine level ++ quoteChars k ++
      ':' :: ' ' :: (j.prettyChars level ++ ',' :: prettyMembers level ms)

end

/-- The text of a document without blanks. -/
def compact (j : Json) : String :=
  String.ofList j.compactChars

/-- The text of a document over several lines. -/
def pretty (j : Json) : String :=
  String.ofList (j.prettyChars 0)

end Json
end LiftedPomdp
