import LiftedPomdp.Json.Token

/-!
# Reading JSON

A document is put together from its tokens by a machine with a stack.  The stack holds the arrays
and objects that have been opened and not yet closed, the innermost one first.  Nothing but blanks
may surround a document.
-/

namespace LiftedPomdp
namespace Json

/-- The members of an object read so far, the last one first; none once a key among them has no
value. -/
abbrev Members :=
  Option (List (String × Json))

/-- Adds a member. -/
def Members.add (members : Members) (key : Option String) (j : Json) : Members :=
  match members, key with
  | some ms, some k => some ((k, j) :: ms)
  | _, _ => none

/-- The object with the members read. -/
def Members.close : Members → Json
  | some ms => .obj ms.reverse
  | none => .garbled

/-- An array or object that is still open, with its complete parts in reverse. -/
inductive Open where
  /-- An array with the items read so far. -/
  | array (items : List Json)
  /-- An object with the members read so far and the key whose value is awaited. -/
  | object (members : Members) (key : Option String)

/-- What the machine expects next. -/
inductive Assembly where
  | value (stack : List Open)
  /-- The first item of an array, or its end. -/
  | firstItem (stack : List Open)
  /-- The first key of an object, or its end. -/
  | firstKey (stack : List Open)
  /-- A further key of an object. -/
  | key (members : Members) (stack : List Open)
  /-- The colon after a key. -/
  | colon (members : Members) (key : Option String) (stack : List Open)
  /-- What follows a complete value. -/
  | after (j : Json) (stack : List Open)

namespace Assembly

/-- Takes a token where a value is expected. -/
def beginValue (stack : List Open) : Token → Option Assembly
  | .arrayStart => some (.firstItem stack)
  | .objectStart => some (.firstKey stack)
  | .text (some s) => some (.after (.str s) stack)
  | .text none => some (.after .garbled stack)
  | .atom j => some (.after j stack)
  | _ => none

/-- Takes one token. -/
def step : Assembly → Token → Option Assembly
  | .value stack, t => beginValue stack t
  | .firstItem stack, .arrayEnd => some (.after (.arr []) stack)
  | .firstItem stack, t => beginValue (.array [] :: stack) t
  | .firstKey stack, .objectEnd => some (.after (.obj []) stack)
  | .firstKey stack, .text k => some (.colon (some []) k stack)
  | .firstKey _, _ => none
  | .key members stack, .text k => some (.colon members k stack)
  | .key _ _, _ => none
  | .colon members k stack, .colon => some (.value (.object members k :: stack))
  | .colon _ _ _, _ => none
  | .after j (.array items :: stack), .comma => some (.value (.array (j :: items) :: stack))
  | .after j (.array items :: stack), .arrayEnd =>
    some (.after (.arr (j :: items).reverse) stack)
  | .after j (.object members k :: stack), .comma => some (.key (members.add k j) stack)
  | .after j (.object members k :: stack), .objectEnd =>
    some (.after (members.add k j).close stack)
  | .after _ _, _ => none

/-- Takes a list of tokens. -/
def run (a : Assembly) : List Token → Option Assembly
  | [] => some a
  | t :: ts =>
    match a.step t with
    | none => none
    | some a' => a'.run ts

/-- The document, once it is complete and nothing is open. -/
def result? : Assembly → Option Json
  | .after j [] => some j
  | _ => none

end Assembly

/-- The document that a list of tokens spells. -/
def ofTokens? (ts : List Token) : Option Json :=
  match (Assembly.value []).run ts with
  | none => none
  | some a => a.result?

/-- The document that a text spells, with its numbers read in some way. -/
def parseBy? (r : Decimal.Reader) (s : String) : Option Json :=
  match tokens? r s.toList with
  | none => none
  | some ts => ofTokens? ts

end Json
end LiftedPomdp
