/-!
# JSON documents

The tree of a JSON document.  Numbers written as integers that fit in 64 bits, signed or
unsigned, stay integers; all others are doubles.  An object keeps its members in the order in
which they were written, repeated keys included.

A well-formed document may have parts without a value: a number beyond the doubles, a string with
half of a surrogate pair, an object with such a key.  They do no harm where nobody looks at them.
-/

namespace LiftedPomdp

/-- A JSON document. -/
inductive Json where
  | null
  | bool (b : Bool)
  /-- A number written as an integer. -/
  | int (n : Int)
  /-- A number with a fraction or an exponent, or outside the 64-bit integers. -/
  | real (x : Float)
  | str (s : String)
  | arr (items : List Json)
  | obj (members : List (String × Json))
  /-- A part without a value. -/
  | garbled

namespace Json

mutual

/-- Whether all parts of a document have a value. -/
def isSound : Json → Bool
  | .arr items => areSound items
  | .obj members => membersAreSound members
  | .garbled => false
  | _ => true

/-- Whether all parts of the items of an array have a value. -/
def areSound : List Json → Bool
  | [] => true
  | j :: js => j.isSound && areSound js

/-- Whether all parts of the members of an object have a value. -/
def membersAreSound : List (String × Json) → Bool
  | [] => true
  | (_, j) :: ms => j.isSound && membersAreSound ms

end

mutual

/-- The document without the arrays and objects inside more than `depth` others. -/
def clip (depth : Nat) : Json → Json
  | .arr items =>
    match depth with
    | 0 => .garbled
    | n + 1 => .arr (clipItems n items)
  | .obj members =>
    match depth with
    | 0 => .garbled
    | n + 1 => .obj (clipMembers n members)
  | j => j

/-- The items of an array, each clipped. -/
def clipItems (depth : Nat) : List Json → List Json
  | [] => []
  | j :: js => j.clip depth :: clipItems depth js

/-- The members of an object, each clipped. -/
def clipMembers (depth : Nat) : List (String × Json) → List (String × Json)
  | [] => []
  | (k, j) :: ms => (k, j.clip depth) :: clipMembers depth ms

end

/-- An array of strings. -/
def strings (ss : List String) : Json :=
  .arr (ss.map .str)

/-- How many arrays and objects a part may be inside of, itself included. -/
def maxDepth : Nat :=
  127

end Json
end LiftedPomdp
