import LiftedPomdp.Json.Basic

/-!
# Records in JSON

A record with named fields is written as an object.  It is read from an object, whose members may
come in any order and among members of other names, or from an array of the fields in order, whose
last ones may be left out where they have a default.  A field given twice is refused.

Decoding answers `none` on a document of the wrong form; it does not say what is wrong with it.
-/

namespace LiftedPomdp
namespace Json

/-- The members whose keys are among the given names. -/
def knownMembers (names : List String) (members : List (String × Json)) : List (String × Json) :=
  members.filter fun m => names.contains m.1

/-- Whether no key occurs twice. -/
def distinctKeys : List (String × Json) → Bool
  | [] => true
  | (k, _) :: ms => !(ms.any fun m => m.1 == k) && distinctKeys ms

/-- The fields found in a document for a record with the given field names, of which an array must
give at least the first `needed`. -/
def record (names : List String) (needed : Nat) : Json → Option (List (String × Json))
  | .obj members =>
    let known := knownMembers names members
    if distinctKeys known then some known else none
  | .arr items =>
    if needed ≤ items.length ∧ items.length ≤ names.length then some (names.zip items) else none
  | _ => none

/-- A field that must be there. -/
def field {α : Type} (fields : List (String × Json)) (name : String)
    (decode : Json → Option α) : Option α :=
  match fields.lookup name with
  | none => none
  | some j => decode j

/-- A field that takes a default where it is left out. -/
def fieldOr {α : Type} (fields : List (String × Json)) (name : String) (default : α)
    (decode : Json → Option α) : Option α :=
  match fields.lookup name with
  | none => some default
  | some j => decode j

/-- A value that may be `null` instead. -/
def nullable {α : Type} (decode : Json → Option α) : Json → Option (Option α)
  | .null => some none
  | j => (decode j).map some

/-- A value, or `null` where there is none. -/
def ofOption {α : Type} (toJson : α → Json) : Option α → Json
  | none => .null
  | some a => toJson a

/-- A truth value. -/
def bool? : Json → Option Bool
  | .bool b => some b
  | _ => none

/-- A string. -/
def str? : Json → Option String
  | .str s => some s
  | _ => none

/-- A real number; an integer counts as one. -/
def real? : Json → Option Float
  | .real x => some x
  | .int n => some (Float.ofInt n)
  | _ => none

/-- An integer of 64 bits. -/
def int64? : Json → Option Int64
  | .int n =>
    if Int64.minValue.toInt ≤ n ∧ n ≤ Int64.maxValue.toInt then some (Int64.ofInt n) else none
  | _ => none

/-- A natural number below a bound. -/
def natBelow? (bound : Nat) : Json → Option Nat
  | .int n => if 0 ≤ n ∧ n < bound then some n.toNat else none
  | _ => none

/-- An unsigned integer of 32 bits. -/
def uint32? (j : Json) : Option UInt32 :=
  (natBelow? 4294967296 j).map UInt32.ofNat

/-- An unsigned integer of 64 bits. -/
def uint64? (j : Json) : Option UInt64 :=
  (natBelow? 18446744073709551616 j).map UInt64.ofNat

/-- All items of an array. -/
def items? {α : Type} (decode : Json → Option α) : List Json → Option (List α)
  | [] => some []
  | j :: js =>
    match decode j, items? decode js with
    | some a, some as => some (a :: as)
    | _, _ => none

/-- A list. -/
def list? {α : Type} (decode : Json → Option α) : Json → Option (List α)
  | .arr items => items? decode items
  | _ => none

/-- Whether a document may stand for the absent content of a name: `null`, and inside an
expression also an empty object. -/
def isVoid (inExpression : Bool) : Json → Bool
  | .null => true
  | .obj [] => inExpression
  | _ => false

/-- One of several names, written as a string or as an object with that name as its only key and
nothing under it. -/
def name? (inExpression : Bool) : Json → Option String
  | .str s => some s
  | .obj [(s, content)] => if content.isVoid inExpression then some s else none
  | _ => none

/-- The member of a list whose name a document gives. -/
def named? {α : Type} (name : α → String) (all : List α) (inExpression : Bool) (j : Json) :
    Option α :=
  match j.name? inExpression with
  | none => none
  | some s => all.find? fun a => name a == s

/-- The member of a list that the tag of a document gives: its name or, where numbers count, its
place in the list. -/
def tagged? {α : Type} (name : α → String) (all : List α) (numbered : Bool) : Json → Option α
  | .str s => all.find? fun a => name a == s
  | .int n => if numbered && decide (0 ≤ n) then all[n.toNat]? else none
  | _ => none

end Json
end LiftedPomdp
