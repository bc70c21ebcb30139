import LiftedPomdp.Error
import LiftedPomdp.Json.Parser
import LiftedPomdp.Json.Printer

/-!
# Documents as texts

A definition is saved as the text of its document and loaded from such a text.  What is inside too
many arrays and objects has no value, so that it does no harm only where nobody looks at it.
-/

namespace LiftedPomdp
namespace Document

/-- The definition that a document spells. -/
def decode {α : Type} (ofJson? : Json → Option α) (j : Json) : Except SimError α :=
  match ofJson? (j.clip Json.maxDepth) with
  | some a => .ok a
  | none => .error (.internal .unreadable)

/-- The definition that a text spells, with its numbers read in some way. -/
def loadBy {α : Type} (r : Decimal.Reader) (ofJson? : Json → Option α) (text : String) :
    Except SimError α :=
  match Json.parseBy? r text with
  | some j => decode ofJson? j
  | none => .error (.internal .unreadable)

/-- The definition that a text spells. -/
def load {α : Type} (ofJson? : Json → Option α) (text : String) : Except SimError α :=
  loadBy .scaling ofJson? text

/-- The text of a definition, over several lines. -/
def save {α : Type} (toJson : α → Json) (a : α) : String :=
  (toJson a).pretty

end Document
end LiftedPomdp
