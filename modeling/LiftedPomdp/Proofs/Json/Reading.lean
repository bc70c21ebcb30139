import LiftedPomdp.Json.Parser
import LiftedPomdp.Proofs.Json.Lexing

/-!
# Documents read back

The tokens of a document are put together to that document again.  So a document
whose numbers can be read back is the one that its text spells.
-/

namespace LiftedPomdp
namespace Json

namespace Assembly

variable {stack : List Open} {ts : List Token}

/-- Where an array may end, its first item is read like any other value. -/
theorem run_firstItem (j : Json) :
    (firstItem stack).run (j.tokens ++ ts) = (value (.array [] :: stack)).run (j.tokens ++ ts) := by
  cases j <;> rfl

mutual

/-- The tokens of a document are put together to it. -/
theorem run_tokens (j : Json) {stack : List Open} {ts : List Token} :
    (value stack).run (j.tokens ++ ts) = (after j stack).run ts := by
  cases j with
  | arr items =>
      cases items with
      | nil => rfl
      | cons j js =>
          have hfirst : (firstItem stack).run (itemTokens (j :: js) ++ .arrayEnd :: ts) =
              (value (.array [] :: stack)).run (itemTokens (j :: js) ++ .arrayEnd :: ts) := by
            cases js with
            | nil => exact run_firstItem j
            | cons j' js =>
                rw [itemTokens, List.append_assoc]
                · exact run_firstItem j
                · exact nofun
          rw [tokens, List.cons_append, List.append_assoc]
          exact hfirst.trans (run_itemTokens (j :: js) [] (List.cons_ne_nil _ _))
  | obj members =>
      cases members with
      | nil => rfl
      | cons m ms =>
          obtain ⟨k, j⟩ := m
          have hfirst : (firstKey stack).run (memberTokens ((k, j) :: ms) ++ .objectEnd :: ts) =
              (key (some []) stack).run (memberTokens ((k, j) :: ms) ++ .objectEnd :: ts) := by
            cases ms <;> rfl
          rw [tokens, List.cons_append, List.append_assoc]
          exact hfirst.trans (run_memberTokens ((k, j) :: ms) [] (List.cons_ne_nil _ _))
  | _ => rfl

theorem run_itemTokens (items before : List Json) (h : items ≠ []) {stack : List Open}
    {ts : List Token} :
    (value (.array before :: stack)).run (itemTokens items ++ .arrayEnd :: ts) =
      (after (.arr (before.reverse ++ items)) stack).run ts := by
  cases items with
  | nil => exact absurd rfl h
  | cons j js =>
      cases js with
      | nil =>
          rw [itemTokens, run_tokens j, ← List.reverse_cons]
          rfl
      | cons j' js =>
          have hrest := @run_itemTokens (j' :: js) (j :: before) (List.cons_ne_nil _ _) stack ts
          rw [List.reverse_cons, List.append_assoc] at hrest
          rw [itemTokens, List.append_assoc, run_tokens j]
          · exact hrest
          · exact nofun

theorem run_memberTokens (members before : List (String × Json)) (h : members ≠ [])
    {stack : List Open} {ts : List Token} :
    (key (some before) stack).run (memberTokens members ++ .objectEnd :: ts) =
      (after (.obj (before.reverse ++ members)) stack).run ts := by
  cases members with
  | nil => exact absurd rfl h
  | cons m ms =>
      obtain ⟨k, j⟩ := m
      cases ms with
      | nil =>
          have hvalue := @run_tokens j (.object (some before) (some k) :: stack) (.objectEnd :: ts)
          rw [memberTokens, ← List.reverse_cons]
          exact hvalue
      | cons m ms =>
          have hvalue := @run_tokens j (.object (some before) (some k) :: stack)
            (.comma :: (memberTokens (m :: ms) ++ .objectEnd :: ts))
          have hrest :=
            @run_memberTokens (m :: ms) ((k, j) :: before) (List.cons_ne_nil _ _) stack ts
          rw [List.reverse_cons, List.append_assoc] at hrest
          rw [memberTokens]
          · simp only [List.cons_append, List.append_assoc]
            exact hvalue.trans hrest
          · exact nofun

end

end Assembly

theorem ofTokens?_tokens (j : Json) : ofTokens? j.tokens = some j := by
  unfold ofTokens?
  rw [← List.append_nil j.tokens, Assembly.run_tokens]
  rfl

/-- A document whose numbers can be read back is the one that its text spells. -/
theorem parseBy?_pretty {r : Decimal.Reader} {j : Json} (hj : j.Legible r) :
    parseBy? r j.pretty = some j := by
  unfold parseBy? pretty
  rw [String.toList_ofList, tokens?_prettyChars hj]
  exact ofTokens?_tokens j

end Json
end LiftedPomdp
