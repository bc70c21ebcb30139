import LiftedPomdp.Proofs.Json.Reading

/-!
# Documents without blanks

A real that is not finite is written as `null`, so the text of a document spells
another document where there is such a real.  Apart from that nothing is lost: what
the text of an object spells is the same however the text goes on.  It follows that
no text of an object starts with the text of an object that spells something else.
-/

namespace LiftedPomdp
namespace Json

/-! ## What a text spells -/

mutual

/-- The document that the text of a document spells. -/
def spelled : Json → Json
  | .real x => if x.isFinite then .real x else .null
  | .garbled => .null
  | .arr items => .arr (spelledItems items)
  | .obj members => .obj (spelledMembers members)
  | j => j

/-- What the texts of the items of an array spell. -/
def spelledItems : List Json → List Json
  | [] => []
  | j :: js => j.spelled :: spelledItems js

/-- What the texts of the members of an object spell. -/
def spelledMembers : List (String × Json) → List (String × Json)
  | [] => []
  | (k, j) :: ms => (k, j.spelled) :: spelledMembers ms

end

section Spelled

@[simp]
theorem spelled_null : null.spelled = null :=
  rfl

@[simp]
theorem spelled_bool (b : Bool) : (bool b).spelled = bool b :=
  rfl

@[simp]
theorem spelled_int (n : Int) : (int n).spelled = int n :=
  rfl

@[simp]
theorem spelled_str (s : String) : (str s).spelled = str s :=
  rfl

@[simp]
theorem spelled_arr (items : List Json) : (arr items).spelled = arr (items.map spelled) := by
  have hitems : ∀ js, spelledItems js = js.map spelled := by
    intro js
    induction js with
    | nil => rfl
    | cons j js ih => rw [spelledItems, ih, List.map_cons]
  rw [spelled, hitems]

@[simp]
theorem spelled_obj (members : List (String × Json)) :
    (obj members).spelled = obj (members.map fun m => (m.1, m.2.spelled)) := by
  have hmembers : ∀ ms, spelledMembers ms = ms.map fun m => (m.1, m.2.spelled) := by
    intro ms
    induction ms with
    | nil => rfl
    | cons m ms ih => rw [spelledMembers, ih, List.map_cons]
  rw [spelled, hmembers]

@[simp]
theorem spelled_strings (ss : List String) : (strings ss).spelled = strings ss := by
  simp [strings, Function.comp_def]

theorem spelled_real {x : Float} (h : x.isFinite = true) : (real x).spelled = real x :=
  if_pos h

theorem spelled_real_of_not_isFinite {x : Float} (h : x.isFinite ≠ true) :
    (real x).spelled = null :=
  if_neg h

end Spelled

/-! ## The texts of a document and of what it spells -/

mutual

/-- The text of a document is the text of the document that it spells. -/
theorem compactChars_spelled (j : Json) : j.spelled.compactChars = j.compactChars := by
  cases j with
  | real x =>
      by_cases hx : x.isFinite = true
      · rw [spelled_real hx]
      · rw [spelled_real_of_not_isFinite hx]
        exact (realChars_of_not_isFinite hx).symm
  | arr items => rw [spelled, compactChars, compactChars, compactItems_spelled]
  | obj members => rw [spelled, compactChars, compactChars, compactMembers_spelled]
  | _ => rfl

theorem compactItems_spelled (items : List Json) :
    compactItems (spelledItems items) = compactItems items := by
  cases items with
  | nil => rfl
  | cons j js =>
      have hj := compactChars_spelled j
      cases js with
      | nil => exact hj
      | cons j' js =>
          have hjs := compactItems_spelled (j' :: js)
          simp only [spelledItems] at hjs
          simp only [spelledItems, compactItems, hj, hjs]

theorem compactMembers_spelled (members : List (String × Json)) :
    compactMembers (spelledMembers members) = compactMembers members := by
  cases members with
  | nil => rfl
  | cons m ms =>
      obtain ⟨k, j⟩ := m
      have hj := compactChars_spelled j
      cases ms with
      | nil => simp only [spelledMembers, compactMembers, hj]
      | cons m ms =>
          obtain ⟨k', j'⟩ := m
          have hms := compactMembers_spelled ((k', j') :: ms)
          simp only [spelledMembers] at hms
          simp only [spelledMembers, compactMembers, hj, hms]

end

theorem compactChars_congr {j j' : Json} (h : j.spelled = j'.spelled) :
    j.compactChars = j'.compactChars := by
  rw [← compactChars_spelled j, h, compactChars_spelled]

/-! ## The tokens of a text -/

section Tokens

variable {r : Decimal.Reader}

mutual

/-- A document without blanks is cut into its tokens. -/
theorem lex_compactChars {j : Json} (hj : j.Legible r) {found : List Token} {rest : List Char}
    (hrest : Delimited rest) :
    lex r found (j.compactChars ++ rest) = lex r (j.tokens.reverse ++ found) rest := by
  cases j with
  | arr items =>
      simp only [compactChars, tokens, List.cons_append, List.append_assoc, lex_arrayStart]
      rw [lex_compactItems hj (delimited_cons rfl rfl)]
      simp
  | obj members =>
      simp only [compactChars, tokens, List.cons_append, List.append_assoc, lex_objectStart]
      rw [lex_compactMembers hj (delimited_cons rfl rfl)]
      simp
  | _ => exact lex_scalarChars (hj _ List.mem_cons_self) (fun _ => nofun) (fun _ => nofun) hrest

theorem lex_compactItems {items : List Json} (hitems : ∀ l ∈ leavesOfItems items, l.IsLegible r)
    {found : List Token} {rest : List Char} (hrest : Delimited rest) :
    lex r found (compactItems items ++ rest) = lex r ((itemTokens items).reverse ++ found) rest := by
  cases items with
  | nil => rfl
  | cons j js =>
      obtain ⟨hj, hjs⟩ := List.forall_mem_append.mp hitems
      cases js with
      | nil => exact lex_compactChars hj hrest
      | cons j' js =>
          simp only [compactItems, itemTokens, List.append_assoc, List.cons_append]
          rw [lex_compactChars hj (delimited_cons rfl rfl), lex_comma,
            lex_compactItems hjs hrest]
          simp

theorem lex_compactMembers {members : List (String × Json)}
    (hmembers : ∀ l ∈ leavesOfMembers members, l.IsLegible r) {found : List Token}
    {rest : List Char} (hrest : Delimited rest) :
    lex r found (compactMembers members ++ rest) =
      lex r ((memberTokens members).reverse ++ found) rest := by
  cases members with
  | nil => rfl
  | cons m ms =>
      obtain ⟨k, j⟩ := m
      obtain ⟨hj, hms⟩ := List.forall_mem_append.mp hmembers
      cases ms with
      | nil =>
          simp only [compactMembers, memberTokens, List.append_assoc, List.cons_append,
            lex_quoteChars, lex_colon]
          rw [lex_compactChars hj hrest]
          simp
      | cons m' ms =>
          simp only [compactMembers, memberTokens, List.append_assoc, List.cons_append,
            lex_quoteChars, lex_colon]
          rw [lex_compactChars hj (delimited_cons rfl rfl), lex_comma,
            lex_compactMembers hms hrest]
          simp

end

/-- The text of an object ends with its closing brace, whatever follows. -/
theorem lex_compactChars_obj {members : List (String × Json)} (hj : (obj members).Legible r)
    (found : List Token) (rest : List Char) :
    lex r found ((obj members).compactChars ++ rest) =
      lex r ((obj members).tokens.reverse ++ found) rest := by
  simp only [compactChars, tokens, List.cons_append, List.append_assoc, lex_objectStart]
  rw [lex_compactMembers hj (delimited_cons rfl rfl)]
  simp

/-! ## Tokens found stay found -/

namespace Lexer

variable {l l' : Lexer} {c : Char}

theorem found_close (h : l.close r = some l') : l.found <:+ l'.found := by
  unfold close at h
  cases hreading : l.reading with
  | between =>
      obtain rfl : l = l' := by simpa [hreading] using h
      exact List.suffix_rfl
  | word read =>
      obtain ⟨j, -, rfl⟩ : ∃ j, word? read.reverse = some j ∧ l.push (.atom j) = l' := by
        simpa [hreading] using h
      exact List.suffix_cons _ _
  | numeral read =>
      obtain ⟨j, -, rfl⟩ : ∃ j, numeral? r read.reverse = some j ∧ l.push (.atom j) = l' := by
        simpa [hreading] using h
      exact List.suffix_cons _ _
  | _ => simp [hreading] at h

theorem found_begin (h : l.begin c = some l') : l.found <:+ l'.found := by
  unfold begin at h
  split_ifs at h
  all_goals
    cases h
    first
      | exact List.suffix_rfl
      | exact List.suffix_cons _ _

theorem found_textStep {read : Option (List Char)} (h : l.textStep read c = some l') :
    l.found <:+ l'.found := by
  unfold textStep at h
  split_ifs at h
  all_goals
    cases h
    first
      | exact List.suffix_rfl
      | exact List.suffix_cons _ _

theorem found_escapeStep {read : Option (List Char)} (h : l.escapeStep read c = some l') :
    l.found <:+ l'.found := by
  unfold escapeStep at h
  split_ifs at h
  · cases h
    exact List.suffix_rfl
  · obtain ⟨d, -, rfl⟩ := Option.map_eq_some_iff.mp h
    exact List.suffix_rfl

theorem found_closeBegin (h : ((l.close r).bind fun l => l.begin c) = some l') :
    l.found <:+ l'.found := by
  obtain ⟨closed, hclosed, hbegin⟩ := Option.bind_eq_some_iff.mp h
  exact (found_close hclosed).trans (found_begin hbegin)

/-- One character takes no token away. -/
theorem found_step (h : l.step r c = some l') : l.found <:+ l'.found := by
  unfold step at h
  split at h
  case h_1 => exact found_begin h
  case h_2 =>
    split_ifs at h
    · cases h
      exact List.suffix_rfl
    · exact found_closeBegin h
  case h_3 =>
    split_ifs at h
    · cases h
      exact List.suffix_rfl
    · exact found_closeBegin h
  case h_4 => exact found_textStep h
  case h_5 => exact found_escapeStep h
  case h_6 =>
    split at h
    · cases h
    · split_ifs at h <;> cases h <;> exact List.suffix_rfl
  case h_7 =>
    split_ifs at h
    · cases h
      exact List.suffix_rfl
    · exact found_textStep h
  case h_8 =>
    split_ifs at h
    · cases h
      exact List.suffix_rfl
    · exact found_escapeStep h

theorem found_run {cs : List Char} (h : l.run r cs = some l') : l.found <:+ l'.found := by
  induction cs generalizing l with
  | nil =>
      cases h
      exact List.suffix_rfl
  | cons c cs ih =>
      rw [run] at h
      cases hstep : l.step r c with
      | none => simp [hstep] at h
      | some next =>
          simp only [hstep] at h
          exact (found_step hstep).trans (ih h)

end Lexer

/-- The tokens of a text start with those found before. -/
theorem prefix_of_lex {found ts : List Token} {cs : List Char} (h : lex r found cs = some ts) :
    found.reverse <+: ts := by
  unfold lex Lexer.finish at h
  cases hrun : Lexer.run r ⟨found, .between⟩ cs with
  | none => simp [hrun] at h
  | some l =>
      simp only [hrun] at h
      obtain ⟨closed, hclosed, rfl⟩ := Option.map_eq_some_iff.mp h
      exact List.reverse_prefix.mpr ((Lexer.found_run hrun).trans (Lexer.found_close hclosed))

end Tokens

/-! ## Objects -/

/-- No list of tokens that spells a document goes on after the tokens of a document. -/
theorem eq_of_tokens_prefix {j j' : Json} (h : j.tokens <+: j'.tokens) : j = j' := by
  obtain ⟨more, hmore⟩ := h
  have hread := ofTokens?_tokens j'
  rw [← hmore, ofTokens?, Assembly.run_tokens] at hread
  cases more with
  | nil => exact Option.some.inj hread
  | cons t more => cases hread

/-- Objects spell the same where the text of one starts with the text of the other. -/
theorem spelled_eq_of_prefix {r : Decimal.Reader} {members members' : List (String × Json)}
    (hlegible : (obj members).spelled.Legible r) (hlegible' : (obj members').spelled.Legible r)
    (h : (obj members).compactChars <+: (obj members').compactChars) :
    (obj members).spelled = (obj members').spelled := by
  apply eq_of_tokens_prefix
  rw [← compactChars_spelled, ← compactChars_spelled (obj members')] at h
  rw [spelled_obj] at hlegible hlegible' h ⊢
  rw [spelled_obj] at h ⊢
  obtain ⟨rest, hrest⟩ := h
  have hwhole := lex_compactChars_obj hlegible' [] []
  rw [List.append_nil, ← hrest, lex_compactChars_obj hlegible, List.append_nil, List.append_nil,
    lex_nil, List.reverse_reverse] at hwhole
  simpa using prefix_of_lex hwhole

end Json
end LiftedPomdp
