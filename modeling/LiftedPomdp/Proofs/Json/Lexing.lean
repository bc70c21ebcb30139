import LiftedPomdp.Json.Printer
import LiftedPomdp.Proofs.Json.Parts
import LiftedPomdp.Proofs.Json.Real

/-!
# The tokens of a written document

A document over several lines is cut into the tokens of its parts, between
brackets and with colons and commas.  A numeral and a word end where a character
follows that cannot go on with them.
-/

namespace LiftedPomdp
namespace Json

open Decimal

/-! ## The tokens of a document -/

mutual

/-- The tokens that a document is written with. -/
def tokens : Json → List Token
  | .arr items => .arrayStart :: (itemTokens items ++ [.arrayEnd])
  | .obj members => .objectStart :: (memberTokens members ++ [.objectEnd])
  | .str s => [.text (some s)]
  | j => [.atom j]

/-- The tokens of the items of an array, separated by commas. -/
def itemTokens : List Json → List Token
  | [] => []
  | [j] => j.tokens
  | j :: js => j.tokens ++ .comma :: itemTokens js

/-- The tokens of the members of an object, separated by commas. -/
def memberTokens : List (String × Json) → List Token
  | [] => []
  | [(k, j)] => .text (some k) :: .colon :: j.tokens
  | (k, j) :: ms => .text (some k) :: .colon :: (j.tokens ++ .comma :: memberTokens ms)

end

/-! ## Reading on after some tokens -/

/-- The tokens of a text that goes on in a state of the automaton. -/
def Lexer.finish (r : Reader) (l : Lexer) (cs : List Char) : Option (List Token) :=
  match l.run r cs with
  | none => none
  | some l => (l.close r).map fun l => l.found.reverse

/-- The tokens of a text that goes on after tokens already found, which are given
in reverse. -/
def lex (r : Reader) (found : List Token) (cs : List Char) : Option (List Token) :=
  Lexer.finish r { found, reading := .between } cs

variable {r : Reader} {found : List Token} {cs rest : List Char}

theorem tokens?_eq_lex : tokens? r cs = lex r [] cs :=
  rfl

theorem lex_nil : lex r found [] = some found.reverse :=
  rfl

@[simp]
theorem lex_arrayStart : lex r found ('[' :: cs) = lex r (.arrayStart :: found) cs :=
  rfl

@[simp]
theorem lex_arrayEnd : lex r found (']' :: cs) = lex r (.arrayEnd :: found) cs :=
  rfl

@[simp]
theorem lex_objectStart : lex r found ('\x7b' :: cs) = lex r (.objectStart :: found) cs :=
  rfl

@[simp]
theorem lex_objectEnd : lex r found ('\x7d' :: cs) = lex r (.objectEnd :: found) cs :=
  rfl

@[simp]
theorem lex_colon : lex r found (':' :: cs) = lex r (.colon :: found) cs :=
  rfl

@[simp]
theorem lex_comma : lex r found (',' :: cs) = lex r (.comma :: found) cs :=
  rfl

@[simp]
theorem lex_space : lex r found (' ' :: cs) = lex r found cs :=
  rfl

@[simp]
theorem lex_newLine (level : Nat) : lex r found (newLine level ++ cs) = lex r found cs := by
  have hspaces : ∀ n, lex r found (List.replicate n ' ' ++ cs) = lex r found cs := by
    intro n
    induction n with
    | zero => rfl
    | succ n ih => rw [List.replicate_succ, List.cons_append, lex_space, ih]
  exact hspaces _

/-! ## Numbers and words -/

/-- A text that does not go on with a number or a word. -/
def Delimited (rest : List Char) : Prop :=
  ∀ c ∈ rest.head?, isLetter c = false ∧ isNumeral c = false

theorem delimited_nil : Delimited [] := by
  intro c hc
  cases hc

theorem delimited_cons {c : Char} (hletter : isLetter c = false) (hnumeral : isNumeral c = false) :
    Delimited (c :: cs) := by
  rintro d hd
  obtain rfl : c = d := by simpa using hd
  exact ⟨hletter, hnumeral⟩

/-- What is being read ends where the text does not go on with it. -/
theorem Lexer.finish_of_delimited {l : Lexer} (hclose : l.close r = some ⟨found, .between⟩)
    (hrest : Delimited rest) : l.finish r rest = lex r found rest := by
  cases rest with
  | nil =>
      unfold lex finish
      simp only [run, hclose]
      rfl
  | cons c cs =>
      obtain ⟨hletter, hnumeral⟩ := hrest c rfl
      have hstep : l.step r c = Lexer.step r ⟨found, .between⟩ c := by
        unfold step
        cases hreading : l.reading with
        | between =>
            rw [close, hreading] at hclose
            rw [Option.some.inj hclose]
        | word read => simp [hletter, hclose]
        | numeral read => simp [hnumeral, hclose]
        | _ =>
            rw [close, hreading] at hclose
            cases hclose
      unfold lex finish
      rw [run, run, hstep]

theorem begin_of_isDigit {l : Lexer} {c : Char} (h : isDigit c = true) :
    l.begin c = some { l with reading := .numeral [c] } := by
  have hc : c = Char.ofNat c.toNat := (Char.ofNat_toNat c).symm
  obtain ⟨hlow, hhigh⟩ : 48 ≤ c.toNat ∧ c.toNat ≤ 57 := by simpa [isDigit] using h
  interval_cases c.toNat <;> subst hc <;> rfl

theorem run_numeral {read : List Char} (h : ∀ c ∈ cs, isNumeral c = true) :
    Lexer.run r ⟨found, .numeral read⟩ (cs ++ rest) =
      Lexer.run r ⟨found, .numeral (cs.reverse ++ read)⟩ rest := by
  induction cs generalizing read with
  | nil => rfl
  | cons c cs ih =>
      obtain ⟨hc, hcs⟩ := List.forall_mem_cons.mp h
      rw [List.cons_append, Lexer.run, Lexer.step]
      simp only [hc, if_true]
      rw [ih hcs, List.reverse_cons, List.append_assoc]
      rfl

/-! The characters of a numeral. -/

theorem isNumeral_of_isDigit {c : Char} (h : isDigit c = true) : isNumeral c = true := by
  simp [isNumeral, h]

theorem isNumeral_of_mem_numeralChars {negative : Bool} {whole fraction : List Char}
    {power : Option Int} (hwhole : IsWhole whole) (hfraction : ∀ c ∈ fraction, isDigit c = true) :
    ∀ c ∈ numeralChars negative whole fraction power, isNumeral c = true := by
  have hpower : ∀ c ∈ powerChars power, isNumeral c = true := by
    cases power with
    | none => simp [powerChars]
    | some k =>
        have hdigits : ∀ c ∈ digits k.natAbs, isNumeral c = true := fun c hc =>
          isNumeral_of_isDigit (isDigit_of_mem_digits hc)
        by_cases hk : k < 0 <;> simpa [powerChars, hk] using ⟨by decide, by decide, hdigits⟩
  have hpoint : ∀ c ∈ fractionChars fraction, isNumeral c = true := by
    cases fraction with
    | nil => simp [fractionChars]
    | cons c cs =>
        exact List.forall_mem_cons.mpr
          ⟨by decide, fun c hc => isNumeral_of_isDigit (hfraction c hc)⟩
  intro c hc
  simp only [numeralChars, List.mem_append] at hc
  rcases hc with hc | hc | hc | hc
  · cases negative
    · cases hc
    · rw [List.mem_singleton.mp hc]
      decide
  · exact isNumeral_of_isDigit (hwhole.digits c hc)
  · exact hpoint c hc
  · exact hpower c hc

/-- A numeral is one token. -/
theorem lex_numeralChars {negative : Bool} {whole fraction : List Char} {power : Option Int}
    {j : Json} (hwhole : IsWhole whole) (hfraction : ∀ c ∈ fraction, isDigit c = true)
    (hvalue : numeral? r (numeralChars negative whole fraction power) = some j)
    (hrest : Delimited rest) :
    lex r found (numeralChars negative whole fraction power ++ rest) =
      lex r (.atom j :: found) rest := by
  have hall := @isNumeral_of_mem_numeralChars negative whole fraction power hwhole hfraction
  obtain ⟨c, cs, hchars, hbegin⟩ : ∃ c cs,
      numeralChars negative whole fraction power = c :: cs ∧
        Lexer.step r ⟨found, .between⟩ c = some ⟨found, .numeral [c]⟩ := by
    obtain ⟨first, others, rfl⟩ := List.exists_cons_of_ne_nil hwhole.ne_nil
    cases negative with
    | true => exact ⟨'-', _, rfl, rfl⟩
    | false => exact ⟨first, _, rfl, begin_of_isDigit (hwhole.digits first List.mem_cons_self)⟩
  rw [hchars] at hall hvalue ⊢
  have hclose : Lexer.close r ⟨found, .numeral (cs.reverse ++ [c])⟩ =
      some ⟨.atom j :: found, .between⟩ := by
    simp [Lexer.close, hvalue, Lexer.push]
  rw [← Lexer.finish_of_delimited hclose hrest]
  unfold lex Lexer.finish
  rw [List.cons_append, Lexer.run, hbegin]
  simp only
  rw [run_numeral (List.forall_mem_cons.mp hall).2]

/-! ## Strings -/

theorem hexValue?_hexDigit {d : Nat} (h : d < 16) :
    hexValue? (Bytes.hexDigit d) = some d := by
  interval_cases d <;> rfl

/-- The automaton reads a character of a string back. -/
theorem run_escapeChar (read : List Char) (c : Char) :
    Lexer.run r ⟨found, .text (some read)⟩ (escapeChar c ++ rest) =
      Lexer.run r ⟨found, .text (some (c :: read))⟩ rest := by
  unfold escapeChar
  split_ifs with hquote hbackslash hline hreturn htab hback hfeed hcontrol
  case pos => subst hquote; rfl
  case pos => subst hbackslash; rfl
  case pos => subst hline; rfl
  case pos => subst hreturn; rfl
  case pos => subst htab; rfl
  case pos => subst hback; rfl
  case pos => subst hfeed; rfl
  case pos =>
    have hhigh := hexValue?_hexDigit (show c.toNat / 16 < 16 by omega)
    have hlow := hexValue?_hexDigit (show c.toNat % 16 < 16 by omega)
    have hunit : 16 * (c.toNat / 16) + c.toNat % 16 = c.toNat := Nat.div_add_mod c.toNat 16
    have hafter : Lexer.afterUnit (some read) none c.toNat = .text (some (c :: read)) := by
      rw [Lexer.afterUnit, if_neg (by omega), if_neg (by omega), Option.map_some,
        Char.ofNat_toNat]
    have hzero : hexValue? '0' = some 0 := rfl
    simp [Lexer.run, Lexer.step, Lexer.textStep, Lexer.escapeStep, hzero, hhigh, hlow, hunit,
      hafter]
  case neg => simp [Lexer.run, Lexer.step, Lexer.textStep, hquote, hbackslash, hcontrol]

theorem lex_quoteChars (s : String) :
    lex r found (quoteChars s ++ cs) = lex r (.text (some s) :: found) cs := by
  have hrun : ∀ (text read : List Char),
      Lexer.run r ⟨found, .text (some read)⟩ (text.flatMap escapeChar ++ '"' :: cs) =
        Lexer.run r ⟨.text (some (String.ofList (read.reverse ++ text))) :: found, .between⟩ cs := by
    intro text
    induction text with
    | nil =>
        intro read
        rw [List.append_nil]
        rfl
    | cons c text ih =>
        intro read
        rw [List.flatMap_cons, List.append_assoc, run_escapeChar, ih, List.reverse_cons,
          List.append_assoc]
        rfl
  have hstart : lex r found (quoteChars s ++ cs) =
      Lexer.finish r ⟨found, .text (some [])⟩ (s.toList.flatMap escapeChar ++ '"' :: cs) := by
    unfold quoteChars
    rw [List.cons_append, List.append_assoc]
    rfl
  rw [hstart]
  unfold lex Lexer.finish
  rw [hrun, List.reverse_nil, List.nil_append, String.ofList_toList]

/-! ## Documents -/

/-- Whether a leaf of a document can be read back from its text: an integer of
64 bits, signed or unsigned, a real that is read back, or anything else that has a
value. -/
def IsLegible (r : Reader) : Json → Prop
  | .int n => -9223372036854775808 ≤ n ∧ n < 18446744073709551616
  | .real x => r.ReadsBack x
  | .garbled => False
  | _ => True

/-- Whether all leaves of a document can be read back from its text. -/
def Legible (r : Reader) (j : Json) : Prop :=
  ∀ l ∈ j.leaves, l.IsLegible r

/-- Whether a leaf of a document is read back, in case it is a real. -/
def IsReadBack (r : Reader) : Json → Prop
  | .real x => r.ReadsBack x
  | _ => True

/-- Whether all reals in a document are read back. -/
def ReadsBack (r : Reader) (j : Json) : Prop :=
  ∀ l ∈ j.leaves, l.IsReadBack r

instance (r : Reader) (j : Json) : Decidable (j.IsReadBack r) :=
  match j with
  | .real x => inferInstanceAs (Decidable (r.ReadsBack x))
  | .null | .bool _ | .int _ | .str _ | .arr _ | .obj _ | .garbled => .isTrue trivial

instance (r : Reader) (j : Json) : Decidable (j.ReadsBack r) :=
  inferInstanceAs (Decidable (∀ l ∈ j.leaves, l.IsReadBack r))

section Legible

@[simp]
theorem legible_str (s : String) : (str s).Legible r := by
  simp [Legible, leaves, IsLegible]

@[simp]
theorem legible_bool (b : Bool) : (bool b).Legible r := by
  simp [Legible, leaves, IsLegible]

@[simp]
theorem legible_null : null.Legible r := by
  simp [Legible, leaves, IsLegible]

@[simp]
theorem legible_int (n : Int) :
    (int n).Legible r ↔ -9223372036854775808 ≤ n ∧ n < 18446744073709551616 := by
  simp [Legible, leaves, IsLegible]

@[simp]
theorem legible_real (x : Float) : (real x).Legible r ↔ r.ReadsBack x := by
  simp [Legible, leaves, IsLegible]

@[simp]
theorem legible_arr (items : List Json) : (arr items).Legible r ↔ ∀ j ∈ items, j.Legible r := by
  simp only [Legible, leaves, leavesOfItems_eq, List.forall_mem_flatMap]

@[simp]
theorem legible_obj (members : List (String × Json)) :
    (obj members).Legible r ↔ ∀ m ∈ members, m.2.Legible r := by
  simp only [Legible, leaves, leavesOfMembers_eq, List.forall_mem_flatMap]

@[simp]
theorem readsBack_real (x : Float) : (real x).ReadsBack r ↔ r.ReadsBack x := by
  simp [ReadsBack, leaves, IsReadBack]

@[simp]
theorem readsBack_arr (items : List Json) :
    (arr items).ReadsBack r ↔ ∀ j ∈ items, j.ReadsBack r := by
  simp only [ReadsBack, leaves, leavesOfItems_eq, List.forall_mem_flatMap]

@[simp]
theorem readsBack_obj (members : List (String × Json)) :
    (obj members).ReadsBack r ↔ ∀ m ∈ members, m.2.ReadsBack r := by
  simp only [ReadsBack, leaves, leavesOfMembers_eq, List.forall_mem_flatMap]

theorem legible_strings (ss : List String) : (strings ss).Legible r := by
  simp [strings]

variable {j : Json} (hj : j.Legible r)
include hj

theorem Legible.isSound : j.isSound = true := by
  rw [isSound_iff]
  rintro l hl rfl
  exact hj _ hl

theorem Legible.readsBack : j.ReadsBack r := by
  intro l hl
  have hlegible := hj l hl
  cases l with
  | real x => exact hlegible
  | _ => trivial

/-- Another reader need only read the reals back. -/
theorem Legible.of_readsBack {r' : Reader} (h : j.ReadsBack r') : j.Legible r' := by
  intro l hl
  have hlegible := hj l hl
  cases l with
  | real x => exact h (.real x) hl
  | _ => exact hlegible

end Legible

/-- A document without parts is written as its token. -/
theorem lex_scalarChars {j : Json} (hj : j.IsLegible r) (harr : ∀ items, j ≠ .arr items)
    (hobj : ∀ members, j ≠ .obj members) (hrest : Delimited rest) :
    lex r found (j.scalarChars ++ rest) = lex r (j.tokens.reverse ++ found) rest := by
  have hword : ∀ (read : List Char) {j : Json}, word? read.reverse = some j →
      Lexer.finish r ⟨found, .word read⟩ rest = lex r (.atom j :: found) rest := by
    intro read j hword
    exact Lexer.finish_of_delimited (by simp [Lexer.close, hword, Lexer.push]) hrest
  cases j with
  | null => exact hword ['l', 'l', 'u', 'n'] rfl
  | bool b =>
      cases b with
      | true => exact hword ['e', 'u', 'r', 't'] rfl
      | false => exact hword ['e', 's', 'l', 'a', 'f'] rfl
  | int n =>
      have hvalue := numeral?_intChars r hj.1 hj.2
      rw [scalarChars]
      rw [intChars_eq] at hvalue ⊢
      exact lex_numeralChars (isWhole_digits _) (by simp) hvalue hrest
  | real x =>
      obtain ⟨negative, whole, fraction, power, hchars, hwhole, hfraction⟩ :=
        exists_numeralChars_eq (Reader.ReadsBack.isFinite hj)
      have hvalue : numeral? r (Decimal.Layout.data.realChars x) = some (.real x) := hj
      rw [scalarChars]
      rw [hchars] at hvalue ⊢
      exact lex_numeralChars hwhole hfraction hvalue hrest
  | str s => exact lex_quoteChars s
  | arr items => exact absurd rfl (harr items)
  | obj members => exact absurd rfl (hobj members)
  | garbled => exact hj.elim

theorem delimited_newLine (level : Nat) : Delimited (newLine level ++ cs) :=
  delimited_cons rfl rfl

mutual

/-- A document over several lines is cut into its tokens. -/
theorem lex_prettyChars {j : Json} (hj : j.Legible r) (level : Nat) {found : List Token}
    {rest : List Char} (hrest : Delimited rest) :
    lex r found (j.prettyChars level ++ rest) = lex r (j.tokens.reverse ++ found) rest := by
  cases j with
  | arr items =>
      cases items with
      | nil => rfl
      | cons j js =>
          simp only [prettyChars, tokens, List.cons_append, List.append_assoc, lex_arrayStart]
          rw [lex_prettyItems hj (level + 1) (delimited_newLine level)]
          simp
  | obj members =>
      cases members with
      | nil => rfl
      | cons m ms =>
          simp only [prettyChars, tokens, List.cons_append, List.append_assoc, lex_objectStart]
          rw [lex_prettyMembers hj (level + 1) (delimited_newLine level)]
          simp
  | _ => exact lex_scalarChars (hj _ List.mem_cons_self) (fun _ => nofun) (fun _ => nofun) hrest

theorem lex_prettyItems {items : List Json} (hitems : ∀ l ∈ leavesOfItems items, l.IsLegible r)
    (level : Nat) {found : List Token} {rest : List Char} (hrest : Delimited rest) :
    lex r found (prettyItems level items ++ rest) =
      lex r ((itemTokens items).reverse ++ found) rest := by
  cases items with
  | nil => rfl
  | cons j js =>
      obtain ⟨hj, hjs⟩ := List.forall_mem_append.mp hitems
      cases js with
      | nil =>
          simp only [prettyItems, itemTokens, List.append_assoc, lex_newLine]
          exact lex_prettyChars hj level hrest
      | cons j' js =>
          simp only [prettyItems, itemTokens, List.append_assoc, List.cons_append, lex_newLine]
          rw [lex_prettyChars hj level (delimited_cons rfl rfl), lex_comma,
            lex_prettyItems hjs level hrest]
          simp

theorem lex_prettyMembers {members : List (String × Json)}
    (hmembers : ∀ l ∈ leavesOfMembers members, l.IsLegible r) (level : Nat) {found : List Token}
    {rest : List Char} (hrest : Delimited rest) :
    lex r found (prettyMembers level members ++ rest) =
      lex r ((memberTokens members).reverse ++ found) rest := by
  cases members with
  | nil => rfl
  | cons m ms =>
      obtain ⟨k, j⟩ := m
      obtain ⟨hj, hms⟩ := List.forall_mem_append.mp hmembers
      cases ms with
      | nil =>
          simp only [prettyMembers, memberTokens, List.append_assoc, List.cons_append,
            lex_newLine, lex_quoteChars, lex_colon, lex_space]
          rw [lex_prettyChars hj level hrest]
          simp
      | cons m' ms =>
          simp only [prettyMembers, memberTokens, List.append_assoc, List.cons_append,
            lex_newLine, lex_quoteChars, lex_colon, lex_space]
          rw [lex_prettyChars hj level (delimited_cons rfl rfl), lex_comma,
            lex_prettyMembers hms level hrest]
          simp

end

/-- The tokens of the text of a document. -/
theorem tokens?_prettyChars {j : Json} (hj : j.Legible r) :
    tokens? r (j.prettyChars 0) = some j.tokens := by
  rw [tokens?_eq_lex, ← List.append_nil (j.prettyChars 0), lex_prettyChars hj 0 delimited_nil,
    List.append_nil, lex_nil, List.reverse_reverse]

end Json
end LiftedPomdp
