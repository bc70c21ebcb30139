import LiftedPomdp.Json.Parser
import LiftedPomdp.Proofs.Json.Lexing

/-!
# What a text spells can be written again

Every integer in a document that a text spells fits in 64 bits, and every real is
finite where numbers are rounded once.  This holds of each token that the automaton
finds, and the machine puts documents together from nothing else.
-/

namespace LiftedPomdp
namespace Json

open Decimal

/-- Whether all leaves of a document that have a value can be read back from its
text, if numbers are rounded once. -/
def Readable (j : Json) : Prop :=
  ∀ l ∈ j.leaves, l ≠ .garbled → l.IsLegible .nearest

section Readable

theorem Legible.readable {j : Json} (hj : j.Legible .nearest) : j.Readable :=
  fun l hl _ => hj l hl

theorem readable_garbled : garbled.Readable := by
  simp [Readable, leaves]

theorem readable_arr {items : List Json} : (arr items).Readable ↔ ∀ j ∈ items, j.Readable := by
  simp only [Readable, leaves, leavesOfItems_eq, List.forall_mem_flatMap]

theorem readable_obj {members : List (String × Json)} :
    (obj members).Readable ↔ ∀ m ∈ members, m.2.Readable := by
  simp only [Readable, leaves, leavesOfMembers_eq, List.forall_mem_flatMap]

variable {j : Json} (hj : j.Readable)
include hj

theorem Readable.inside {n : Nat} {q : Json} (h : Inside n j q) : q.Readable :=
  fun l hl => hj l (h.mem_leaves hl)

theorem Readable.child {c : Json} (hc : c ∈ j.children) : c.Readable :=
  hj.inside (inside_of_mem_children hc)

theorem Readable.clip (n : Nat) : (j.clip n).Readable := by
  intro l hl hgarbled
  exact hj l ((mem_leaves_clip n j hl).resolve_left hgarbled) hgarbled

end Readable

/-! ## Numbers and words -/

theorem readable_real {x : Float} (h : x.isFinite = true) : (real x).Readable :=
  Legible.readable ((legible_real x).mpr (Reader.readsBack_nearest.mpr h))

theorem readable_realNumeral (negative : Bool) (whole fraction : List Char) (power : Int) :
    (realNumeral .nearest negative whole fraction power).Readable := by
  unfold realNumeral
  cases hread : Reader.nearest.read? whole fraction power with
  | none => exact readable_garbled
  | some x =>
      have hx := Reader.isFinite_of_nearest_read? hread
      cases negative with
      | false => exact readable_real hx
      | true => exact readable_real (Binary64.isFinite_neg hx)

theorem readable_of_numeral? {cs : List Char} {j : Json}
    (h : numeral? .nearest cs = some j) : j.Readable := by
  unfold numeral? at h
  extract_lets negative unsigned whole afterWhole hasPoint fraction afterFraction hasPower power
    powerSigned powerDigits wellFormed n magnitude exponent at h
  split_ifs at h with hwellFormed hint hnegative
  · have hfits := (Bool.and_eq_true_iff.mp hint).2
    simp only [fitsWord, hnegative, if_true, decide_eq_true_eq] at hfits
    cases h
    apply Legible.readable
    rw [legible_int]
    omega
  · have hfits := (Bool.and_eq_true_iff.mp hint).2
    simp only [fitsWord, hnegative, Bool.false_eq_true, if_false, decide_eq_true_eq] at hfits
    cases h
    apply Legible.readable
    rw [legible_int]
    omega
  · cases h
    exact readable_realNumeral _ _ _ _

theorem readable_of_word? {cs : List Char} {j : Json} (h : word? cs = some j) : j.Readable := by
  unfold word? at h
  split at h <;> cases h
  · exact legible_null.readable
  · exact (legible_bool true).readable
  · exact (legible_bool false).readable

/-! ## Tokens -/

/-- Whether a token stands for a document that can be read back. -/
def Token.Readable : Token → Prop
  | .atom j => j.Readable
  | _ => True

/-- Whether all tokens found so far can be read back. -/
def Lexer.Readable (l : Lexer) : Prop :=
  ∀ t ∈ l.found, t.Readable

namespace Lexer

variable {l l' : Lexer} (hl : l.Readable)
include hl

theorem Readable.push {t : Token} (ht : t.Readable) : (l.push t).Readable :=
  List.forall_mem_cons.mpr ⟨ht, hl⟩

theorem Readable.close (h : l.close .nearest = some l') : l'.Readable := by
  unfold Lexer.close at h
  cases hreading : l.reading with
  | between =>
      simp only [hreading] at h
      cases h
      exact hl
  | word read =>
      simp only [hreading, Option.map_eq_some_iff] at h
      obtain ⟨j, hj, rfl⟩ := h
      exact hl.push (readable_of_word? hj)
  | numeral read =>
      simp only [hreading, Option.map_eq_some_iff] at h
      obtain ⟨j, hj, rfl⟩ := h
      exact hl.push (readable_of_numeral? hj)
  | _ => simp [hreading] at h

theorem Readable.begin {c : Char} (h : l.begin c = some l') : l'.Readable := by
  unfold Lexer.begin at h
  split_ifs at h <;> cases h <;> first | exact hl | exact hl.push trivial

theorem Readable.textStep {read : Option (List Char)} {c : Char}
    (h : l.textStep read c = some l') : l'.Readable := by
  unfold Lexer.textStep at h
  split_ifs at h <;> cases h <;> first | exact hl | exact hl.push trivial

theorem Readable.escapeStep {read : Option (List Char)} {c : Char}
    (h : l.escapeStep read c = some l') : l'.Readable := by
  unfold Lexer.escapeStep at h
  split_ifs at h
  · cases h
    exact hl
  · obtain ⟨d, -, rfl⟩ := Option.map_eq_some_iff.mp h
    exact hl

/-- A character leaves the tokens as they are or adds one that can be read back. -/
theorem Readable.step {c : Char} (h : l.step .nearest c = some l') : l'.Readable := by
  unfold Lexer.step at h
  have hclose : (l.close .nearest).bind (·.begin c) = some l' → l'.Readable := by
    intro h
    obtain ⟨closed, hclosed, hbegin⟩ := Option.bind_eq_some_iff.mp h
    exact (hl.close hclosed).begin hbegin
  cases hreading : l.reading with
  | between => exact hl.begin (by simpa [hreading] using h)
  | word read =>
      simp only [hreading] at h
      split_ifs at h
      · cases h
        exact hl
      · exact hclose h
  | numeral read =>
      simp only [hreading] at h
      split_ifs at h
      · cases h
        exact hl
      · exact hclose h
  | text read => exact hl.textStep (by simpa [hreading] using h)
  | escape read => exact hl.escapeStep (by simpa [hreading] using h)
  | unit read high missing value =>
      simp only [hreading] at h
      cases hdigit : hexValue? c with
      | none => simp [hdigit] at h
      | some d =>
          simp only [hdigit] at h
          split_ifs at h <;> cases h <;> exact hl
  | pair read high =>
      simp only [hreading] at h
      split_ifs at h
      · cases h
        exact hl
      · exact hl.textStep h
  | pairEscape read high =>
      simp only [hreading] at h
      split_ifs at h
      · cases h
        exact hl
      · exact hl.escapeStep h

theorem Readable.run {cs : List Char} (h : l.run .nearest cs = some l') : l'.Readable := by
  induction cs generalizing l with
  | nil =>
      cases h
      exact hl
  | cons c cs ih =>
      rw [Lexer.run] at h
      cases hstep : l.step .nearest c with
      | none => simp [hstep] at h
      | some next => exact ih (hl.step hstep) (by simpa [hstep] using h)

end Lexer

theorem readable_of_tokens? {cs : List Char} {ts : List Token} (h : tokens? .nearest cs = some ts) :
    ∀ t ∈ ts, t.Readable := by
  have hstart : Lexer.start.Readable := List.forall_mem_nil _
  unfold tokens? at h
  cases hrun : Lexer.start.run .nearest cs with
  | none => simp [hrun] at h
  | some l =>
      simp only [hrun, Option.map_eq_some_iff] at h
      obtain ⟨closed, hclose, rfl⟩ := h
      intro t ht
      exact (hstart.run hrun).close hclose t (List.mem_reverse.mp ht)

/-! ## Documents -/

/-- Whether all members read so far can be read back. -/
def Members.Readable (members : Members) : Prop :=
  ∀ ms ∈ members, ∀ m ∈ ms, m.2.Readable

theorem Members.readable_nil : Members.Readable (some []) := by
  rintro - ⟨⟩
  exact List.forall_mem_nil _

theorem Members.Readable.add {members : Members} (hms : members.Readable) {key : Option String}
    {j : Json} (hj : j.Readable) : (members.add key j).Readable := by
  cases members with
  | none => nofun
  | some ms =>
      cases key with
      | none => nofun
      | some k =>
          rintro - ⟨⟩
          exact List.forall_mem_cons.mpr ⟨hj, hms ms rfl⟩

theorem Members.Readable.close {members : Members} (hms : members.Readable) :
    members.close.Readable := by
  cases members with
  | none => exact readable_garbled
  | some ms =>
      apply readable_obj.mpr
      intro m hm
      exact hms ms rfl m (List.mem_reverse.mp hm)

/-- Whether the complete parts of an open array or object can be read back. -/
def Open.Readable : Open → Prop
  | .array items => ∀ j ∈ items, j.Readable
  | .object members _ => members.Readable

/-- Whether all complete parts that the machine holds can be read back. -/
def Assembly.Readable : Assembly → Prop
  | .value stack | .firstItem stack | .firstKey stack => ∀ o ∈ stack, o.Readable
  | .key members stack | .colon members _ stack => members.Readable ∧ ∀ o ∈ stack, o.Readable
  | .after j stack => j.Readable ∧ ∀ o ∈ stack, o.Readable

namespace Assembly

variable {a a' : Assembly}

theorem readable_of_beginValue {stack : List Open} {t : Token}
    (hstack : ∀ o ∈ stack, o.Readable) (ht : t.Readable) (h : beginValue stack t = some a) :
    a.Readable := by
  cases t with
  | arrayStart => cases h; exact hstack
  | objectStart => cases h; exact hstack
  | text s =>
      cases s with
      | none => cases h; exact ⟨readable_garbled, hstack⟩
      | some s => cases h; exact ⟨(legible_str s).readable, hstack⟩
  | atom j => cases h; exact ⟨ht, hstack⟩
  | _ => cases h

/-- A token adds to the complete parts only what can be read back. -/
theorem Readable.step {t : Token} (ha : a.Readable) (ht : t.Readable) (h : a.step t = some a') :
    a'.Readable := by
  revert h
  -- the cases that are not listed refuse the token
  fun_cases Assembly.step a t with
  | case1 stack => exact readable_of_beginValue ha ht
  | case2 stack =>
      rintro ⟨⟩
      exact ⟨readable_arr.mpr (List.forall_mem_nil _), ha⟩
  | case3 stack =>
      have hopen : ∀ o ∈ .array [] :: stack, o.Readable :=
        List.forall_mem_cons.mpr ⟨List.forall_mem_nil _, ha⟩
      exact readable_of_beginValue hopen ht
  | case4 stack =>
      rintro ⟨⟩
      exact ⟨readable_obj.mpr (List.forall_mem_nil _), ha⟩
  | case5 stack k =>
      rintro ⟨⟩
      exact ⟨Members.readable_nil, ha⟩
  | case7 members stack k =>
      rintro ⟨⟩
      exact ha
  | case9 members k stack =>
      rintro ⟨⟩
      exact List.forall_mem_cons.mpr ha
  | case11 j items stack =>
      obtain ⟨hitems, hstack⟩ := List.forall_mem_cons.mp ha.2
      have hopen : Open.Readable (.array (j :: items)) := List.forall_mem_cons.mpr ⟨ha.1, hitems⟩
      rintro ⟨⟩
      exact List.forall_mem_cons.mpr ⟨hopen, hstack⟩
  | case12 j items stack =>
      obtain ⟨hitems, hstack⟩ := List.forall_mem_cons.mp ha.2
      have hall : ∀ i ∈ (j :: items).reverse, i.Readable := fun i hi =>
        List.forall_mem_cons.mpr ⟨ha.1, hitems⟩ i (List.mem_reverse.mp hi)
      rintro ⟨⟩
      exact ⟨readable_arr.mpr hall, hstack⟩
  | case13 j members k stack =>
      obtain ⟨hmembers, hstack⟩ := List.forall_mem_cons.mp ha.2
      rintro ⟨⟩
      exact ⟨Members.Readable.add hmembers ha.1, hstack⟩
  | case14 j members k stack =>
      obtain ⟨hmembers, hstack⟩ := List.forall_mem_cons.mp ha.2
      rintro ⟨⟩
      exact ⟨(Members.Readable.add hmembers ha.1).close, hstack⟩
  | _ => rintro ⟨⟩

theorem Readable.run {ts : List Token} (ha : a.Readable) (hts : ∀ t ∈ ts, t.Readable)
    (h : a.run ts = some a') : a'.Readable := by
  induction ts generalizing a with
  | nil =>
      cases h
      exact ha
  | cons t ts ih =>
      obtain ⟨ht, hts⟩ := List.forall_mem_cons.mp hts
      rw [Assembly.run] at h
      cases hstep : a.step t with
      | none => simp [hstep] at h
      | some next => exact ih (ha.step ht hstep) hts (by simpa [hstep] using h)

end Assembly

/-- What a text spells can be written so that it is read back. -/
theorem readable_of_parseBy? {s : String} {j : Json} (h : parseBy? .nearest s = some j) :
    j.Readable := by
  have hstart : (Assembly.value []).Readable := List.forall_mem_nil _
  unfold parseBy? at h
  cases htokens : tokens? .nearest s.toList with
  | none => simp [htokens] at h
  | some ts =>
      simp only [htokens, ofTokens?] at h
      cases hrun : (Assembly.value []).run ts with
      | none => simp [hrun] at h
      | some a =>
          have ha := hstart.run (readable_of_tokens? htokens) hrun
          simp only [hrun] at h
          unfold Assembly.result? at h
          split at h
          · cases h
            exact ha.1
          · cases h

end Json
end LiftedPomdp
