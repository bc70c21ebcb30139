import LiftedPomdp.Proofs.Ground.Lookup
import LiftedPomdp.Proofs.Ground.Reordering
import Mathlib.Data.List.Induction

/-!
# Overriding defaults

A table starts with the defaults of its fluents, and every assignment of an
instance changes the entry of its ground fluent and no other.  So the last
assignment to a ground fluent prevails over those before it and over the default,
and a ground fluent that is assigned nothing keeps the default.
-/

namespace LiftedPomdp

open Effects Grounding

namespace Assignment

/-- The last of some assignments to a ground fluent. -/
def last? (assignments : List Assignment) (g : GroundFluent) : Option Assignment :=
  assignments.reverse.find? fun a => decide (a.target = g)

@[simp]
theorem last?_nil (g : GroundFluent) : last? [] g = none :=
  rfl

@[simp]
theorem last?_concat (assignments : List Assignment) (a : Assignment) (g : GroundFluent) :
    last? (assignments ++ [a]) g = if a.target = g then some a else last? assignments g := by
  rw [last?, List.reverse_append, List.reverse_singleton, List.singleton_append,
    List.find?_cons]
  split
  next heq => rw [if_pos (of_decide_eq_true heq)]
  next hne => rw [if_neg (of_decide_eq_false hne), last?]

/-- The last assignment to a ground fluent is one after which there is no other. -/
theorem last?_eq_some_iff {assignments : List Assignment} {g : GroundFluent} {a : Assignment} :
    last? assignments g = some a ↔
      a.target = g ∧ ∃ before after, assignments = before ++ a :: after ∧
        ∀ a' ∈ after, a'.target ≠ g := by
  simp only [last?, List.find?_eq_some_iff_append, decide_eq_true_eq, Bool.not_eq_true',
    decide_eq_false_iff_not]
  refine and_congr_right fun _ => ?_
  constructor
  · rintro ⟨as, bs, heq, hnone⟩
    refine ⟨bs.reverse, as.reverse, ?_, fun a' ha' => hnone a' (List.mem_reverse.mp ha')⟩
    rw [← List.reverse_reverse assignments, heq]
    simp
  · rintro ⟨before, after, rfl, hnone⟩
    exact ⟨after.reverse, before.reverse, by simp,
      fun a' ha' => hnone a' (List.mem_reverse.mp ha')⟩

theorem last?_eq_none_iff {assignments : List Assignment} {g : GroundFluent} :
    last? assignments g = none ↔ ∀ a ∈ assignments, a.target ≠ g := by
  simp [last?]

end Assignment

namespace FluentDecl

/-- The value of a ground fluent that nothing is assigned to: the declared default brought into
the range, or the zero of the range. -/
def defaultValue? (f : FluentDecl) : Option Value :=
  match f.default with
  | none => some f.range.zero
  | some v => v.coerce f.range

/-- The value that some assignments give a ground fluent of a declaration: that of the last
assignment to it brought into the range, or the default. -/
def valueUnder? (f : FluentDecl) (assignments : List Assignment) (g : GroundFluent) :
    Option Value :=
  match Assignment.last? assignments g with
  | some a => a.value.coerce f.range
  | none => f.defaultValue?

theorem valueUnder?_concat (f : FluentDecl) (assignments : List Assignment) (a : Assignment)
    (g : GroundFluent) :
    f.valueUnder? (assignments ++ [a]) g =
      if a.target = g then a.value.coerce f.range else f.valueUnder? assignments g := by
  rw [valueUnder?, Assignment.last?_concat]
  split_ifs
  · rfl
  · rw [valueUnder?]

end FluentDecl

theorem Grounding.defaultValue?_eq {f : FluentDecl} {v : Value} (h : defaultValue f = .ok v) :
    f.defaultValue? = some v := by
  unfold defaultValue at h
  split at h
  next hnone =>
    cases h
    rw [FluentDecl.defaultValue?, hnone]
  next hsome =>
    split at h
    next hcoerce =>
      cases h
      rw [FluentDecl.defaultValue?, hsome]
      exact hcoerce
    · cases h

namespace Grounded

variable {d : Domain} {i : Instance} {m : Model} {kind : FluentKind} {context : String}
  {table table' : Table} {g : GroundFluent} {n : Nat} {f : FluentDecl}

/-- Every ground fluent starts with the default of its declaration. -/
theorem getElem?_defaultTable_of_locate? (h : Grounded d i m)
    (hplace : m.locate? g.name g.args = some (kind, n)) (hf : d.fluent? g.name = some f) :
    (defaultTable m.blocks kind)[n]? = f.defaultValue? := by
  obtain ⟨b, hb, j, hj, rfl, hg⟩ :=
    h.getElem?_groundFluents_eq_some_iff.mp (h.locate?_iff_getElem?.mp hplace)
  obtain ⟨f', hf', place, hplaced⟩ := h.exists_placed (mem_blocksOf.mp hb).1
  have hname : f'.name = g.name :=
    hplaced.name.symm.trans (congrArg GroundFluent.name hg).symm
  obtain rfl := Option.some.inj (hf.symm.trans (hname ▸ h.fluent?_eq_some hf'))
  rw [h.getElem?_defaultTable hb hj, defaultValue?_eq hplaced.default]

/-- An assignment changes the entry of its own ground fluent and no other. -/
theorem getElem?_of_assign (h : Grounded d i m) {a : Assignment}
    (hassign : assign m.types m.blocks kind context table a = .ok table')
    (hplace : m.locate? g.name g.args = some (kind, n)) (hf : d.fluent? g.name = some f) :
    table'[n]? = if a.target = g then a.value.coerce f.range else table[n]? := by
  obtain ⟨b, -, hblock, j, -, v, hv, hplace', hlt, hwrite⟩ := h.exists_write hassign
  obtain rfl := Except.ok.inj ((hwrite table hlt).symm.trans hassign)
  split_ifs with hsame
  · subst hsame
    obtain ⟨b', hblock', -, hrange⟩ := h.exists_block_of_fluent? hf
    obtain rfl := Option.some.inj (hblock.symm.trans hblock')
    obtain ⟨-, rfl⟩ := Prod.mk.inj (Option.some.inj (hplace'.symm.trans hplace))
    rw [Array.getElem?_setIfInBounds_self_of_lt hlt, ← hrange, hv]
  · have happart : b.offset + j ≠ n := by
      rintro rfl
      have hread := (h.locate?_iff_getElem?.mp hplace').symm.trans
        (h.locate?_iff_getElem?.mp hplace)
      exact hsame (Option.some.inj hread)
    exact Array.getElem?_setIfInBounds_ne happart

/-- In a table that assignments are written to, every ground fluent has the value that they give
it. -/
theorem getElem?_of_assignAll (h : Grounded d i m) {assignments : List Assignment}
    (hassign : assignAll m.types m.blocks kind context assignments = .ok table)
    (hplace : m.locate? g.name g.args = some (kind, n)) (hf : d.fluent? g.name = some f) :
    table[n]? = f.valueUnder? assignments g := by
  rw [assignAll, seq_eq_ok_iff] at hassign
  obtain ⟨-, hassign⟩ := hassign
  -- The last assignment is the one that prevails, so the induction peels the list from its end.
  induction assignments using List.reverseRecOn generalizing table with
  | nil =>
      rw [List.foldlM_nil, pure_eq_ok_iff] at hassign
      subst hassign
      exact h.getElem?_defaultTable_of_locate? hplace hf
  | append_singleton assignments a ih =>
      rw [List.foldlM_append, bind_eq_ok_iff] at hassign
      obtain ⟨t, hbefore, hlast⟩ := hassign
      rw [List.foldlM_cons, bind_eq_ok_iff] at hlast
      obtain ⟨t', hlast, hdone⟩ := hlast
      rw [List.foldlM_nil, pure_eq_ok_iff] at hdone
      subst hdone
      rw [h.getElem?_of_assign hlast hplace hf, ih hbefore, FluentDecl.valueUnder?_concat]

end Grounded

/-! ## Prescribed values -/

namespace Instance

/-- A lookup gives every ground fluent of a kind the value that some assignments of an instance
and the declarations of its domain prescribe. -/
def Prescribes (i : Instance) (d : Domain) (kind : FluentKind) (assignments : List Assignment)
    (value? : String → List String → Option Value) : Prop :=
  ∀ g, d.Declares i kind g → ∃ f v, d.fluent? g.name = some f ∧
    f.valueUnder? assignments g = some v ∧ value? g.name g.args = some v

/-- What is prescribed for a ground fluent is computed from the two definitions. -/
theorem Prescribes.eq_some {i : Instance} {d : Domain} {kind : FluentKind}
    {assignments : List Assignment} {value? : String → List String → Option Value}
    (h : i.Prescribes d kind assignments value?) {g : GroundFluent}
    (hdeclares : d.Declares i kind g) {f : FluentDecl} (hf : d.fluent? g.name = some f)
    {v : Value} (hv : f.valueUnder? assignments g = some v) : value? g.name g.args = some v := by
  obtain ⟨f', v', hf', hv', hvalue⟩ := h g hdeclares
  obtain rfl := Option.some.inj (hf.symm.trans hf')
  obtain rfl := Option.some.inj (hv.symm.trans hv')
  exact hvalue

end Instance

namespace Grounded

variable {d : Domain} {i : Instance} {m : Model} {kind : FluentKind} {context : String}
  {table : Table}

/-- A typed table whose entries are as prescribed is looked up as prescribed. -/
theorem prescribes_of_typed (h : Grounded d i m) {assignments : List Assignment}
    (htyped : m.Typed kind table)
    (hvalues : ∀ {g : GroundFluent} {n f}, m.locate? g.name g.args = some (kind, n) →
      d.fluent? g.name = some f → table[n]? = f.valueUnder? assignments g) :
    i.Prescribes d kind assignments (m.lookup? kind table) := by
  intro g hdeclares
  obtain ⟨n, -, hplace⟩ := h.locate?_eq_some_of_mem (h.mem_groundFluents_iff.mpr hdeclares)
  obtain ⟨f, v, hf, -, hv, -⟩ := h.exists_entry_of_typed htyped (h.locate?_iff_getElem?.mp hplace)
  refine ⟨f, v, hf, ?_, ?_⟩
  · rw [← hvalues hplace hf, hv]
  · rw [h.lookup?_eq hplace, hv]

theorem prescribes_nonFluents (h : Grounded d i m) :
    i.Prescribes d .nonFluent i.nonFluents m.nonFluent? :=
  h.prescribes_of_typed h.typed_nonFluents (h.getElem?_of_assignAll h.nonFluents)

theorem prescribes_initialState (h : Grounded d i m) :
    i.Prescribes d .state i.initState (m.lookup? .state m.initialState) :=
  h.prescribes_of_typed h.typed_initialState (h.getElem?_of_assignAll h.initialState)

/-- All values of a kind are described as they are looked up. -/
theorem get?_describe_eq (h : Grounded d i m) (kind : FluentKind) (table : Table) :
    (m.describe kind table).get? = m.lookup? kind table := by
  funext name args
  exact h.get?_describe_eq_lookup? kind table name args

end Grounded
end LiftedPomdp
