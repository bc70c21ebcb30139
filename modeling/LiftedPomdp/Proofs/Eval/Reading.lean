import LiftedPomdp.Eval.Meaning
import LiftedPomdp.Proofs.Ground.Keys
import LiftedPomdp.Proofs.Ground.Mentions

/-!
# What an expression reads

An expression means the same in two worlds that differ in the values of fluents
only, as long as they agree on the fluents that its parts name, whatever these
are applied to.  A part that is not reached counts too.

For an expression that has been compiled these are the fluents that it may
read, and of the observations those that the compilation has noted.
-/

namespace LiftedPomdp

open Effects Grounding

/-- Two worlds with the same objects and the same label. -/
structure World.Akin (w w' : World) : Prop where
  objects : w.objects? = w'.objects?
  label : w.label = w'.label

/-- Where a part of an expression names a fluent, two worlds agree on its values
on that side of the transition. -/
def World.AgreesAt (w w' : World) : Expr → Prop
  | .fluent name _ next => ∀ args, w.value? next { name, args } = w'.value? next { name, args }
  | _ => True

namespace World.Akin

variable {w w' : World} {env : Environment}

theorem truth_eq (h : w.Akin w') {x y : Meaning Value} (hxy : x = y) : w.truth x = w'.truth y := by
  unfold World.truth
  rw [h.label, hxy]

theorem arith_eq (h : w.Akin w') (op : ArithOp) (v v' : Value) :
    w.arith op v v' = w'.arith op v v' := by
  unfold World.arith
  rw [h.label]

theorem combine_eq (h : w.Akin w') {body body' : Environment → Meaning Value}
    (hbody : ∀ env, body env = body' env) (op : AggregateOp) :
    w.combine body op = w'.combine body' op := by
  funext env acc
  cases op with
  | «exists» => simp only [World.combine, h.truth_eq (hbody env)]
  | «forall» => simp only [World.combine, h.truth_eq (hbody env)]
  | sum => simp only [World.combine, h.arith_eq, hbody env]
  | prod => simp only [World.combine, h.arith_eq, hbody env]

theorem overBindings_eq (h : w.Akin w') {α : Type}
    {step : Environment → α → Meaning (ForInStep α)} (vars : List TypedVar) :
    w.overBindings step vars = w'.overBindings step vars := by
  induction vars with
  | nil => rfl
  | cons v vars ih =>
      funext env a
      simp only [World.overBindings, h.objects, ih]

theorem aggregate_eq (h : w.Akin w') {body body' : Environment → Meaning Value}
    (hbody : ∀ env, body env = body' env) (op : AggregateOp) (vars : List TypedVar) :
    w.aggregate env op vars body = w'.aggregate env op vars body' := by
  unfold World.aggregate
  rw [h.combine_eq hbody, h.overBindings_eq]

end World.Akin

namespace Expr

/-! ## Agreement -/

mutual

/-- Worlds that agree on all that an expression names give it one meaning. -/
theorem meaning_congr {w w' : World} (hakin : w.Akin w') (env : Environment) (e : Expr)
    (h : ∀ p ∈ e.parts, w.AgreesAt w' p) : e.meaning w env = e.meaning w' env := by
  cases e with
  | const v => rfl
  | fluent name args next =>
      have hread := h _ List.mem_cons_self
      simp only [World.AgreesAt] at hread
      simp only [meaning, World.read, hread]
  | term t => rfl
  | not a =>
      rw [parts, List.forall_mem_cons] at h
      simp only [meaning, hakin.truth_eq (meaning_congr hakin env a h.2)]
  | and as =>
      rw [parts, List.forall_mem_cons] at h
      simp only [meaning, (meaningAll_congr hakin env as h.2).1]
  | or as =>
      rw [parts, List.forall_mem_cons] at h
      simp only [meaning, (meaningAll_congr hakin env as h.2).2]
  | implies l r =>
      rw [parts, List.forall_mem_cons, List.forall_mem_append] at h
      simp only [meaning, hakin.truth_eq (meaning_congr hakin env l h.2.1),
        hakin.truth_eq (meaning_congr hakin env r h.2.2)]
  | equiv l r =>
      rw [parts, List.forall_mem_cons, List.forall_mem_append] at h
      simp only [meaning, hakin.truth_eq (meaning_congr hakin env l h.2.1),
        hakin.truth_eq (meaning_congr hakin env r h.2.2)]
  | compare op l r =>
      rw [parts, List.forall_mem_cons, List.forall_mem_append] at h
      have hl := meaning_congr hakin env l h.2.1
      have hr := meaning_congr hakin env r h.2.2
      by_cases hterms : ∃ t u, l = .term t ∧ r = .term u
      · obtain ⟨t, u, rfl, rfl⟩ := hterms
        rfl
      · have hno : ∀ t u, l = .term t → r = .term u → False :=
          fun t u hl hr => hterms ⟨t, u, hl, hr⟩
        rw [meaning, meaning, hl, hr]
        · exact hno
        · exact hno
  | arith op l r =>
      rw [parts, List.forall_mem_cons, List.forall_mem_append] at h
      simp only [meaning, meaning_congr hakin env l h.2.1, meaning_congr hakin env r h.2.2,
        hakin.arith_eq]
  | neg a =>
      rw [parts, List.forall_mem_cons] at h
      simp only [meaning, meaning_congr hakin env a h.2]
  | ite c t e =>
      rw [parts, List.forall_mem_cons, List.forall_mem_append, List.forall_mem_append] at h
      simp only [meaning, hakin.truth_eq (meaning_congr hakin env c h.2.1.1),
        meaning_congr hakin env t h.2.1.2, meaning_congr hakin env e h.2.2]
  | aggregate op vars body =>
      rw [parts, List.forall_mem_cons] at h
      simp only [meaning]
      exact hakin.aggregate_eq (fun env => meaning_congr hakin env body h.2) op vars
  | kronDelta a =>
      rw [parts, List.forall_mem_cons] at h
      simp only [meaning, meaning_congr hakin env a h.2]
  | diracDelta a =>
      rw [parts, List.forall_mem_cons] at h
      simp only [meaning, World.real, meaning_congr hakin env a h.2]
  | bernoulli p =>
      rw [parts, List.forall_mem_cons] at h
      simp only [meaning, World.real, meaning_congr hakin env p h.2, hakin.label]
  | uniform l u =>
      rw [parts, List.forall_mem_cons, List.forall_mem_append] at h
      simp only [meaning, World.real, meaning_congr hakin env l h.2.1,
        meaning_congr hakin env u h.2.2, hakin.label]

theorem meaningAll_congr {w w' : World} (hakin : w.Akin w') (env : Environment) (es : List Expr)
    (h : ∀ p ∈ partsOfAll es, w.AgreesAt w' p) :
    allMean w env es = allMean w' env es ∧ someMeans w env es = someMeans w' env es := by
  cases es with
  | nil => exact ⟨rfl, rfl⟩
  | cons e es =>
      rw [partsOfAll, List.forall_mem_append] at h
      have hfirst := hakin.truth_eq (meaning_congr hakin env e h.1)
      obtain ⟨hall, hsome⟩ := meaningAll_congr hakin env es h.2
      simp only [allMean, someMeans, hfirst, hall, hsome, and_self]

end

end Expr

/-! ## Compiled expressions -/

theorem Model.akin_world (m : Model) (s s' : Snapshot) (label : String) :
    (m.world s label).Akin (m.world s' label) :=
  ⟨rfl, rfl⟩

namespace Grounded

variable {d : Domain} {i : Instance} {m : Model}

/-- Tables that agree on the block of a fluent give it the same values. -/
theorem get?_describe_congr (h : Grounded d i m) {b : FluentBlock} (hb : b ∈ m.blocks)
    {table table' : Table}
    (hagree : ∀ j < b.size, table[b.offset + j]? = table'[b.offset + j]?) (args : List String) :
    (m.describe b.kind table).get? b.name args = (m.describe b.kind table').get? b.name args := by
  cases hlocate : m.locate? b.name args with
  | none =>
      have habsent := h.locate?_eq_none_iff.mp hlocate b.kind
      rw [get?_describe_eq_none habsent, get?_describe_eq_none habsent]
  | some found =>
      obtain ⟨kind, n⟩ := found
      obtain ⟨b', hb', hname, ordinals, hordinals, rfl⟩ := h.locate?_eq_some_iff.mp hlocate
      obtain ⟨hmem, rfl⟩ := mem_blocksOf.mp hb'
      obtain rfl : b' = b := by
        have hfirst := h.block?_eq_some_iff.mpr ⟨hmem, hname⟩
        have hsecond := h.block?_eq_some_iff.mpr ⟨hb, rfl⟩
        exact Option.some.inj (hfirst.symm.trans hsecond)
      rw [h.get?_describe hlocate, h.get?_describe hlocate]
      exact hagree _ (h.distance_lt_size hmem hordinals)

/-- Two snapshots that agree on all blocks that a compiled expression may read
agree on all that its parts name. -/
theorem agreesAt_parts (h : Grounded d i m) {c : Compiler} (hscope : c.scope = m.scope)
    {params : List Binding} {e : Expr} {body : Compiled} {reads : List Nat}
    (hcompile : c.compile params e = .ok (body, reads)) {s s' : Snapshot}
    (hagree : ∀ fluent b next layer, m.blocks[fluent]? = some b →
      ReadAt c.site fluent b.kind next layer → (b.kind = .observation → fluent ∈ reads) →
        ∀ j < b.size, (Model.readTable s b.kind next)[b.offset + j]? =
          (Model.readTable s' b.kind next)[b.offset + j]?)
    (label : String) : ∀ p ∈ e.parts, (m.world s label).AgreesAt (m.world s' label) p := by
  intro p hp
  have hadmits := (Compiler.compile_noted hcompile).admits p hp
  cases p with
  | fluent name terms next =>
      obtain ⟨fluent, b, layer, hfluent, hb, hread, hnoted⟩ := hadmits
      rw [hscope] at hfluent hb
      obtain ⟨b', hb', hname⟩ := (findIdx?_key_eq_some_iff h.blocks_nodup).mp hfluent
      obtain rfl := Option.some.inj (hb.symm.trans hb')
      subst hname
      have hmem : b ∈ m.blocks := Array.mem_of_getElem? hb
      have hblock : m.block? b.name = some b := h.block?_eq_some_iff.mpr ⟨hmem, rfl⟩
      have hsame := hagree fluent b next layer hb hread hnoted
      intro args
      simp only [Model.world, hblock]
      exact h.get?_describe_congr hmem hsame args
  | _ => trivial

end Grounded
end LiftedPomdp
