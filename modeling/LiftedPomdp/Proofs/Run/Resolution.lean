import LiftedPomdp.Proofs.Run.Budget
import LiftedPomdp.Proofs.Run.Typing
import Mathlib.Data.List.Zip

/-!
# Resolving actions

An action is resolved by writing its assignments into the default table one
after the other, where a place that was written before is refused.  This file
says which actions are resolved, and to which table, in terms of the domain and
the instance alone: no place of a table is mentioned.  As the table is
determined by the set of assignments, their order is of no importance, and an
assignment of a default may as well be left out.
-/

namespace LiftedPomdp

open Effects Grounding

/-! ## Which tables belong to which actions -/

/-- The default that a domain declares for the fluent of a name, in the range
of the fluent. -/
def Domain.default? (d : Domain) (name : String) : Option Value :=
  (d.fluent? name).bind fun f => (defaultValue f).toOption

/-- An assignment is for an action fluent that is declared for objects of these
types, and its value can be brought into the range of the fluent. -/
def ActionAssignment.Fits (d : Domain) (i : Instance) (x : ActionAssignment) : Prop :=
  ∃ f ∈ d.fluent? x.fluent.name, f.kind = .action ∧
    List.Forall₂ (fun o p => o ∈ objectsOf i p) x.fluent.args f.params ∧
      (x.value.coerce f.range).isSome

namespace Action

/-- All assignments fit, and no two of them are for one ground fluent. -/
structure Admissible (d : Domain) (i : Instance) (a : Action) : Prop where
  fits : ∀ x ∈ a.assignments, x.Fits d i
  once : (a.assignments.map (·.fluent)).Nodup

/-- A table of the ground action fluents holds the assigned values, brought
into range, and the declared defaults everywhere else. -/
structure Tabulates (d : Domain) (m : Model) (a : Action) (table : Table) : Prop where
  size : table.size = m.groundCount .action
  assigned : ∀ x ∈ a.assignments, ∀ f ∈ d.fluent? x.fluent.name,
    m.lookup? .action table x.fluent.name x.fluent.args = x.value.coerce f.range
  unassigned : ∀ g ∈ m.groundFluents .action, (∀ x ∈ a.assignments, x.fluent ≠ g) →
    m.lookup? .action table g.name g.args = d.default? g.name

/-- The number of ground action fluents whose value in a table is another one
than the declared default. -/
def changes (d : Domain) (m : Model) (table : Table) : Nat :=
  ((m.groundFluents .action).zip table.toList).countP fun e =>
    !(d.default? e.1.name).any fun v => e.2.same v

/-- A table has no more changes than the instance allows. -/
def WithinBudget (d : Domain) (i : Instance) (m : Model) (table : Table) : Prop :=
  ∀ max ∈ i.maxNonDefaultActions, changes d m table ≤ max.toNat

end Action

/-! ## Declared defaults -/

/-- A value stays as it is in its own range. -/
theorem Value.coerce_of_range {v : Value} {r : Range} (h : v.range = r) : v.coerce r = some v := by
  subst h
  cases v <;> rfl

/-- What is declared as a default and what it becomes in the range of its
fluent are brought to the same value. -/
theorem Grounding.coerce_default {f : FluentDecl} {u v : Value} (hv : defaultValue f = .ok v)
    (hu : u = f.default.getD f.range.zero ∨ defaultValue f = .ok u) :
    u.coerce f.range = some v := by
  have hrange := range_of_defaultValue hv
  rcases hu with rfl | hu
  · unfold defaultValue at hv
    split at hv
    next hnone =>
      cases hv
      rw [hnone, Option.getD_none, Value.coerce_of_range hrange]
    next w hsome =>
      rw [hsome, Option.getD_some]
      split at hv
      next w' hw =>
        cases hv
        exact hw
      · cases hv
  · obtain rfl := Except.ok.inj (hv.symm.trans hu)
    exact Value.coerce_of_range hrange

namespace Grounded

variable {d : Domain} {i : Instance} {m : Model}

/-- A ground fluent belongs to a declared fluent that has a default. -/
theorem exists_default (h : Grounded d i m) {kind : FluentKind} {g : GroundFluent}
    (hg : g ∈ m.groundFluents kind) :
    ∃ f v, d.fluent? g.name = some f ∧ f.kind = kind ∧ defaultValue f = .ok v := by
  obtain ⟨n, hn⟩ := List.mem_iff_getElem?.mp hg
  obtain ⟨b, hb, j, -, -, rfl⟩ := h.getElem?_groundFluents_eq_some_iff.mp hn
  obtain ⟨hblock, hkind⟩ := mem_blocksOf.mp hb
  obtain ⟨f, hf, place, hplaced⟩ := h.exists_placed hblock
  refine ⟨f, b.default, ?_, hplaced.kind.symm.trans hkind, hplaced.default⟩
  rw [Model.groundFluent, hplaced.name]
  exact h.fluent?_eq_some hf

/-- The default action holds the declared default of every ground fluent. -/
theorem getElem?_defaultAction_eq (h : Grounded d i m) {n : Nat} {g : GroundFluent}
    (hg : (m.groundFluents .action)[n]? = some g) :
    m.defaultAction[n]? = d.default? g.name := by
  obtain ⟨f, v, hf, -, hv⟩ := h.exists_default (List.mem_of_getElem? hg)
  rw [h.getElem?_defaultAction (h.locate?_iff_getElem?.mpr hg) hf hv, Domain.default?, hf,
    Option.bind_some, hv]
  rfl

theorem size_defaultAction (h : Grounded d i m) : m.defaultAction.size = m.groundCount .action :=
  h.typed_defaultAction.size_eq

/-- The declared defaults in the order of the table. -/
theorem map_default? (h : Grounded d i m) :
    (m.groundFluents .action).map (fun g => d.default? g.name) =
      m.defaultAction.toList.map some := by
  apply List.ext_getElem?
  intro n
  rw [List.getElem?_map, List.getElem?_map]
  cases hg : (m.groundFluents .action)[n]? with
  | none =>
      rw [List.getElem?_eq_none_iff, length_groundFluents, ← h.size_defaultAction] at hg
      rw [List.getElem?_eq_none hg]
      rfl
  | some g =>
      obtain ⟨f, v, hf, -, hv⟩ := h.exists_default (List.mem_of_getElem? hg)
      have hdefault : d.default? g.name = some v := by
        rw [Domain.default?, hf, Option.bind_some, hv]
        rfl
      have hentry := h.getElem?_defaultAction_eq hg
      rw [← Array.getElem?_toList, hdefault] at hentry
      rw [hentry, Option.map_some, Option.map_some, hdefault]

/-- The program counts the changed fluents. -/
theorem nonDefaults_eq_changes (h : Grounded d i m) (table : Table) :
    Action.nonDefaults m table = Action.changes d m table := by
  calc Action.nonDefaults m table
      = ((m.defaultAction.toList.map some).zip table.toList).countP fun e =>
          !e.1.any fun v => e.2.same v := by
        rw [Action.nonDefaults, List.zip_map_left, List.countP_map, ← List.zip_swap,
          List.countP_map]
        rfl
    _ = Action.changes d m table := by
        rw [← h.map_default?, List.zip_map_left, List.countP_map]
        rfl

end Grounded

/-! ## Single assignments -/

namespace Model

theorem length_of_ordinals? {m : Model} {types ordinals : List Nat} {args : List String}
    (h : m.ordinals? types args = some ordinals) : types.length = args.length := by
  induction types generalizing args ordinals with
  | nil =>
      cases args with
      | nil => rfl
      | cons name args => cases h
  | cons n types ih =>
      cases args with
      | nil => cases h
      | cons name args =>
          obtain ⟨t, o, rest, -, -, hrest, -⟩ := ordinals?_cons_eq_some_iff.mp h
          rw [List.length_cons, List.length_cons, ih hrest]

end Model

namespace Action

variable {d : Domain} {i : Instance} {m : Model}

/-- What the resolution of an assignment computes from the block of its fluent. -/
theorem resolveOne_eq_ok_iff_block {x : ActionAssignment} {n : Nat} {v : Value} :
    resolveOne m x = .ok (n, v) ↔
      ∃ b, m.block? x.fluent.name = some b ∧ b.kind = .action ∧
        (∃ ns, m.ordinals? b.params x.fluent.args = some ns ∧ b.index ns = n) ∧
          x.value.coerce b.range = some v := by
  unfold resolveOne
  dsimp only
  cases hb : m.block? x.fluent.name with
  | none => simp
  | some b =>
      simp only [Option.some.injEq, exists_eq_left']
      by_cases hkind : b.kind = .action
      · by_cases harity : b.params.length = x.fluent.args.length
        · rw [if_neg (not_not_intro hkind), if_neg (not_not_intro harity), bind_eq_ok_iff]
          simp only [hkind, true_and, ordinals_eq_ok_iff harity]
          cases x.value.coerce b.range with
          | none => simp [throw, throwThe, MonadExceptOf.throw]
          | some w =>
              simp only [pure_eq_ok_iff, Prod.mk.injEq, Option.some.injEq]
              constructor
              · rintro ⟨ns, hns, hn, hw⟩
                exact ⟨⟨ns, hns, hn⟩, hw⟩
              · rintro ⟨⟨ns, hns, hn⟩, hw⟩
                exact ⟨ns, hns, hn, hw⟩
        · rw [if_neg (not_not_intro hkind), if_pos harity]
          simp only [reduceCtorEq, false_iff]
          rintro ⟨-, ⟨ns, hns, -⟩, -⟩
          exact harity (Model.length_of_ordinals? hns)
      · simp [hkind]

/-- An assignment resolves to the place of its ground fluent and to its value in
the range of the fluent. -/
theorem resolveOne_eq_ok_iff (h : Grounded d i m) {x : ActionAssignment} {n : Nat} {v : Value} :
    resolveOne m x = .ok (n, v) ↔
      m.locate? x.fluent.name x.fluent.args = some (.action, n) ∧
        ∃ f ∈ d.fluent? x.fluent.name, x.value.coerce f.range = some v := by
  have hrange : ∀ {b}, m.block? x.fluent.name = some b →
      ∃ f, d.fluent? x.fluent.name = some f ∧ b.range = f.range := by
    intro b hb
    obtain ⟨hblock, hname⟩ := h.block?_eq_some_iff.mp hb
    obtain ⟨f, hf, place, hplaced⟩ := h.exists_placed hblock
    have hfluent := h.fluent?_eq_some hf
    rw [← hplaced.name, hname] at hfluent
    exact ⟨f, hfluent, hplaced.range⟩
  simp only [resolveOne_eq_ok_iff_block, Model.locate?, Option.bind_eq_bind,
    Option.bind_eq_some_iff, Option.pure_def, Option.some.injEq, Prod.mk.injEq, Option.mem_def]
  constructor
  · rintro ⟨b, hb, hkind, ⟨ns, hns, hn⟩, hv⟩
    obtain ⟨f, hf, hsame⟩ := hrange hb
    exact ⟨⟨b, hb, ns, hns, hkind, hn⟩, f, hf, hsame ▸ hv⟩
  · rintro ⟨⟨b, hb, ns, hns, hkind, hn⟩, f, hf, hv⟩
    obtain ⟨f', hf', hsame⟩ := hrange hb
    obtain rfl := Option.some.inj (hf'.symm.trans hf)
    exact ⟨b, hb, hkind, ⟨ns, hns, hn⟩, hsame ▸ hv⟩

/-- An assignment can be resolved exactly when it fits. -/
theorem exists_resolveOne_iff (h : Grounded d i m) {x : ActionAssignment} :
    (∃ p, resolveOne m x = .ok p) ↔ x.Fits d i := by
  simp only [Prod.exists, resolveOne_eq_ok_iff h]
  constructor
  · rintro ⟨n, v, hplace, f, hf, hv⟩
    have hg := List.mem_of_getElem? (h.locate?_iff_getElem?.mp hplace)
    obtain ⟨f', -, hf', hkind, -⟩ := h.exists_default hg
    obtain rfl := Option.some.inj (hf'.symm.trans hf)
    have hdeclared := h.mem_groundFluents_iff.mp hg
    rw [← hkind, h.declares_iff hf] at hdeclared
    exact ⟨f', hf, hkind, hdeclared, hv ▸ rfl⟩
  · rintro ⟨f, hf, hkind, hargs, hv⟩
    have hg := h.mem_groundFluents_iff.mpr (hkind ▸ (h.declares_iff hf).mpr hargs)
    obtain ⟨n, -, hplace⟩ := h.locate?_eq_some_of_mem hg
    obtain ⟨v, hv⟩ := Option.isSome_iff_exists.mp hv
    exact ⟨n, v, hplace, f, hf, hv⟩

theorem lt_of_resolveOne (h : Grounded d i m) {x : ActionAssignment} {p : Nat × Value}
    (hone : resolveOne m x = .ok p) : p.1 < m.groundCount .action := by
  have hplace := h.locate?_iff_getElem?.mp ((resolveOne_eq_ok_iff h).mp hone).1
  rw [← Grounded.length_groundFluents]
  exact (List.getElem?_eq_some_iff.mp hplace).1

/-! ## Writing at places -/

/-- A table after some values have been written at their places. -/
def written (table : Table) (ps : List (Nat × Value)) : Table :=
  ps.foldl (fun t p => t.setIfInBounds p.1 p.2) table

section Written

variable {table : Table} {ps : List (Nat × Value)}

theorem size_written : (written table ps).size = table.size := by
  induction ps generalizing table with
  | nil => rfl
  | cons p ps ih => rw [written, List.foldl_cons, ← written, ih, Array.size_setIfInBounds]

theorem getElem?_written_of_notMem {n : Nat} (hn : n ∉ ps.map (·.1)) :
    (written table ps)[n]? = table[n]? := by
  induction ps generalizing table with
  | nil => rfl
  | cons p ps ih =>
      rw [List.map_cons, List.mem_cons, not_or] at hn
      rw [written, List.foldl_cons, ← written, ih hn.2,
        Array.getElem?_setIfInBounds_ne (Ne.symm hn.1)]

/-- A value stays where it was written, unless its place is written again. -/
theorem getElem?_written_of_mem (hnodup : (ps.map (·.1)).Nodup) {p : Nat × Value} (hp : p ∈ ps)
    (hlt : p.1 < table.size) : (written table ps)[p.1]? = some p.2 := by
  induction ps generalizing table with
  | nil => cases hp
  | cons q ps ih =>
      rw [List.map_cons, List.nodup_cons] at hnodup
      rw [written, List.foldl_cons, ← written]
      rcases List.mem_cons.mp hp with rfl | hp
      · rw [getElem?_written_of_notMem hnodup.1, Array.getElem?_setIfInBounds_self_of_lt hlt]
      · exact ih hnodup.2 hp (by rwa [Array.size_setIfInBounds])

end Written

/-- What one round of the loop over the assignments asks for. -/
theorem resolveAll_cons_eq_ok_iff {seen : List Nat} {table table' : Table} {x : ActionAssignment}
    {as : List ActionAssignment} :
    resolveAll m seen table (x :: as) = .ok table' ↔
      ∃ p, resolveOne m x = .ok p ∧ p.1 ∉ seen ∧ p.1 < table.size ∧
        resolveAll m (p.1 :: seen) (table.setIfInBounds p.1 p.2) as = .ok table' := by
  rw [resolveAll]
  cases resolveOne m x with
  | error e => simp
  | ok p =>
      simp only [Except.ok.injEq, exists_eq_left', List.contains_iff_mem]
      by_cases hseen : p.1 ∈ seen
      · simp [hseen]
      · by_cases hlt : p.1 < table.size
        · simp [hseen, hlt, Table.set_eq]
        · simp [hseen, hlt]

/-- Assignments are resolved together exactly when each of them is, to places
of the table that differ from each other and from those seen before. -/
theorem resolveAll_eq_ok_iff {seen : List Nat} {table table' : Table}
    {as : List ActionAssignment} :
    resolveAll m seen table as = .ok table' ↔
      ∃ ps, List.Forall₂ (fun x p => resolveOne m x = .ok p) as ps ∧ (ps.map (·.1)).Nodup ∧
        (∀ p ∈ ps, p.1 ∉ seen ∧ p.1 < table.size) ∧ written table ps = table' := by
  induction as generalizing seen table with
  | nil => simp [resolveAll, written]
  | cons x as ih =>
      simp only [resolveAll_cons_eq_ok_iff, ih, List.forall₂_cons_left_iff,
        Array.size_setIfInBounds, List.mem_cons, not_or]
      constructor
      · rintro ⟨p, hp, hseen, hlt, ps, hps, hnodup, hfresh, rfl⟩
        refine ⟨p :: ps, ⟨p, ps, hp, hps, rfl⟩, List.nodup_cons.mpr ⟨?_, hnodup⟩, ?_, rfl⟩
        · intro hmem
          obtain ⟨q, hq, heq⟩ := List.mem_map.mp hmem
          exact (hfresh q hq).1.1 heq
        · intro q hq
          rcases List.mem_cons.mp hq with rfl | hq
          · exact ⟨hseen, hlt⟩
          · exact ⟨(hfresh q hq).1.2, (hfresh q hq).2⟩
      · rintro ⟨_, ⟨p, ps, hp, hps, rfl⟩, hnodup, hfresh, rfl⟩
        obtain ⟨hapart, hnodup⟩ := List.nodup_cons.mp hnodup
        obtain ⟨hseen, hlt⟩ := hfresh p List.mem_cons_self
        refine ⟨p, hp, hseen, hlt, ps, hps, hnodup, fun q hq => ?_, rfl⟩
        have hrest := hfresh q (List.mem_cons_of_mem p hq)
        exact ⟨⟨fun heq => hapart (List.mem_map.mpr ⟨q, hq, heq⟩), hrest.1⟩, hrest.2⟩

/-- A resolution that fails names a reason. -/
theorem exists_of_resolveAll_error (h : Grounded d i m) {seen : List Nat} {table : Table}
    {as : List ActionAssignment} {e : Fault ActionError}
    (hsize : table.size = m.groundCount .action)
    (hresolve : resolveAll m seen table as = .error e) : ∃ reason, e = .error reason := by
  induction as generalizing seen table with
  | nil => cases hresolve
  | cons x as ih =>
      rw [resolveAll] at hresolve
      split at hresolve
      next reason _ =>
        cases hresolve
        exact ⟨reason, rfl⟩
      next n v hone =>
        split at hresolve
        · cases hresolve
          exact ⟨_, rfl⟩
        · split at hresolve
          next hlt => exact ih (by rw [Array.size_set, hsize]) hresolve
          next hge => exact absurd (hsize ▸ lt_of_resolveOne h hone) hge

/-! ## The table of an action -/

/-- Keys and places of action fluents determine each other. -/
theorem biUnique_locate? (h : Grounded d i m) :
    Relator.BiUnique fun (g : GroundFluent) n => m.locate? g.name g.args = some (.action, n) := by
  refine ⟨fun g g' n hg hg' => ?_, fun g n n' hn hn' => ?_⟩
  · have hkey := (h.locate?_iff_getElem?.mp hg).symm.trans (h.locate?_iff_getElem?.mp hg')
    exact Option.some.inj hkey
  · exact (Prod.mk.inj (Option.some.inj (hn.symm.trans hn'))).2

theorem nodup_places_iff (h : Grounded d i m) {as : List ActionAssignment}
    {ps : List (Nat × Value)} (hps : List.Forall₂ (fun x p => resolveOne m x = .ok p) as ps) :
    (ps.map (·.1)).Nodup ↔ (as.map (·.fluent)).Nodup := by
  refine (List.rel_nodup (biUnique_locate? h) ?_).symm
  rw [List.forall₂_map_left_iff, List.forall₂_map_right_iff]
  exact hps.imp fun x p hp => ((resolveOne_eq_ok_iff h).mp hp).1

theorem lt_of_places (h : Grounded d i m) {as : List ActionAssignment} {ps : List (Nat × Value)}
    (hps : List.Forall₂ (fun x p => resolveOne m x = .ok p) as ps) {p : Nat × Value}
    (hp : p ∈ ps) : p.1 < m.defaultAction.size := by
  obtain ⟨x, -, hone⟩ := exists_of_mem_of_forall₂ hps.flip hp
  rw [h.size_defaultAction]
  exact lt_of_resolveOne h hone

/-- The assignments of an admissible action have places of their own. -/
theorem Admissible.exists_places (h : Grounded d i m) {a : Action} (ha : a.Admissible d i) :
    ∃ ps, List.Forall₂ (fun x p => resolveOne m x = .ok p) a.assignments ps ∧
      (ps.map (·.1)).Nodup := by
  have hresolved : ∀ x ∈ a.assignments, ∃ p, resolveOne m x = .ok p := fun x hx =>
    (exists_resolveOne_iff h).mpr (ha.fits x hx)
  have : Nonempty (Nat × Value) := ⟨(0, Range.zero .int)⟩
  choose! place hplace using hresolved
  have hps : List.Forall₂ (fun x p => resolveOne m x = .ok p) a.assignments
      (a.assignments.map place) := by
    rw [List.forall₂_map_right_iff, List.forall₂_same]
    exact hplace
  exact ⟨_, hps, (nodup_places_iff h hps).mpr ha.once⟩

/-- Writing the assignments at their places makes the table of the action. -/
theorem tabulates_written (h : Grounded d i m) {a : Action} {ps : List (Nat × Value)}
    (hps : List.Forall₂ (fun x p => resolveOne m x = .ok p) a.assignments ps)
    (hnodup : (ps.map (·.1)).Nodup) : a.Tabulates d m (written m.defaultAction ps) where
  size := size_written.trans h.size_defaultAction
  assigned := by
    intro x hx f hf
    obtain ⟨p, hp, hone⟩ := exists_of_mem_of_forall₂ hps hx
    obtain ⟨hplace, f', hf', hv⟩ := (resolveOne_eq_ok_iff h).mp hone
    obtain rfl := Option.some.inj (hf.symm.trans hf')
    rw [h.lookup?_eq hplace, getElem?_written_of_mem hnodup hp (lt_of_places h hps hp), hv]
  unassigned := by
    intro g hg hfree
    obtain ⟨n, -, hplace⟩ := h.locate?_eq_some_of_mem hg
    have hn : n ∉ ps.map (·.1) := by
      intro hmem
      obtain ⟨p, hp, rfl⟩ := List.mem_map.mp hmem
      obtain ⟨x, hx, hone⟩ := exists_of_mem_of_forall₂ hps.flip hp
      exact hfree x hx ((biUnique_locate? h).1 ((resolveOne_eq_ok_iff h).mp hone).1 hplace)
    rw [h.lookup?_eq hplace, getElem?_written_of_notMem hn,
      h.getElem?_defaultAction_eq (h.locate?_iff_getElem?.mp hplace)]

/-- An action has at most one table. -/
theorem Tabulates.unique (h : Grounded d i m) {a : Action} {table table' : Table}
    (ht : a.Tabulates d m table) (ht' : a.Tabulates d m table') : table = table' := by
  apply Array.ext_getElem?
  intro n
  cases hg : (m.groundFluents .action)[n]? with
  | none =>
      rw [List.getElem?_eq_none_iff, Grounded.length_groundFluents] at hg
      rw [Array.getElem?_eq_none (ht.size ▸ hg), Array.getElem?_eq_none (ht'.size ▸ hg)]
  | some g =>
      have hplace := h.locate?_iff_getElem?.mpr hg
      rw [← h.lookup?_eq hplace, ← h.lookup?_eq hplace]
      by_cases hfree : ∀ x ∈ a.assignments, x.fluent ≠ g
      · have hmem := List.mem_of_getElem? hg
        rw [ht.unassigned g hmem hfree, ht'.unassigned g hmem hfree]
      · push Not at hfree
        obtain ⟨x, hx, rfl⟩ := hfree
        obtain ⟨f, -, hf, -⟩ := h.exists_default (List.mem_of_getElem? hg)
        rw [ht.assigned x hx f hf, ht'.assigned x hx f hf]

/-- The admissible actions are those whose assignments can all be written. -/
theorem resolveAll_default_eq_ok_iff (h : Grounded d i m) {a : Action} {table : Table} :
    resolveAll m [] m.defaultAction a.assignments = .ok table ↔
      a.Admissible d i ∧ a.Tabulates d m table := by
  rw [resolveAll_eq_ok_iff]
  constructor
  · rintro ⟨ps, hps, hnodup, -, rfl⟩
    refine ⟨⟨fun x hx => ?_, (nodup_places_iff h hps).mp hnodup⟩, tabulates_written h hps hnodup⟩
    obtain ⟨p, -, hone⟩ := exists_of_mem_of_forall₂ hps hx
    exact (exists_resolveOne_iff h).mp ⟨p, hone⟩
  · rintro ⟨ha, ht⟩
    obtain ⟨ps, hps, hnodup⟩ := ha.exists_places h
    exact ⟨ps, hps, hnodup, fun p hp => ⟨List.not_mem_nil, lt_of_places h hps hp⟩,
      (tabulates_written h hps hnodup).unique h ht⟩

/-- The actions that are accepted, with their tables. -/
theorem resolve_eq_ok_iff (h : Grounded d i m) {a : Action} {table : Table} :
    a.resolve m = .ok table ↔
      a.Admissible d i ∧ a.Tabulates d m table ∧ WithinBudget d i m table := by
  rw [← and_assoc, ← resolveAll_default_eq_ok_iff h, WithinBudget, ← h.maxNonDefaultActions,
    ← h.nonDefaults_eq_changes, resolve, bind_eq_ok_iff]
  cases m.maxNonDefaultActions with
  | none => simp [pure_eq_ok_iff]
  | some max =>
      simp only [Option.mem_def, Option.some.injEq, forall_eq']
      constructor
      · rintro ⟨t, hall, ht⟩
        split at ht
        · cases ht
        next hle =>
          obtain rfl := pure_eq_ok_iff.mp ht
          exact ⟨hall, Nat.le_of_not_lt hle⟩
      · rintro ⟨hall, hle⟩
        refine ⟨table, hall, ?_⟩
        rw [if_neg (Nat.not_lt_of_le hle), pure_eq_ok_iff]

/-- An action that is not accepted is refused for a reason. -/
theorem exists_of_resolve_error (h : Grounded d i m) {a : Action} {e : Fault ActionError}
    (hresolve : a.resolve m = .error e) : ∃ reason, e = .error reason := by
  unfold resolve at hresolve
  cases hall : resolveAll m [] m.defaultAction a.assignments with
  | error e' =>
      rw [hall] at hresolve
      obtain rfl := Except.error.inj hresolve
      exact exists_of_resolveAll_error h h.size_defaultAction hall
  | ok table =>
      simp only [hall, bind, Except.bind] at hresolve
      split at hresolve
      · cases hresolve
      · split at hresolve
        · cases hresolve
          exact ⟨_, rfl⟩
        · cases hresolve

/-! ## Other ways to write an action -/

variable {a a' : Action} {table : Table}

theorem Admissible.perm (ha : a.Admissible d i) (hperm : a'.assignments.Perm a.assignments) :
    a'.Admissible d i where
  fits := fun x hx => ha.fits x (hperm.mem_iff.mp hx)
  once := (hperm.map _).nodup_iff.mpr ha.once

theorem Tabulates.perm (ht : a.Tabulates d m table)
    (hperm : a'.assignments.Perm a.assignments) : a'.Tabulates d m table where
  size := ht.size
  assigned := fun x hx => ht.assigned x (hperm.mem_iff.mp hx)
  unassigned := fun g hg hfree => ht.unassigned g hg fun x hx => hfree x (hperm.mem_iff.mpr hx)

/-- The order of the assignments is of no importance. -/
theorem resolve_of_perm (h : Grounded d i m) (hresolve : a.resolve m = .ok table)
    (hperm : a'.assignments.Perm a.assignments) : a'.resolve m = .ok table := by
  obtain ⟨ha, ht, hbudget⟩ := (resolve_eq_ok_iff h).mp hresolve
  exact (resolve_eq_ok_iff h).mpr ⟨ha.perm hperm, ht.perm hperm, hbudget⟩

theorem Admissible.cons (ha : a.Admissible d i) {x : ActionAssignment} (hx : x.Fits d i)
    (hfree : ∀ y ∈ a.assignments, y.fluent ≠ x.fluent) :
    { assignments := x :: a.assignments : Action }.Admissible d i where
  fits := List.forall_mem_cons.mpr ⟨hx, ha.fits⟩
  once := by
    refine List.nodup_cons.mpr ⟨fun hmem => ?_, ha.once⟩
    obtain ⟨y, hy, heq⟩ := List.mem_map.mp hmem
    exact hfree y hy heq

/-- A default that is assigned explicitly leaves the table as it is. -/
theorem Tabulates.cons_default (ht : a.Tabulates d m table) {x : ActionAssignment}
    {f : FluentDecl} (hf : d.fluent? x.fluent.name = some f)
    (hdefault : x.value.coerce f.range = d.default? x.fluent.name)
    (hx : x.fluent ∈ m.groundFluents .action)
    (hfree : ∀ y ∈ a.assignments, y.fluent ≠ x.fluent) :
    { assignments := x :: a.assignments : Action }.Tabulates d m table where
  size := ht.size
  assigned := by
    refine List.forall_mem_cons.mpr ⟨fun f' hf' => ?_, ht.assigned⟩
    obtain rfl := Option.some.inj (hf.symm.trans hf')
    rw [ht.unassigned x.fluent hx hfree, hdefault]
  unassigned := fun g hg hother =>
    ht.unassigned g hg fun y hy => hother y (List.mem_cons_of_mem x hy)

/-- Assigning its declared default to a ground fluent that is not assigned
changes nothing, wherever in the action this is done. -/
theorem resolve_insert_default (h : Grounded d i m) (hresolve : a.resolve m = .ok table)
    {before after : List ActionAssignment} (hsplit : before ++ after = a.assignments)
    {x : ActionAssignment} (hx : d.Declares i .action x.fluent)
    (hfree : ∀ y ∈ a.assignments, y.fluent ≠ x.fluent) {f : FluentDecl}
    (hf : d.fluent? x.fluent.name = some f)
    (hdefault : x.value = f.default.getD f.range.zero ∨ defaultValue f = .ok x.value) :
    resolve m { assignments := before ++ x :: after } = .ok table := by
  obtain ⟨ha, ht, hbudget⟩ := (resolve_eq_ok_iff h).mp hresolve
  have hmem := h.mem_groundFluents_iff.mpr hx
  obtain ⟨f', v, hf', hkind, hv⟩ := h.exists_default hmem
  obtain rfl := Option.some.inj (hf.symm.trans hf')
  have hvalue := coerce_default hv hdefault
  have hfits : x.Fits d i := by
    rw [← hkind] at hx
    exact ⟨f, hf, hkind, (h.declares_iff hf).mp hx, hvalue ▸ rfl⟩
  have hsame : x.value.coerce f.range = d.default? x.fluent.name := by
    rw [hvalue, Domain.default?, hf, Option.bind_some, hv]
    rfl
  have hcons : resolve m { assignments := x :: a.assignments } = .ok table :=
    (resolve_eq_ok_iff h).mpr ⟨ha.cons hfits hfree, ht.cons_default hf hsame hmem hfree, hbudget⟩
  exact resolve_of_perm h hcons (hsplit ▸ List.perm_middle)

/-! ## Resolution -/

/-- An action is accepted exactly when each of its assignments is for a
declared action fluent with objects of the right types and a value for its
range, no two are for one ground fluent, and no more entries differ from the
declared defaults than the instance allows.  Its table is then the only one
that holds the assigned values and the defaults everywhere else; any other
action is refused for a reason.  The order of the assignments is of no
importance, and declared defaults can be assigned or left out. -/
theorem resolve_exact (h : Model.ground d i = .ok m) (a : Action) :
    (∀ table, a.resolve m = .ok table ↔
      a.Admissible d i ∧ a.Tabulates d m table ∧ WithinBudget d i m table) ∧
      (a.Admissible d i → ∃! table, a.Tabulates d m table) ∧
      ((¬∃ table, a.resolve m = .ok table) → ∃ reason, a.resolve m = .error (.error reason)) ∧
      ∀ table, a.resolve m = .ok table →
        (∀ a' : Action, a'.assignments.Perm a.assignments → a'.resolve m = .ok table) ∧
          ∀ before after, before ++ after = a.assignments → ∀ x : ActionAssignment,
            d.Declares i .action x.fluent → (∀ y ∈ a.assignments, y.fluent ≠ x.fluent) →
              ∀ f, d.fluent? x.fluent.name = some f →
                (x.value = f.default.getD f.range.zero ∨ defaultValue f = .ok x.value) →
                  resolve m { assignments := before ++ x :: after } = .ok table := by
  have hg := grounded_of_ground h
  refine ⟨fun table => resolve_eq_ok_iff hg, fun ha => ?_, fun hrefused => ?_, ?_⟩
  · obtain ⟨ps, hps, hnodup⟩ := ha.exists_places hg
    have ht := tabulates_written hg hps hnodup
    exact ⟨_, ht, fun table' ht' => ht'.unique hg ht⟩
  · cases hresolve : a.resolve m with
    | ok table => exact absurd ⟨table, hresolve⟩ hrefused
    | error e =>
        obtain ⟨reason, rfl⟩ := exists_of_resolve_error hg hresolve
        exact ⟨reason, rfl⟩
  · intro table hresolve
    refine ⟨fun a' hperm => resolve_of_perm hg hresolve hperm, ?_⟩
    intro before after hsplit x hx hfree f hf hdefault
    exact resolve_insert_default hg hresolve hsplit hx hfree hf hdefault

/-- In the house, where one lamp may be toggled at a time, an assignment that
leaves the first lamp alone is accepted with one that toggles the second. -/
theorem resolve_exact_lamps :
    resolve Lamps.model { assignments := [⟨⟨"toggle", ["l0"]⟩, .bool false⟩,
        ⟨⟨"toggle", ["l1"]⟩, .bool true⟩] } = .ok #[.bool false, .bool true] ∧
      ∃ reason, resolve Lamps.model { assignments := [⟨⟨"toggle", ["l0"]⟩, .bool true⟩,
        ⟨⟨"toggle", ["l1"]⟩, .bool true⟩] } = .error (.error reason) := by
  have hone : (noop.set "toggle" ["l1"] (.bool true)).resolve Lamps.model =
      .ok #[.bool false, .bool true] := by decide +kernel
  obtain ⟨-, -, -, hrewrite⟩ :=
    resolve_exact Lamps.ground_eq (noop.set "toggle" ["l1"] (.bool true))
  obtain ⟨-, -, hrefused, -⟩ := resolve_exact Lamps.ground_eq
    { assignments := [⟨⟨"toggle", ["l0"]⟩, .bool true⟩, ⟨⟨"toggle", ["l1"]⟩, .bool true⟩] }
  refine ⟨?_, hrefused ?_⟩
  · have hdeclared : Lamps.domain.Declares Lamps.house .action ⟨"toggle", ["l0"]⟩ :=
      ⟨.action "toggle" .bool ["lamp"] (.bool false), by decide, rfl, rfl, by decide⟩
    exact (hrewrite _ hone).2 [] _ rfl ⟨⟨"toggle", ["l0"]⟩, .bool false⟩ hdeclared
      (by decide) _ rfl (.inl rfl)
  · rintro ⟨table, htable⟩
    have hbudget : (resolve Lamps.model { assignments := [⟨⟨"toggle", ["l0"]⟩, .bool true⟩,
        ⟨⟨"toggle", ["l1"]⟩, .bool true⟩] }).toOption = none := by decide +kernel
    rw [htable] at hbudget
    cases hbudget

end Action
end LiftedPomdp
