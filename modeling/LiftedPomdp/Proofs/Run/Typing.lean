import LiftedPomdp.Proofs.Effects.Parallel
import LiftedPomdp.Proofs.Ground.Functions
import LiftedPomdp.Proofs.Ground.Tables
import LiftedPomdp.Run.Engine

/-!
# Every table is typed

The tables of an engine stay typed through every reset and every step.  A step
writes into tables that are typed before, and only values brought into the
range of the fluent that they are for, so that even a step that fails halfway
leaves typed tables behind.
-/

namespace LiftedPomdp

open Effects Grounding

/-! ## Actions -/

namespace Action

variable {d : Domain} {i : Instance} {m : Model}

theorem ordinals_eq_ok_iff {fluent : String} {types ns : List Nat} {args : List String}
    (hlen : types.length = args.length) :
    ordinals m.types fluent types args = .ok ns ↔ m.ordinals? types args = some ns := by
  apply Model.eq_ok_iff_ordinals?_eq_some rfl _ hlen
  intro n types name args ns
  rw [ordinals]
  cases m.types[n]? with
  | none => simp
  | some t =>
      cases ho : t.ordinal? name with
      | none => simp [ho]
      | some o =>
          simp only [ho, bind_eq_ok_iff, pure_eq_ok_iff]
          simp [ho]

/-- An assignment is resolved to a place in the block of an action fluent and
a value of its range. -/
theorem resolveOne_eq_ok (h : Grounded d i m) {a : ActionAssignment} {n : Nat} {v : Value}
    (hresolve : resolveOne m a = .ok (n, v)) :
    ∃ b ∈ m.blocksOf .action, (∃ j < b.size, n = b.offset + j) ∧ v.range = b.range := by
  unfold resolveOne at hresolve
  dsimp only at hresolve
  split at hresolve
  · cases hresolve
  next b hb =>
    by_cases hkind : b.kind = .action
    · by_cases harity : b.params.length = a.fluent.args.length
      · rw [if_neg (not_not_intro hkind), if_neg (not_not_intro harity), bind_eq_ok_iff]
          at hresolve
        obtain ⟨ns, hns, hresolve⟩ := hresolve
        split at hresolve
        · cases hresolve
        next w hw =>
          rw [pure_eq_ok_iff, Prod.mk.injEq] at hresolve
          obtain ⟨rfl, rfl⟩ := hresolve
          have hblock := (h.block?_eq_some_iff.mp hb).1
          obtain ⟨j, hj, hindex⟩ :=
            h.index_of_ordinals? hblock ((ordinals_eq_ok_iff harity).mp hns)
          exact ⟨b, Grounded.mem_blocksOf.mpr ⟨hblock, hkind⟩, ⟨j, hj, hindex⟩,
            Value.range_of_coerce hw⟩
      · simp [hkind, harity] at hresolve
    · simp [hkind] at hresolve

theorem typed_of_resolveAll (h : Grounded d i m) {seen : List Nat} {table table' : Table}
    {as : List ActionAssignment} (ht : m.Typed .action table)
    (hresolve : resolveAll m seen table as = .ok table') : m.Typed .action table' := by
  induction as generalizing seen table with
  | nil =>
      cases hresolve
      exact ht
  | cons a as ih =>
      unfold resolveAll at hresolve
      split at hresolve
      · cases hresolve
      next n v hone =>
        obtain ⟨b, hb, ⟨j, hj, rfl⟩, hv⟩ := resolveOne_eq_ok h hone
        split at hresolve
        · cases hresolve
        · split at hresolve
          next hlt =>
            rw [Table.set_eq hlt] at hresolve
            exact ih (h.typed_set ht hb hj hv) hresolve
          · cases hresolve

/-- The table of an accepted action is typed. -/
theorem typed_of_resolve (h : Grounded d i m) {a : Action} {table : Table}
    (hresolve : a.resolve m = .ok table) : m.Typed .action table := by
  obtain ⟨table', hall, hresolve⟩ := bind_eq_ok_iff.mp hresolve
  have ht := typed_of_resolveAll h h.typed_defaultAction hall
  have heq : table' = table := by
    split at hresolve
    · exact pure_eq_ok_iff.mp hresolve
    · dsimp only at hresolve
      split at hresolve
      · exact absurd hresolve (by simp)
      · exact pure_eq_ok_iff.mp hresolve
  exact heq ▸ ht

end Action

/-! ## Steps -/

namespace Grounded

variable {d : Domain} {i : Instance} {m : Model}

theorem mem_blocksOf_of_mem_numbersOf {kind : FluentKind} {n : Nat}
    (hn : n ∈ numbersOf m.blocks kind) {b : FluentBlock} (hb : m.blocks[n]? = some b) :
    b ∈ m.blocksOf kind := by
  obtain ⟨b', hb', hkind⟩ := mem_numbersOf.mp hn
  obtain rfl := Option.some.inj (hb.symm.trans hb')
  exact mem_blocksOf.mpr ⟨Array.mem_of_getElem? hb, hkind⟩

/-- The function of a state fluent computes a block of the state. -/
theorem mem_blocksOf_of_stateCpf (h : Grounded d i m) {cpf : Cpf} (hcpf : cpf ∈ m.stateCpfs)
    {b : FluentBlock} (hb : m.blocks[cpf.target]? = some b) : b ∈ m.blocksOf .state := by
  refine mem_blocksOf_of_mem_numbersOf ?_ hb
  rw [← h.stateCpfs_targets]
  exact List.mem_map_of_mem hcpf

/-- The function of an observation fluent computes a block of the
observations. -/
theorem mem_blocksOf_of_observationCpf (h : Grounded d i m) {cpf : Cpf}
    (hcpf : cpf ∈ m.observationCpfs) {b : FluentBlock}
    (hb : m.blocks[cpf.target]? = some b) : b ∈ m.blocksOf .observation := by
  refine mem_blocksOf_of_mem_numbersOf ?_ hb
  exact h.observationCpfs_targets.mem_iff.mp (List.mem_map_of_mem hcpf)

end Grounded

/-- What an evaluation within a step works on. -/
def Workspace.walk (w : Workspace) : Walk :=
  { slots := w.slots, sampler := w.sampler }

namespace Work

variable {d : Domain} {i : Instance} {m : Model}

/-- The tables that a step writes are typed. -/
structure Typed (m : Model) (w : Workspace) : Prop where
  next : m.Typed .state w.next
  observed : m.Typed .observation w.observed

theorem keeps_modify {P : Workspace → Prop} {f : Workspace → Workspace}
    (hf : ∀ w, P w → P (f w)) : Keeps P (modify f : Work Unit) fun _ => True :=
  Keeps.of_run (fun _ => rfl) hf fun _ _ _ => trivial

theorem keeps_get {P : Workspace → Prop} : Keeps P (get : Work Workspace) fun _ => True :=
  Keeps.of_run (fun _ => rfl) (fun _ hw => hw) fun _ _ _ => trivial

theorem run_eval {α : Type} {e : Eval α} {w : Workspace} {r : Except (Fault DomainError) α}
    {u : Walk} (h : e.run w.walk = (r, u)) :
    (eval e).run w = (r.mapError (·.map SimError.domain),
      { w with slots := u.slots, sampler := u.sampler }) := by
  unfold eval
  rw [run_bind_of_ok (rfl : (get : Work Workspace).run w = (.ok w, w))]
  rw [Workspace.walk] at h
  rw [h]
  cases r with
  | error f => rfl
  | ok a => rfl

theorem exists_of_eval_eq_ok {α : Type} {e : Eval α} {w w' : Workspace} {a : α}
    (h : (eval e).run w = (.ok a, w')) : ∃ u, e.run w.walk = (.ok a, u) := by
  rcases hrun : e.run w.walk with ⟨f | a', u⟩
  · rw [run_eval hrun] at h
    cases h
  · rw [run_eval hrun] at h
    cases h
    exact ⟨u, rfl⟩

theorem keeps_checked {P : Workspace → Prop} (b : FluentBlock) (label : String) (v : Value) :
    Keeps P (checked b label v) fun w => w.range = b.range := by
  unfold checked
  split
  next w hw => exact Keeps.value (Value.range_of_coerce hw)
  · exact Keeps.error _

/-- A property of workspaces that the slots and the sampler have no part in. -/
def Blind (P : Workspace → Prop) : Prop :=
  ∀ w slots sampler, P w → P { w with slots, sampler }

theorem blind_typed : Blind (Typed m) :=
  fun _ _ _ hw => ⟨hw.next, hw.observed⟩

section Blind

variable {P : Workspace → Prop} (hP : Blind P)

include hP

theorem keeps_eval {α : Type} (e : Eval α) : Keeps P (eval e) fun _ => True :=
  Keeps.of_run (fun _ => run_eval rfl) (fun w hw => hP w _ _ hw) fun _ _ _ => trivial

theorem keeps_bind (s : Nat) (ordinals : List Nat) : Keeps P (bind s ordinals) fun _ => True := by
  induction ordinals generalizing s with
  | nil => exact Keeps.value trivial
  | cons o ordinals ih =>
      exact Keeps.bind (keeps_modify fun w hw => hP w _ w.sampler hw) fun _ _ => ih (s + 1)

/-- A sampled value belongs to the range of its fluent. -/
theorem keeps_sampleGround (s : Snapshot) (b : FluentBlock) (body : Compiled) (place : Nat) :
    Keeps P (sampleGround m s b body place) fun v => v.range = b.range :=
  Keeps.bind (keeps_bind hP 0 _) fun _ _ =>
    Keeps.bind (keeps_eval hP _) fun v _ => keeps_checked b body.label v

theorem keeps_stepState (s : Snapshot) {b : FluentBlock} (body : Compiled) {place : Nat}
    (hwrite : ∀ v : Value, v.range = b.range → ∀ w, P w →
      P { w with next := w.next.setIfInBounds (b.offset + place) v }) :
    Keeps P (stepState m s b body place) fun _ => True :=
  Keeps.bind (keeps_sampleGround hP s b body place) fun v hv =>
    keeps_modify fun w hw => hwrite v hv w hw

theorem keeps_stepObservation (nextState action : Table) {b : FluentBlock} (body : Compiled)
    {place : Nat} (hwrite : ∀ v : Value, v.range = b.range → ∀ w, P w →
      P { w with observed := w.observed.setIfInBounds (b.offset + place) v }) :
    Keeps P (stepObservation m nextState action b body place) fun _ => True :=
  Keeps.bind keeps_get fun _ _ =>
    Keeps.bind (keeps_sampleGround hP _ b body place) fun v hv =>
      keeps_modify fun w hw => hwrite v hv w hw

theorem keeps_enforce (s : Snapshot) (n : Nat) (constraints : List Compiled) :
    Keeps P (enforce m s n constraints) fun _ => True := by
  induction constraints generalizing n with
  | nil => exact Keeps.value trivial
  | cons c constraints ih =>
      refine Keeps.bind (keeps_eval hP _) fun holds _ => ?_
      cases holds with
      | true => exact ih (n + 1)
      | false => exact Keeps.error _

end Blind

theorem keeps_stepBlock {P : Workspace → Prop} {step : FluentBlock → Compiled → Nat → Work Unit}
    {cpf : Cpf}
    (hstep : ∀ b, m.blocks[cpf.target]? = some b → ∀ place < b.size,
      Keeps P (step b cpf.body place) fun _ => True) :
    Keeps P (stepBlock m step cpf) fun _ => True := by
  unfold stepBlock
  split
  · exact Keeps.error _
  next b hb => exact Keeps.forM fun place hplace => hstep b hb place (List.mem_range.mp hplace)

/-- A step leaves typed tables behind, wherever it ends. -/
theorem keeps_step (h : Grounded d i m) (check : Bool) (state action : Table) :
    Keeps (Typed m) (step m check state action) fun _ => True := by
  have hadvance : Keeps (Typed m) (advance m state action) fun _ => True := by
    refine Keeps.bind (Keeps.forM fun cpf hcpf => ?_) fun _ _ =>
      Keeps.bind keeps_get fun w _ => Keeps.bind (Keeps.forM fun cpf hcpf => ?_) fun _ _ =>
        keeps_eval blind_typed _
    · refine keeps_stepBlock fun b hb place hplace => keeps_stepState blind_typed _ _ ?_
      intro v hv w hw
      exact ⟨h.typed_set hw.next (h.mem_blocksOf_of_stateCpf hcpf hb) hplace hv, hw.observed⟩
    · refine keeps_stepBlock fun b hb place hplace => keeps_stepObservation blind_typed _ _ _ ?_
      intro v hv w hw
      exact ⟨hw.next, h.typed_set hw.observed (h.mem_blocksOf_of_observationCpf hcpf hb) hplace hv⟩
  unfold step
  cases check with
  | false => exact hadvance
  | true => exact Keeps.bind (keeps_enforce blind_typed _ 0 _) fun _ _ => hadvance

end Work

/-! ## Engines -/

namespace Engine

variable {d : Domain} {i : Instance} {m : Model} {c : EngineConfig}

/-- The engines that resets and steps lead to, whether the steps fail or not. -/
inductive Reachable (m : Model) (c : EngineConfig) : Engine → Prop
  | create {e : Engine} (h : Engine.create m c = .ok e) : Reachable m c e
  | reset {e : Engine} (h : Reachable m c e) (seed : UInt64) : Reachable m c (e.reset seed)
  | step {e : Engine} (h : Reachable m c e) (a : Action) : Reachable m c (e.step a).2

/-- The model of an engine is the given one, and its tables are typed. -/
structure Typed (m : Model) (e : Engine) : Prop where
  model : e.model = m
  current : m.Typed .state e.current
  observed : m.Typed .observation e.observed
  next : m.Typed .state e.scratch.next

theorem exists_create (m : Model) (hc : c.validate = .ok ()) :
    ∃ e, Engine.create m c = .ok e := by
  unfold create
  rw [hc]
  exact ⟨_, rfl⟩

theorem typed_reset (h : Grounded d i m) {e : Engine} (he : Typed m e) (seed : UInt64) :
    Typed m (e.reset seed) := by
  obtain ⟨rfl, _, _, _⟩ := he
  exact ⟨rfl, h.typed_initialState, h.typed_defaultObservation, h.typed_initialState⟩

theorem typed_create (h : Grounded d i m) {e : Engine} (he : Engine.create m c = .ok e) :
    Typed m e := by
  unfold create at he
  split at he
  · cases he
  · cases he
    exact ⟨rfl, h.typed_initialState, h.typed_defaultObservation, h.typed_initialState⟩

theorem stepTable_of_error {e : Engine} {table : Table} {f : Fault SimError} {w : Workspace}
    (h : (Work.step e.model e.checkConstraints e.current table).run e.workspace =
      (.error f, w)) : e.stepTable table = (.error f, e.rollBack w) := by
  unfold stepTable
  rw [h]

theorem stepTable_of_ok {e : Engine} {table : Table} {reward : Float} {w : Workspace}
    (h : (Work.step e.model e.checkConstraints e.current table).run e.workspace =
      (.ok reward, w)) :
    e.stepTable table =
      (.ok { observation := (e.commit w).observation, reward
             done := decide ((e.commit w).phase = .terminated) }, e.commit w) := by
  unfold stepTable
  rw [h]

theorem typed_step (h : Grounded d i m) {e : Engine} (he : Typed m e) (a : Action) :
    Typed m (e.step a).2 := by
  unfold step
  split
  · exact he
  · exact he
  · exact he
  · split
    · exact he
    next table _ =>
      obtain ⟨rfl, hcurrent, hobserved, hnext⟩ := he
      have hw : Work.Typed e.model e.workspace := ⟨hnext, h.typed_defaultObservation⟩
      have hkeeps := Work.keeps_step h e.checkConstraints e.current table
      rcases hrun : (Work.step e.model e.checkConstraints e.current table).run e.workspace
        with ⟨f | reward, w⟩
      · rw [stepTable_of_error hrun]
        exact ⟨rfl, hcurrent, hobserved, (hkeeps.after hw hrun).next⟩
      · have hafter := hkeeps.after hw hrun
        rw [stepTable_of_ok hrun]
        exact ⟨rfl, hafter.next, hafter.observed, hcurrent⟩

theorem typed_of_reachable (h : Grounded d i m) {e : Engine} (he : Reachable m c e) :
    Typed m e := by
  induction he with
  | create hcreate => exact typed_create h hcreate
  | reset _ seed ih => exact typed_reset h ih seed
  | step _ a ih => exact typed_step h ih a

end Engine

/-! ## Reachable tables -/

namespace Model

variable {d : Domain} {i : Instance} {m : Model} {c : EngineConfig}

/-- A table is as a domain declares it: it has as many entries as there are
ground fluents of its kind, and the entry of each belongs to the range that its
fluent is declared with. -/
structure AsDeclared (m : Model) (d : Domain) (kind : FluentKind) (table : Table) : Prop where
  size : table.size = m.groundCount kind
  entry : ∀ (n : Nat) (g : GroundFluent), (m.groundFluents kind)[n]? = some g →
    ∃ f v, d.fluent? g.name = some f ∧ f.kind = kind ∧ table[n]? = some v ∧ v.range = f.range

theorem asDeclared_of_typed (h : Grounded d i m) {kind : FluentKind} {table : Table}
    (ht : m.Typed kind table) : m.AsDeclared d kind table where
  size := ht.size_eq
  entry := fun _ _ hg => h.exists_entry_of_typed ht hg

/-- Every table of every reachable engine is as declared: the non-fluents, the
committed state and the last observations, and the table of every action that
the engine accepts. -/
theorem tables_asDeclared (h : Model.ground d i = .ok m) (hc : c.validate = .ok ()) :
    (∃ e, Engine.create m c = .ok e) ∧
      ∀ e, Engine.Reachable m c e →
        e.model = m ∧
          m.AsDeclared d .nonFluent e.model.nonFluents ∧
          m.AsDeclared d .state e.current ∧
          m.AsDeclared d .observation e.observed ∧
          ∀ a table, Action.resolve e.model a = .ok table → m.AsDeclared d .action table := by
  have hg := grounded_of_ground h
  refine ⟨Engine.exists_create m hc, ?_⟩
  intro e he
  obtain ⟨rfl, hcurrent, hobserved, _⟩ := Engine.typed_of_reachable hg he
  refine ⟨rfl, asDeclared_of_typed hg hg.typed_nonFluents, asDeclared_of_typed hg hcurrent,
    asDeclared_of_typed hg hobserved, ?_⟩
  intro a table hresolve
  have htyped := Action.typed_of_resolve hg hresolve
  exact asDeclared_of_typed hg htyped

/-- The lamps after a toggle of the second one still have typed tables. -/
theorem tables_asDeclared_lamps :
    EngineConfig.standard.validate = .ok () ∧
      ∃ e, Engine.create Lamps.model .standard = .ok e ∧
        Lamps.model.AsDeclared Lamps.domain .state
          (e.step (Action.noop.set "toggle" ["l1"] (.bool true))).2.current := by
  have hc : EngineConfig.standard.validate = .ok () := by decide +kernel
  obtain ⟨⟨e, he⟩, htables⟩ := tables_asDeclared Lamps.ground_eq hc
  exact ⟨hc, e, he, (htables _ (.step (.create he) _)).2.2.1⟩

end Model
end LiftedPomdp
