import LiftedPomdp.Proofs.Ground.Functions
import LiftedPomdp.Run.Engine

/-!
# The draws of a step

A step goes through functions block by block, and through the places of each
block.  That is one draw after the other, each of a function at a place of its
block.  The functions of all fluents of one kind are drawn at every place of
their table, and at each once.
-/

namespace LiftedPomdp

open Effects Grounding

/-- The draw of one ground fluent: a function at a place of its block. -/
structure Drawing where
  cpf : Cpf
  block : FluentBlock
  /-- The place, counted from the start of the block. -/
  place : Nat

namespace Drawing

/-- The place in the table. -/
def index (x : Drawing) : Nat :=
  x.block.offset + x.place

/-- The ground fluent that is drawn. -/
def key (m : Model) (x : Drawing) : GroundFluent :=
  m.groundFluent x.block x.place

end Drawing

namespace Model

/-- The draws of one function, in the order of its block. -/
def drawingsOf (m : Model) (cpf : Cpf) : List Drawing :=
  match m.blocks[cpf.target]? with
  | some b => (List.range b.size).map fun place => { cpf, block := b, place }
  | none => []

/-- The draws of some functions, one function after the other. -/
def drawings (m : Model) (cpfs : List Cpf) : List Drawing :=
  cpfs.flatMap m.drawingsOf

/-- The places of a fluent in its table. -/
def placesOf (m : Model) (fluent : Nat) : List Nat :=
  match m.blocks[fluent]? with
  | some b => List.range' b.offset b.size
  | none => []

variable {m : Model} {cpfs : List Cpf} {x : Drawing}

theorem drawingsOf_eq {cpf : Cpf} {b : FluentBlock} (hb : m.blocks[cpf.target]? = some b) :
    m.drawingsOf cpf = (List.range b.size).map fun place => { cpf, block := b, place } := by
  rw [drawingsOf, hb]

theorem mem_drawingsOf {cpf : Cpf} :
    x ∈ m.drawingsOf cpf ↔
      x.cpf = cpf ∧ m.blocks[cpf.target]? = some x.block ∧ x.place < x.block.size := by
  constructor
  · intro hx
    unfold drawingsOf at hx
    split at hx
    next b hb =>
      obtain ⟨j, hj, rfl⟩ := List.mem_map.mp hx
      exact ⟨rfl, hb, List.mem_range.mp hj⟩
    · cases hx
  · rintro ⟨rfl, hb, hplace⟩
    rw [drawingsOf_eq hb]
    exact List.mem_map.mpr ⟨x.place, List.mem_range.mpr hplace, rfl⟩

theorem mem_drawings :
    x ∈ m.drawings cpfs ↔
      x.cpf ∈ cpfs ∧ m.blocks[x.cpf.target]? = some x.block ∧ x.place < x.block.size := by
  rw [drawings, List.mem_flatMap]
  constructor
  · rintro ⟨cpf, hcpf, hx⟩
    obtain ⟨rfl, hb, hplace⟩ := mem_drawingsOf.mp hx
    exact ⟨hcpf, hb, hplace⟩
  · rintro ⟨hcpf, hb, hplace⟩
    exact ⟨x.cpf, hcpf, mem_drawingsOf.mpr ⟨rfl, hb, hplace⟩⟩

/-- Before a draw, all draws of the earlier functions have been made. -/
theorem exists_split_of_drawings {before after : List Drawing}
    (h : m.drawings cpfs = before ++ x :: after) :
    ∃ earlier later, cpfs = earlier ++ x.cpf :: later ∧ m.drawings earlier ⊆ before := by
  induction cpfs generalizing before with
  | nil => simp [drawings] at h
  | cons cpf cpfs ih =>
      have hlater : ∀ {before'}, m.drawings cpfs = before' ++ x :: after →
          before = m.drawingsOf cpf ++ before' →
            ∃ earlier later, cpf :: cpfs = earlier ++ x.cpf :: later ∧
              m.drawings earlier ⊆ before := by
        intro before' hrest hbefore
        obtain ⟨earlier, later, hcpfs, hsub⟩ := ih hrest
        refine ⟨cpf :: earlier, later, by rw [hcpfs, List.cons_append], ?_⟩
        rw [hbefore, drawings, List.flatMap_cons]
        exact List.append_subset.mpr
          ⟨List.subset_append_left _ _, List.subset_append_of_subset_right _ hsub⟩
      rw [drawings, List.flatMap_cons] at h
      rcases List.append_eq_append_iff.mp h with ⟨before', hbefore, hrest⟩ | ⟨rest, hfirst, hrest⟩
      · exact hlater hrest hbefore
      · rcases List.cons_eq_append_iff.mp hrest with ⟨rfl, hrest⟩ | ⟨rest', rfl, _⟩
        · have hrest' : m.drawings cpfs = [] ++ x :: after := hrest.symm
          rw [List.append_nil] at hfirst
          exact hlater hrest' (by rw [List.append_nil, hfirst])
        · have hmem : x ∈ m.drawingsOf cpf := by
            rw [hfirst]
            exact List.mem_append_right before List.mem_cons_self
          obtain ⟨rfl, _⟩ := mem_drawingsOf.mp hmem
          exact ⟨[], cpfs, rfl, List.nil_subset before⟩

/-- Drawing block by block is making one draw after the other. -/
theorem forM_stepBlock {step : FluentBlock → Compiled → Nat → Work Unit}
    (hblocks : ∀ cpf ∈ cpfs, ∃ b, m.blocks[cpf.target]? = some b) :
    cpfs.forM (Work.stepBlock m step) =
      (m.drawings cpfs).forM fun x => step x.block x.cpf.body x.place := by
  induction cpfs with
  | nil => rfl
  | cons cpf cpfs ih =>
      rw [List.forall_mem_cons] at hblocks
      obtain ⟨b, hb⟩ := hblocks.1
      have hfirst : Work.stepBlock m step cpf =
          (m.drawingsOf cpf).forM fun x => step x.block x.cpf.body x.place := by
        simp only [Work.stepBlock, hb, drawingsOf_eq hb, List.forM_eq_forM, List.forM_map]
      have hrest := ih hblocks.2
      change (Work.stepBlock m step cpf >>= fun _ => cpfs.forM _) = _
      rw [hfirst, hrest]
      exact (List.forM_append (m := Work)).symm

theorem map_index_drawings (cpfs : List Cpf) :
    (m.drawings cpfs).map (·.index) = (cpfs.map (·.target)).flatMap m.placesOf := by
  rw [drawings, List.map_flatMap, List.flatMap_map]
  apply List.flatMap_congr
  intro cpf _
  unfold drawingsOf placesOf
  cases m.blocks[cpf.target]? with
  | none => rfl
  | some b =>
      dsimp only
      rw [List.map_map, List.range'_eq_map_range]
      rfl

/-- Blocks without a gap have consecutive places. -/
theorem flatMap_placesOf {ns : List Nat} {bs : List FluentBlock} {start : Nat}
    (hblocks : List.Forall₂ (fun n b => m.blocks[n]? = some b) ns bs)
    (hbs : Contiguous start bs) :
    ns.flatMap m.placesOf = List.range' start (total (bs.map (·.size))) := by
  induction hblocks generalizing start with
  | nil => rfl
  | @cons n b ns bs hb _ ih =>
      obtain ⟨rfl, hrest⟩ := hbs
      have hfirst : m.placesOf n = List.range' b.offset b.size := by rw [placesOf, hb]
      rw [List.flatMap_cons, hfirst, ih hrest, List.map_cons, total_cons, ← List.range'_append_1]

theorem map_key_drawings {bs : List FluentBlock}
    (hblocks : List.Forall₂ (fun cpf b => m.blocks[cpf.target]? = some b) cpfs bs) :
    (m.drawings cpfs).map (·.key m) = bs.flatMap m.groundFluentsOf := by
  induction hblocks with
  | nil => rfl
  | @cons cpf b cpfs bs hb _ ih =>
      have hfirst : (m.drawingsOf cpf).map (·.key m) = m.groundFluentsOf b := by
        rw [drawingsOf_eq hb, List.map_map]
        rfl
      rw [drawings, List.flatMap_cons, List.map_append, hfirst, List.flatMap_cons, ← ih]
      rfl

end Model

/-! ## The draws of a model -/

namespace Grounded

variable {d : Domain} {i : Instance} {m : Model}

theorem flatMap_placesOf_numbersOf (h : Grounded d i m) (kind : FluentKind) :
    (numbersOf m.blocks kind).flatMap m.placesOf = List.range (m.groundCount kind) := by
  rw [List.range_eq_range']
  exact Model.flatMap_placesOf (forall₂_numbersOf m kind) (h.contiguous kind)

/-- The draws of the state fill its table from the start to the end. -/
theorem map_index_stateDrawings (h : Grounded d i m) :
    (m.drawings m.stateCpfs).map (·.index) = List.range (m.groundCount .state) := by
  rw [Model.map_index_drawings, h.stateCpfs_targets, h.flatMap_placesOf_numbersOf]

/-- The draws of the observations fill their table, in some order. -/
theorem map_index_observationDrawings (h : Grounded d i m) :
    ((m.drawings m.observationCpfs).map (·.index)).Perm
      (List.range (m.groundCount .observation)) := by
  rw [Model.map_index_drawings, ← h.flatMap_placesOf_numbersOf]
  exact h.observationCpfs_targets.flatMap_right m.placesOf

/-- The draws of the state are those of the ground state fluents, in their
order. -/
theorem map_key_stateDrawings (h : Grounded d i m) :
    (m.drawings m.stateCpfs).map (·.key m) = m.groundFluents .state :=
  Model.map_key_drawings h.stateCpfs_blocks

theorem forM_drawings (h : Grounded d i m) {cpfs : List Cpf}
    (hcpfs : cpfs ⊆ m.stateCpfs ++ m.observationCpfs)
    {step : FluentBlock → Compiled → Nat → Work Unit} :
    cpfs.forM (Work.stepBlock m step) =
      (m.drawings cpfs).forM fun x => step x.block x.cpf.body x.place := by
  refine Model.forM_stepBlock fun cpf hcpf => ?_
  obtain ⟨c, _, b, e, hcompiled, rfl⟩ := h.exists_decl (hcpfs hcpf)
  exact ⟨b, hcompiled.block⟩

end Grounded
end LiftedPomdp
