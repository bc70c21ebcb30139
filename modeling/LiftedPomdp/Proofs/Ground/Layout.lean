import LiftedPomdp.Proofs.Ground.Naming
import LiftedPomdp.Proofs.Ground.RowMajor

/-!
# The layout of tables

Fluents are laid out one after the other, each from the first free place of
the table of its kind.  So the blocks of one kind follow each other without a
gap, and a table of that kind is the concatenation of their parts: the place
of an entry determines its block, and its distance from the start of it.
-/

namespace LiftedPomdp

open Effects

namespace Grounding

@[simp]
theorem ofModel_eq_ok_iff {α : Type} {x : Except ModelError α} {a : α} :
    ofModel x = .ok a ↔ x = .ok a := by
  cases x with
  | ok b => simp [ofModel]
  | error e => simp [ofModel, modelFault]

@[simp]
theorem ofInstantiation_eq_ok_iff {α : Type} {x : Except InstantiationError α} {a : α} :
    ofInstantiation x = .ok a ↔ x = .ok a := by
  cases x with
  | ok b => simp [ofInstantiation]
  | error e => simp [ofInstantiation, instantiationFault]

@[simp]
theorem ofMemory_eq_ok_iff {α : Type} {x : Except Abort α} {a : α} :
    ofMemory x = .ok a ↔ x = .ok a := by
  cases x with
  | ok b => simp [ofMemory]
  | error e => simp [ofMemory]

theorem checkCount_eq_ok_iff {n : Nat} :
    Memory.checkCount n = .ok () ↔ n < Memory.wordCount := by
  unfold Memory.checkCount
  split <;> simp [*]

theorem typeNumber_eq_ok_iff {types : Array ObjectType} {context name : String} {n : Nat} :
    typeNumber types context name = .ok n ↔
      types.findIdx? (fun t => t.name == name) = some n := by
  unfold typeNumber
  split <;> simp [*]

/-! ## The block of one fluent -/

/-- What laying out a fluent from a place on establishes of its block. -/
structure Placed (types : Array ObjectType) (place : Nat) (f : FluentDecl)
    (b : FluentBlock) : Prop where
  name : b.name = f.name
  kind : b.kind = f.kind
  range : b.range = f.range
  params : List.Forall₂ (fun p n => types.findIdx? (fun t => t.name == p) = some n)
    f.params b.params
  default : defaultValue f = .ok b.default
  offset : b.offset = place
  strides : b.strides = rowStrides (b.params.map (typeSize types))
  size : b.size = tupleCount (b.params.map (typeSize types))
  countsFit : ∀ n ∈ layoutCounts (b.params.map (typeSize types)), n < Memory.wordCount
  endFits : b.offset + b.size < Memory.wordCount

theorem placed_of_place {types : Array ObjectType} {offset : Nat} {f : FluentDecl}
    {b : FluentBlock} (h : place types offset f = .ok b) : Placed types offset f b := by
  unfold place at h
  obtain ⟨params, hparams, h⟩ := bind_eq_ok_iff.mp h
  obtain ⟨hcounts, h⟩ := seq_eq_ok_iff.mp h
  obtain ⟨default, hdefault, h⟩ := bind_eq_ok_iff.mp h
  obtain ⟨hend, h⟩ := seq_eq_ok_iff.mp h
  simp only [ofModel_eq_ok_iff, ofMemory_eq_ok_iff, forM_eq_ok_iff, checkCount_eq_ok_iff,
    mapM_eq_ok_iff, typeNumber_eq_ok_iff, pure_eq_ok_iff] at hparams hcounts hdefault hend h
  subst h
  exact {
    name := rfl, kind := rfl, range := rfl, params := hparams, default := hdefault
    offset := rfl, strides := rfl, size := rfl, countsFit := hcounts, endFits := hend }

/-! ## All blocks -/

theorem sortedFluents_perm (d : Domain) : (sortedFluents d).Perm d.fluents :=
  List.mergeSort_perm d.fluents _

/-- What laying out some fluents after blocks already placed establishes. -/
inductive PlacedAll (types : Array ObjectType) :
    List FluentBlock → List FluentDecl → List FluentBlock → Prop
  | nil {placed : List FluentBlock} : PlacedAll types placed [] []
  | cons {placed : List FluentBlock} {f : FluentDecl} {fs : List FluentDecl}
      {b : FluentBlock} {bs : List FluentBlock}
      (head : Placed types (freePlace f.kind placed) f b)
      (tail : PlacedAll types (placed ++ [b]) fs bs) :
      PlacedAll types placed (f :: fs) (b :: bs)

theorem placedAll_of_placeAll {types : Array ObjectType} {placed bs : List FluentBlock}
    {fs : List FluentDecl} (h : placeAll types placed fs = .ok bs) :
    PlacedAll types placed fs bs := by
  induction fs generalizing placed bs with
  | nil =>
      cases h
      exact PlacedAll.nil
  | cons f fs ih =>
      simp only [placeAll, bind_eq_ok_iff, pure_eq_ok_iff] at h
      obtain ⟨b, hb, rest, hrest, rfl⟩ := h
      exact PlacedAll.cons (placed_of_place hb) (ih hrest)

/-- Blocks that follow each other without a gap, from a place on. -/
def Contiguous : Nat → List FluentBlock → Prop
  | _, [] => True
  | place, b :: bs => b.offset = place ∧ Contiguous (place + b.size) bs

theorem freePlace_append_singleton (kind : FluentKind) (placed : List FluentBlock)
    (b : FluentBlock) :
    freePlace kind (placed ++ [b]) =
      freePlace kind placed + if b.kind = kind then b.size else 0 := by
  by_cases hkind : b.kind = kind
  · simp [freePlace, hkind]
  · simp [freePlace, hkind]

namespace PlacedAll

variable {types : Array ObjectType} {placed bs : List FluentBlock} {fs : List FluentDecl}

theorem forall₂ (h : PlacedAll types placed fs bs) :
    List.Forall₂ (fun f b => ∃ place, Placed types place f b) fs bs := by
  induction h with
  | nil => exact List.Forall₂.nil
  | cons head _ ih => exact List.Forall₂.cons ⟨_, head⟩ ih

theorem map_name (h : PlacedAll types placed fs bs) : bs.map (·.name) = fs.map (·.name) := by
  induction h with
  | nil => rfl
  | cons head _ ih => rw [List.map_cons, List.map_cons, head.name, ih]

/-- The blocks of one kind follow each other, from the first free place on. -/
theorem contiguous (h : PlacedAll types placed fs bs) (kind : FluentKind) :
    Contiguous (freePlace kind placed) (bs.filter fun b => b.kind == kind) := by
  induction h with
  | nil => exact trivial
  | @cons placed f fs b bs head _ ih =>
      rw [freePlace_append_singleton] at ih
      by_cases hkind : b.kind = kind
      · rw [List.filter_cons_of_pos (by simpa using hkind)]
        rw [if_pos hkind] at ih
        exact ⟨by rw [head.offset, ← head.kind, hkind], ih⟩
      · rw [List.filter_cons_of_neg (by simpa using hkind)]
        rwa [if_neg hkind] at ih

end PlacedAll

/-! ## Lists of entries, block by block -/

namespace Contiguous

variable {α : Type} {place : Nat} {bs : List FluentBlock} {b : FluentBlock}

theorem le_offset (h : Contiguous place bs) (hb : b ∈ bs) : place ≤ b.offset := by
  induction bs generalizing place with
  | nil => cases hb
  | cons c bs ih =>
      rcases List.mem_cons.mp hb with rfl | hmem
      · exact Nat.le_of_eq h.1.symm
      · have hle := ih h.2 hmem
        omega

/-- Every place belongs to a block. -/
theorem exists_block (h : Contiguous place bs) {n : Nat} (hn : n < total (bs.map (·.size))) :
    ∃ b ∈ bs, ∃ j < b.size, place + n = b.offset + j := by
  induction bs generalizing place n with
  | nil => simp at hn
  | cons c bs ih =>
      rw [List.map_cons, total_cons] at hn
      by_cases hfirst : n < c.size
      · exact ⟨c, List.mem_cons_self, n, hfirst, by rw [h.1]⟩
      · obtain ⟨b, hb, j, hj, heq⟩ := ih h.2 (n := n - c.size) (by omega)
        exact ⟨b, List.mem_cons_of_mem c hb, j, hj, by omega⟩

theorem length_flatMap {f : FluentBlock → List α} (hlen : ∀ b ∈ bs, (f b).length = b.size) :
    (bs.flatMap f).length = total (bs.map (·.size)) := by
  induction bs with
  | nil => rfl
  | cons c bs ih =>
      rw [List.flatMap_cons, List.length_append, hlen c List.mem_cons_self,
        ih fun b hb => hlen b (List.mem_cons_of_mem c hb)]
      rfl

/-- The entry of a list that holds the entries of the blocks one after the
other is found by the place of its block and its distance from there. -/
theorem getElem?_flatMap (h : Contiguous place bs) {f : FluentBlock → List α}
    (hlen : ∀ b ∈ bs, (f b).length = b.size) (hb : b ∈ bs) {n j : Nat} (hj : j < b.size)
    (hn : place + n = b.offset + j) : (bs.flatMap f)[n]? = (f b)[j]? := by
  induction bs generalizing place n with
  | nil => cases hb
  | cons c bs ih =>
      have hfirst : (f c).length = c.size := hlen c List.mem_cons_self
      rw [List.flatMap_cons]
      rcases List.mem_cons.mp hb with rfl | hmem
      · have heq : n = j := by
          have hoffset := h.1
          omega
        rw [List.getElem?_append_left (by omega), heq]
      · have hle := le_offset h.2 hmem
        rw [List.getElem?_append_right (by omega)]
        exact ih h.2 (fun b hb => hlen b (List.mem_cons_of_mem c hb)) hmem (by omega)

end Contiguous
end Grounding
end LiftedPomdp
