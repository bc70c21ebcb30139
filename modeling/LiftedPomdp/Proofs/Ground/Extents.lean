import LiftedPomdp.Proofs.Ground.Evaluation
import Mathlib.Algebra.BigOperators.Ring.List
import Mathlib.Algebra.Order.BigOperators.Group.List
import Mathlib.Algebra.Order.Ring.Nat
import Mathlib.Data.UInt

/-!
# The numbers of a layout

The size of the block of a fluent is a product over its parameters, a stride is
one over the parameters to the right, and the offset is the sum of the sizes of
the fluents of its kind that come before.  All of them make sense in any
commutative semiring.  In the natural numbers they are the true counts; in words
of 64 bits they are what remains of these modulo `2 ^ 64`, since casts go through
sums and products.  Grounding refuses counts that do not have 64 bits, so that
in a ground model both are the same.  A layout that multiplies and adds words
without looking at what is carried comes to the numbers modulo `2 ^ 64`, and
refuses nothing.
-/

namespace LiftedPomdp

open Effects Grounding

open scoped UInt64.CommRing

/-- The numbers that tell where the block of a fluent lies. -/
structure Extent (α : Type) where
  offset : α
  strides : List α
  size : α
  deriving DecidableEq

/-- The same numbers, read differently. -/
def Extent.map {α β : Type} (g : α → β) (e : Extent α) : Extent β :=
  { offset := g e.offset, strides := e.strides.map g, size := g e.size }

/-- The numbers have 64 bits. -/
def Extent.Fits (e : Extent ℕ) : Prop :=
  e.offset < 2 ^ 64 ∧ e.size < 2 ^ 64 ∧ ∀ n ∈ e.strides, n < 2 ^ 64

/-- The numbers of a block. -/
def FluentBlock.extent (b : FluentBlock) : Extent ℕ :=
  { offset := b.offset, strides := b.strides, size := b.size }

/-! ## Counting in a semiring -/

section Semiring

variable (α : Type) [CommSemiring α] (i : Instance)

/-- The numbers of objects that the parameters of a fluent range over. -/
def sizesIn (f : FluentDecl) : List α :=
  f.params.map fun p => ((objectsOf i p).length : α)

/-- The number of ground fluents of a fluent. -/
def countIn (f : FluentDecl) : α :=
  (sizesIn α i f).prod

variable {α} in
/-- For each parameter, the product of the sizes to its right. -/
def stridesFrom : List α → List α
  | [] => []
  | _ :: sizes => sizes.prod :: stridesFrom sizes

/-- The numbers of the block of a fluent, given the fluents laid out before it. -/
def extentIn (before : List FluentDecl) (f : FluentDecl) : Extent α where
  offset := ((before.filter fun g => g.kind == f.kind).map (countIn α i)).sum
  strides := stridesFrom (sizesIn α i f)
  size := countIn α i f

variable {α} {β : Type} [CommSemiring β] (g : α →+* β)

theorem map_sizesIn (f : FluentDecl) : (sizesIn α i f).map g = sizesIn β i f := by
  rw [sizesIn, sizesIn, List.map_map]
  apply List.map_congr_left
  intro p _
  exact map_natCast g _

theorem map_countIn (f : FluentDecl) : g (countIn α i f) = countIn β i f := by
  rw [countIn, countIn, map_list_prod, map_sizesIn]

theorem map_stridesFrom (sizes : List α) :
    (stridesFrom sizes).map g = stridesFrom (sizes.map g) := by
  induction sizes with
  | nil => rfl
  | cons n sizes ih =>
      rw [stridesFrom, List.map_cons, List.map_cons, stridesFrom, ih, map_list_prod]

/-- Counting commutes with the homomorphisms of semirings. -/
theorem map_extentIn (before : List FluentDecl) (f : FluentDecl) :
    (extentIn α i before f).map g = extentIn β i before f := by
  have hoffset : g ((before.filter fun h => h.kind == f.kind).map (countIn α i)).sum =
      ((before.filter fun h => h.kind == f.kind).map (countIn β i)).sum := by
    rw [map_list_sum, List.map_map]
    congr 1
    exact List.map_congr_left fun h _ => map_countIn i g h
  rw [extentIn, extentIn, Extent.map, hoffset, map_stridesFrom, map_sizesIn, map_countIn]

end Semiring

/-! ## Counting in words -/

/-- Counting in words of 64 bits is counting modulo `2 ^ 64`. -/
theorem extentIn_words (i : Instance) (before : List FluentDecl) (f : FluentDecl) :
    (extentIn UInt64 i before f).map UInt64.toNat =
      (extentIn ℕ i before f).map (· % 2 ^ 64) := by
  rw [← map_extentIn i (Nat.castRingHom UInt64) before f]
  simp only [Extent.map, List.map_map]
  rfl

theorem Extent.map_mod_eq_iff {e : Extent ℕ} : e.map (· % 2 ^ 64) = e ↔ e.Fits := by
  have hmod : ∀ n : ℕ, n % 2 ^ 64 = n ↔ n < 2 ^ 64 := fun n =>
    Nat.mod_eq_iff_lt (Nat.two_pow_pos 64).ne'
  have hstrides : e.strides.map (· % 2 ^ 64) = e.strides ↔ ∀ n ∈ e.strides, n < 2 ^ 64 :=
    calc e.strides.map (· % 2 ^ 64) = e.strides
        ↔ e.strides.map (· % 2 ^ 64) = e.strides.map id := by rw [List.map_id]
      _ ↔ ∀ n ∈ e.strides, n % 2 ^ 64 = id n := List.map_inj_left
      _ ↔ ∀ n ∈ e.strides, n < 2 ^ 64 := forall₂_congr fun n _ => hmod n
  rw [Extent.map, Extent.Fits, Extent.mk.injEq, hmod, hmod, hstrides]
  exact and_congr_right fun _ => and_comm

/-- Words of 64 bits count exactly where the true counts have 64 bits. -/
theorem extentIn_words_eq_iff (i : Instance) (before : List FluentDecl) (f : FluentDecl) :
    (extentIn UInt64 i before f).map UInt64.toNat = extentIn ℕ i before f ↔
      (extentIn ℕ i before f).Fits := by
  rw [extentIn_words, Extent.map_mod_eq_iff]

/-! ## Laying out in words -/

namespace Grounding

/-- The strides of a block, from the last parameter on; each is the one to its right
times the size to its right. -/
def wordStrides : List UInt64 → List UInt64
  | [] => []
  | [_] => [1]
  | _ :: n :: sizes =>
    let strides := wordStrides (n :: sizes)
    strides.headD 1 * n :: strides

/-- The block of a fluent, laid out in words from the first free place of its kind
on. -/
def placeInWords (types : Array ObjectType) (free : FluentKind → UInt64) (f : FluentDecl) :
    Attempt FluentBlock := do
  let params ← ofModel (f.params.mapM (typeNumber types ("pvariable '" ++ f.name ++ "'")))
  let sizes := params.map fun n => UInt64.ofNat (typeSize types n)
  let default ← ofModel (defaultValue f)
  return {
    name := f.name, kind := f.kind, range := f.range, params, default
    offset := (free f.kind).toNat
    strides := (wordStrides sizes).map UInt64.toNat
    size := (sizes.foldl (· * ·) 1).toNat }

/-- The blocks of some fluents.  Each moves the first free place of its kind on. -/
def placeAllInWords (types : Array ObjectType) (free : FluentKind → UInt64) :
    List FluentDecl → Attempt (List FluentBlock)
  | [] => .ok []
  | f :: fs => do
    let b ← placeInWords types free f
    let after := Function.update free f.kind (free f.kind + UInt64.ofNat b.size)
    let bs ← placeAllInWords types after fs
    return b :: bs

/-- The blocks of all fluents of a domain, laid out in words. -/
def blocksInWords (d : Domain) (types : Array ObjectType) : Attempt (Array FluentBlock) := do
  let bs ← placeAllInWords types (fun _ => 0) (sortedFluents d)
  return bs.toArray

end Grounding

theorem wordStrides_eq_stridesFrom (sizes : List UInt64) :
    wordStrides sizes = stridesFrom sizes := by
  fun_induction wordStrides sizes with
  | case1 => rfl
  | case2 n => rfl
  | case3 n n' sizes strides ih =>
      dsimp only [strides] at ih ⊢
      rw [ih, stridesFrom, stridesFrom, List.headD_cons, List.prod_cons, mul_comm]
      rfl

/-! ## Counting in a layout -/

theorem tupleCount_eq_prod (ns : List Nat) : tupleCount ns = ns.prod := by
  induction ns with
  | nil => rfl
  | cons n ns ih => rw [tupleCount_cons, ih, List.prod_cons]

theorem rowStrides_eq_stridesFrom (ns : List Nat) : rowStrides ns = stridesFrom ns := by
  induction ns with
  | nil => rfl
  | cons n ns ih => rw [rowStrides, stridesFrom, tupleCount_eq_prod, ih]

/-- The numbers of a block that was laid out have 64 bits. -/
theorem fits_of_placed {types : Array ObjectType} {place : Nat} {f : FluentDecl}
    {b : FluentBlock} (h : Placed types place f b) : b.extent.Fits := by
  have hend : b.offset + b.size < 2 ^ 64 := h.endFits
  refine ⟨Nat.lt_of_le_of_lt (Nat.le_add_right _ _) hend,
    Nat.lt_of_le_of_lt (Nat.le_add_left _ _) hend, fun n hn => ?_⟩
  apply h.countsFit
  rw [FluentBlock.extent, h.strides] at hn
  exact List.mem_append_left _ hn

/-- The types that parameters are resolved to have the objects of the instance. -/
def Sized (types : Array ObjectType) (i : Instance) : Prop :=
  ∀ p n, types.findIdx? (fun t => t.name == p) = some n →
    typeSize types n = (objectsOf i p).length

/-- The types of an instance have its objects. -/
theorem sized_of_objectTypes {d : Domain} {i : Instance} {types : Array ObjectType}
    (h : objectTypes d i = .ok types) : Sized types i := by
  intro p n hfind
  obtain ⟨hn, hname, _⟩ := Array.findIdx?_eq_some_iff_getElem.mp hfind
  have ht := Array.getElem?_eq_getElem hn
  generalize types[n] = t at hname ht
  have hmem := Array.mem_of_getElem? ht
  rw [objectTypes_eq_ok h, List.mem_toArray, List.mem_map] at hmem
  obtain ⟨q, _, hq⟩ := hmem
  subst hq
  obtain rfl : q = p := by simpa using hname
  rw [typeSize, ht]
  rfl

/-- A block that is laid out in words has the numbers of its fluent in words. -/
theorem extent_of_placeInWords {types : Array ObjectType} {i : Instance}
    (hsized : Sized types i) {free : FluentKind → UInt64} {f : FluentDecl} {b : FluentBlock}
    (h : placeInWords types free f = .ok b) :
    b.extent = Extent.map UInt64.toNat
      { offset := free f.kind, strides := stridesFrom (sizesIn UInt64 i f)
        size := countIn UInt64 i f } := by
  unfold placeInWords at h
  obtain ⟨params, hparams, h⟩ := bind_eq_ok_iff.mp h
  obtain ⟨default, _, h⟩ := bind_eq_ok_iff.mp h
  rw [ofModel_eq_ok_iff, mapM_eq_ok_iff] at hparams
  rw [pure_eq_ok_iff] at h
  have hsizes : (params.map fun n => UInt64.ofNat (typeSize types n)) = sizesIn UInt64 i f := by
    rw [sizesIn, ← List.forall₂_eq_eq_eq, List.forall₂_map_left_iff, List.forall₂_map_right_iff]
    refine hparams.flip.imp fun n p hp => ?_
    rw [hsized p n (typeNumber_eq_ok_iff.mp hp)]
    rfl
  rw [← h, FluentBlock.extent, Extent.map]
  dsimp only
  rw [hsizes, wordStrides_eq_stridesFrom, countIn, List.prod_eq_foldl]

theorem extent_of_placeAllInWords {types : Array ObjectType} {i : Instance}
    (hsized : Sized types i) {gs fs : List FluentDecl} {free : FluentKind → UInt64}
    (hfree : ∀ kind, free kind =
      ((gs.filter fun g => g.kind == kind).map (countIn UInt64 i)).sum)
    {bs : List FluentBlock} (h : placeAllInWords types free fs = .ok bs) {k : Nat}
    {f : FluentDecl} (hf : fs[k]? = some f) :
    ∃ b, bs[k]? = some b ∧
      b.extent = (extentIn UInt64 i (gs ++ fs.take k) f).map UInt64.toNat := by
  induction fs generalizing gs free bs k with
  | nil => cases hf
  | cons g fs ih =>
      obtain ⟨c, hc, h⟩ := bind_eq_ok_iff.mp h
      obtain ⟨cs, hcs, h⟩ := bind_eq_ok_iff.mp h
      rw [pure_eq_ok_iff] at h
      subst h
      have hextent := extent_of_placeInWords hsized hc
      cases k with
      | zero =>
          rw [List.getElem?_cons_zero, Option.some.injEq] at hf
          subst hf
          refine ⟨c, rfl, ?_⟩
          rw [hextent, hfree, List.take_zero, List.append_nil, extentIn]
      | succ k =>
          rw [List.getElem?_cons_succ] at hf
          have hsize : UInt64.ofNat c.size = countIn UInt64 i g := by
            rw [show c.size = (countIn UInt64 i g).toNat from congrArg Extent.size hextent,
              UInt64.ofNat_toNat]
          have hafter : ∀ kind, Function.update free g.kind
              (free g.kind + UInt64.ofNat c.size) kind =
                (((gs ++ [g]).filter fun g => g.kind == kind).map (countIn UInt64 i)).sum := by
            intro kind
            rw [List.filter_append, List.map_append, List.sum_append, ← hfree kind]
            by_cases hkind : g.kind = kind
            · subst hkind
              simp [hsize]
            · rw [Function.update_of_ne (Ne.symm hkind),
                List.filter_cons_of_neg (by simpa using hkind)]
              simp
          obtain ⟨b, hb, hlater⟩ := ih hafter hcs hf
          rw [List.append_assoc, List.singleton_append] at hlater
          exact ⟨b, hb, hlater⟩

section Layout

variable {types : Array ObjectType} {i : Instance} {place : Nat} {f : FluentDecl}
  {b : FluentBlock} (hsized : Sized types i) (h : Placed types place f b)

include hsized h

theorem sizes_of_placed : b.params.map (typeSize types) = sizesIn ℕ i f := by
  have hsizes : List.Forall₂ (fun p n => (objectsOf i p).length = typeSize types n)
      f.params b.params :=
    h.params.imp fun p n hp => (hsized p n hp).symm
  rw [sizesIn, ← List.forall₂_eq_eq_eq, List.forall₂_map_left_iff, List.forall₂_map_right_iff]
  exact hsizes.flip.imp fun n p heq => heq.symm

theorem size_of_placed : b.size = countIn ℕ i f := by
  rw [h.size, sizes_of_placed hsized h, tupleCount_eq_prod, countIn]

theorem strides_of_placed : b.strides = stridesFrom (sizesIn ℕ i f) := by
  rw [h.strides, sizes_of_placed hsized h, rowStrides_eq_stridesFrom]

end Layout

/-- The first free place of a kind is the sum of the sizes laid out before. -/
theorem freePlace_eq_sum {i : Instance} {kind : FluentKind} {gs : List FluentDecl}
    {placed : List FluentBlock}
    (h : List.Forall₂ (fun g c => c.kind = g.kind ∧ c.size = countIn ℕ i g) gs placed) :
    freePlace kind placed = ((gs.filter fun g => g.kind == kind).map (countIn ℕ i)).sum := by
  induction h with
  | nil => rfl
  | @cons g c gs placed hhead _ ih =>
      obtain ⟨hkind, hsize⟩ := hhead
      rw [freePlace] at ih ⊢
      by_cases hsame : g.kind = kind
      · rw [List.filter_cons_of_pos (by simpa [hkind] using hsame),
          List.filter_cons_of_pos (by simpa using hsame), List.map_cons, List.map_cons, total_cons,
          List.sum_cons, ih, hsize]
      · rw [List.filter_cons_of_neg (by simpa [hkind] using hsame),
          List.filter_cons_of_neg (by simpa using hsame), ih]

/-- Each block has the true numbers for the fluents laid out before it. -/
theorem Grounding.PlacedAll.extent {types : Array ObjectType} {i : Instance}
    {placed bs : List FluentBlock} {fs : List FluentDecl} (h : PlacedAll types placed fs bs)
    (hsized : Sized types i) {gs : List FluentDecl}
    (hbefore : List.Forall₂ (fun g c => c.kind = g.kind ∧ c.size = countIn ℕ i g) gs placed)
    {k : Nat} {b : FluentBlock} (hb : bs[k]? = some b) :
    ∃ f place, fs[k]? = some f ∧ Placed types place f b ∧
      b.extent = extentIn ℕ i (gs ++ fs.take k) f := by
  -- With each block its fluent joins those that were laid out before.
  induction h generalizing gs k with
  | nil => cases hb
  | @cons placed f fs c bs head _ ih =>
      have hsize := size_of_placed hsized head
      cases k with
      | zero =>
          rw [List.getElem?_cons_zero, Option.some.injEq] at hb
          subst hb
          refine ⟨f, _, rfl, head, ?_⟩
          rw [FluentBlock.extent, extentIn, List.take_zero, List.append_nil, head.offset,
            freePlace_eq_sum hbefore, strides_of_placed hsized head, hsize]
      | succ k =>
          rw [List.getElem?_cons_succ] at hb
          have hhead : List.Forall₂ (fun g c => c.kind = g.kind ∧ c.size = countIn ℕ i g)
              [f] [c] :=
            .cons ⟨head.kind, hsize⟩ .nil
          obtain ⟨g, place, hg, hplaced, hextent⟩ := ih (List.rel_append hbefore hhead) hb
          rw [List.append_assoc, List.singleton_append] at hextent
          exact ⟨g, place, hg, hplaced, hextent⟩

/-- Offsets are sums over more and more fluents. -/
theorem offset_add_size_le {i : Instance} {fs : List FluentDecl} {k l : Nat} (hkl : k < l)
    {f g : FluentDecl} (hf : fs[k]? = some f) (hkind : g.kind = f.kind) :
    (extentIn ℕ i (fs.take k) f).offset + (extentIn ℕ i (fs.take k) f).size ≤
      (extentIn ℕ i (fs.take l) g).offset := by
  have hnext : fs.take (k + 1) = fs.take k ++ [f] := by
    rw [List.take_add_one, hf, Option.toList_some]
  have hsublist : (fs.take k ++ [f]).Sublist (fs.take l) := by
    rw [← hnext]
    exact (List.take_prefix_take_left (by omega)).sublist
  have hsum : ((((fs.take k ++ [f]).filter fun h => h.kind == f.kind)).map (countIn ℕ i)).sum =
      (extentIn ℕ i (fs.take k) f).offset + (extentIn ℕ i (fs.take k) f).size := by
    simp [extentIn]
  rw [← hsum]
  simp only [extentIn, hkind]
  exact ((hsublist.filter _).map _).sum_le_sum fun _ _ => Nat.zero_le _

/-! ## Counting in a ground model -/

theorem Grounding.bare_eq_nil {d : Domain} {types : Array ObjectType}
    (h : checkInhabited d types = .ok ()) :
    (types.toList.filter fun t => t.objects.isEmpty && (usedTypes d).contains t.name) = [] := by
  unfold checkInhabited at h
  dsimp only at h
  split at h
  next hsorted =>
    have hperm := List.mergeSort_perm (((types.toList.filter fun t =>
      t.objects.isEmpty && (usedTypes d).contains t.name)).map (·.name)) fun s t => decide (s ≤ t)
    rw [hsorted] at hperm
    exact List.map_eq_nil_iff.mp hperm.nil_eq.symm
  · cases h

namespace Grounded

variable {d : Domain} {i : Instance} {m : Model}

/-- The objects of a type are those that the instance declares for its name. -/
theorem exists_type_of_findIdx? (h : Grounded d i m) {p : String} {n : Nat}
    (hfind : m.types.findIdx? (fun t => t.name == p) = some n) :
    m.types[n]? = some { name := p, objects := objectsOf i p } := by
  obtain ⟨t, ht, hname⟩ := (findIdx?_key_eq_some_iff h.namedApart.typeNames).mp hfind
  have hmem : t ∈ m.types := Array.mem_of_getElem? ht
  rw [objectTypes_eq_ok h.types, List.mem_toArray, List.mem_map] at hmem
  obtain ⟨q, _, rfl⟩ := hmem
  obtain rfl : q = p := hname
  exact ht

theorem sized (h : Grounded d i m) : Sized m.types i :=
  sized_of_objectTypes h.types

/-- A type that is in use has objects. -/
theorem objectsOf_ne_nil (h : Grounded d i m) {p : String} {n : Nat}
    (hfind : m.types.findIdx? (fun t => t.name == p) = some n) (hused : p ∈ usedTypes d) :
    objectsOf i p ≠ [] := by
  intro hempty
  have htype := Array.mem_of_getElem? (h.exists_type_of_findIdx? hfind)
  have hbare : { name := p, objects := objectsOf i p } ∈ m.types.toList.filter fun t =>
      t.objects.isEmpty && (usedTypes d).contains t.name := by
    rw [List.mem_filter, Array.mem_toList_iff]
    exact ⟨htype, by simp [hempty, hused]⟩
  rw [bare_eq_nil h.inhabited] at hbare
  cases hbare

theorem mem_usedTypes_of_param {f : FluentDecl} (hf : f ∈ d.fluents) {p : String}
    (hp : p ∈ f.params) : p ∈ usedTypes d :=
  List.mem_append_left _ (List.mem_flatMap.mpr ⟨f, hf, hp⟩)

/-- The types of the parameters of a fluent have objects. -/
theorem one_le_countIn (h : Grounded d i m) {f : FluentDecl} (hf : f ∈ d.fluents) {place : Nat}
    {b : FluentBlock} (hplaced : Placed m.types place f b) : 1 ≤ countIn ℕ i f := by
  apply Nat.one_le_iff_ne_zero.mpr
  apply List.prod_ne_zero
  intro hzero
  obtain ⟨p, hp, hlength⟩ := List.mem_map.mp hzero
  obtain ⟨n, -, hfind⟩ := exists_of_mem_of_forall₂ hplaced.params hp
  have hempty : objectsOf i p = [] := List.length_eq_zero_iff.mp (by exact_mod_cast hlength)
  exact h.objectsOf_ne_nil hfind (mem_usedTypes_of_param hf hp) hempty

theorem exists_extent (h : Grounded d i m) {k : Nat} {b : FluentBlock}
    (hb : m.blocks[k]? = some b) :
    ∃ f place, (sortedFluents d)[k]? = some f ∧ Placed m.types place f b ∧
      b.extent = extentIn ℕ i ((sortedFluents d).take k) f := by
  rw [← Array.getElem?_toList] at hb
  obtain ⟨f, place, hf, hplaced, hextent⟩ := h.placedAll.extent h.sized .nil hb
  exact ⟨f, place, hf, hplaced, hextent⟩

theorem exists_laid_out (h : Grounded d i m) {k : Nat} {f : FluentDecl}
    (hf : (sortedFluents d)[k]? = some f) :
    ∃ b, m.blocks[k]? = some b ∧ ∃ place, Placed m.types place f b ∧
      b.extent = extentIn ℕ i ((sortedFluents d).take k) f := by
  obtain ⟨hlt, -⟩ := List.getElem?_eq_some_iff.mp hf
  rw [h.placedAll.forall₂.length_eq, Array.length_toList] at hlt
  have hb := Array.getElem?_eq_getElem hlt
  obtain ⟨g, place, hg, hplaced, hextent⟩ := h.exists_extent hb
  obtain rfl : g = f := Option.some.inj (hg.symm.trans hf)
  exact ⟨_, hb, place, hplaced, hextent⟩

/-- Blocks of one kind do not overlap. -/
theorem offset_add_size_le (h : Grounded d i m) {k l : Nat} (hkl : k < l) {b c : FluentBlock}
    (hb : m.blocks[k]? = some b) (hc : m.blocks[l]? = some c) (hkind : c.kind = b.kind) :
    b.offset + b.size ≤ c.offset := by
  obtain ⟨f, _, hf, hplaced, hextent⟩ := h.exists_extent hb
  obtain ⟨g, _, hg, hplaced', hextent'⟩ := h.exists_extent hc
  have hsame : g.kind = f.kind := by rw [← hplaced.kind, ← hplaced'.kind, hkind]
  have hle := LiftedPomdp.offset_add_size_le (i := i) hkl hf hsame
  rw [← hextent, ← hextent'] at hle
  exact hle

end Grounded

/-- A block has the true numbers for a fluent that is laid out after some others,
and a place at least. -/
structure CountedExactly (i : Instance) (before : List FluentDecl) (f : FluentDecl)
    (b : FluentBlock) : Prop where
  name : b.name = f.name
  kind : b.kind = f.kind
  exact : b.extent = extentIn ℕ i before f
  fits : (extentIn ℕ i before f).Fits
  inhabited : 1 ≤ b.size

/-- A ground model has the types of the instance and the blocks of its layout. -/
theorem Model.exists_layout_of_groundBy
    {layout : Domain → Array ObjectType → Attempt (Array FluentBlock)} {d : Domain}
    {i : Instance} {m : Model} (h : Model.groundBy layout d i = .ok m) :
    objectTypes d i = .ok m.types ∧ layout d m.types = .ok m.blocks := by
  unfold groundBy at h
  obtain ⟨_, h⟩ := seq_eq_ok_iff.mp h
  obtain ⟨_, h⟩ := seq_eq_ok_iff.mp h
  by_cases hname : i.domain = d.name
  · rw [if_neg (not_not_intro hname)] at h
    obtain ⟨types, htypes, h⟩ := bind_eq_ok_iff.mp h
    obtain ⟨blocks, hblocks, h⟩ := bind_eq_ok_iff.mp h
    obtain ⟨_, h⟩ := seq_eq_ok_iff.mp h
    obtain ⟨_, _, h⟩ := bind_eq_ok_iff.mp h
    obtain ⟨_, _, h⟩ := bind_eq_ok_iff.mp h
    obtain ⟨_, _, h⟩ := bind_eq_ok_iff.mp h
    obtain ⟨_, h⟩ := seq_eq_ok_iff.mp h
    obtain ⟨_, _, h⟩ := bind_eq_ok_iff.mp h
    obtain ⟨⟨_, _⟩, _, h⟩ := bind_eq_ok_iff.mp h
    obtain ⟨_, _, h⟩ := bind_eq_ok_iff.mp h
    obtain ⟨_, h⟩ := seq_eq_ok_iff.mp h
    obtain ⟨_, h⟩ := seq_eq_ok_iff.mp h
    rw [pure_eq_ok_iff] at h
    subst h
    exact ⟨ofInstantiation_eq_ok_iff.mp htypes, hblocks⟩
  · simp [hname, seq_eq_ok_iff, instantiationFault] at h

/-- In words of 64 bits the numbers of a fluent are the true ones if and only if
these have 64 bits.  Grounding gives a model only then: every block has the true
numbers, and blocks of one kind do not overlap.  Grounding with a layout in words
gives the blocks their numbers in words, whatever these are. -/
theorem Model.extents_exact (d : Domain) (i : Instance) {k : Nat} {f : FluentDecl}
    (hf : (sortedFluents d)[k]? = some f) :
    ((extentIn UInt64 i ((sortedFluents d).take k) f).map UInt64.toNat =
        extentIn ℕ i ((sortedFluents d).take k) f ↔
          (extentIn ℕ i ((sortedFluents d).take k) f).Fits) ∧
      (∀ m, Model.ground d i = .ok m →
        ∃ b, m.blocks[k]? = some b ∧ CountedExactly i ((sortedFluents d).take k) f b ∧
          ∀ (l : Nat) (c : FluentBlock), k < l → m.blocks[l]? = some c → c.kind = b.kind →
            b.offset + b.size ≤ c.offset) ∧
      ∀ m, Model.groundBy blocksInWords d i = .ok m →
        ∃ b, m.blocks[k]? = some b ∧
          b.extent = (extentIn UInt64 i ((sortedFluents d).take k) f).map UInt64.toNat := by
  refine ⟨extentIn_words_eq_iff _ _ _, fun m hm => ?_, fun m hm => ?_⟩
  · have h := grounded_of_ground hm
    obtain ⟨b, hb, place, hplaced, hextent⟩ := h.exists_laid_out hf
    have hmem : f ∈ d.fluents :=
      (Grounding.sortedFluents_perm d).mem_iff.mp (List.mem_of_getElem? hf)
    refine ⟨b, hb, ?_, fun l c hkl hc hkind => h.offset_add_size_le hkl hb hc hkind⟩
    exact {
      name := hplaced.name
      kind := hplaced.kind
      exact := hextent
      fits := hextent ▸ fits_of_placed hplaced
      inhabited := by
        rw [size_of_placed h.sized hplaced]
        exact h.one_le_countIn hmem hplaced }
  · obtain ⟨htypes, hblocks⟩ := Model.exists_layout_of_groundBy hm
    obtain ⟨bs, hbs, hblocks⟩ := bind_eq_ok_iff.mp hblocks
    rw [pure_eq_ok_iff] at hblocks
    rw [← hblocks, List.getElem?_toArray]
    have hfree : ∀ kind : FluentKind, (0 : UInt64) =
        ((([] : List FluentDecl).filter fun g => g.kind == kind).map (countIn UInt64 i)).sum :=
      fun _ => rfl
    exact extent_of_placeAllInWords (sized_of_objectTypes htypes) hfree hbs hf

/-- Two fluents of one kind, counted and kept apart. -/
theorem Model.extents_exact_lamps :
    ∃ f b c, (sortedFluents Lamps.domain)[0]? = some f ∧ Lamps.model.blocks[0]? = some b ∧
      Lamps.model.blocks[1]? = some c ∧ CountedExactly Lamps.house [] f b ∧
        b.offset + b.size ≤ c.offset := by
  have hsorted : sortedFluents Lamps.domain = Lamps.domain.fluents :=
    List.mergeSort_of_pairwise (by decide +kernel)
  obtain ⟨f, hf⟩ : ∃ f, (sortedFluents Lamps.domain)[0]? = some f := by
    rw [hsorted]
    exact ⟨_, rfl⟩
  have hkinds : (Lamps.model.blocks[0]?).any (fun b => b.kind == .nonFluent) = true ∧
      (Lamps.model.blocks[1]?).any (fun c => c.kind == .nonFluent) = true := by
    decide +kernel
  obtain ⟨⟨b, hb, hkind⟩, c, hc, hkind'⟩ :=
    And.imp (Option.any_eq_true _ _).mp (Option.any_eq_true _ _).mp hkinds
  rw [beq_iff_eq] at hkind hkind'
  obtain ⟨b', hb', hexact, hapart⟩ :=
    (Model.extents_exact Lamps.domain Lamps.house hf).2.1 Lamps.model Lamps.ground_eq
  obtain rfl : b = b' := Option.some.inj (hb.symm.trans hb')
  exact ⟨f, b, c, hf, hb, hc, hexact, hapart 1 c Nat.zero_lt_one hc (hkind'.trans hkind.symm)⟩

/-! ## A fluent of sixty-four parameters -/

namespace Board

/-- The patterns of two colours on a board of sixty-four squares. -/
def domain : Domain where
  name := "board"
  types := ["colour"]
  fluents := [.observation "pattern" .bool (List.replicate 64 "colour")]
  cpfs := [{
    fluent := "pattern"
    params := (List.range 64).map fun k => "x" ++ Decimal.natText k
    expr := .bool true }]
  reward := .real 0.0
  constraints := []

def game : Instance where
  name := "game"
  domain := "board"
  objects := [{ typeName := "colour", objects := ["black", "white"] }]
  nonFluents := []
  initState := []
  maxNonDefaultActions := none
  horizon := 1
  discount := 1.0

end Board

/-- Two objects for each of sixty-four parameters pass every check of the
definitions.  In words of 64 bits they make no ground fluent at all: with a layout
in words they are ground to a block without a place, and otherwise grounding has no
answer. -/
theorem Model.extents_wrap :
    Board.domain.validate = .ok () ∧ Board.game.validate = .ok () ∧
      (∀ f ∈ Board.domain.fluents, (extentIn UInt64 Board.game [] f).size = 0 ∧
        (extentIn ℕ Board.game [] f).size = 2 ^ 64) ∧
      (∃ m b, Model.groundBy blocksInWords Board.domain Board.game = .ok m ∧
        m.blocks[0]? = some b ∧ b.name = "pattern" ∧ b.size = 0) ∧
      Model.ground Board.domain Board.game = .error (.abort (.overflow (2 ^ 64))) := by
  have hvalid : Board.domain.validate = .ok () := by decide +kernel
  have hsorted := sortedFluents_eq_insertionSort (d := Board.domain) (by decide +kernel)
  have hground : (Model.ground Board.domain Board.game).map (fun _ => ()) =
      .error (.abort (.overflow (2 ^ 64))) := by
    unfold Model.ground Model.groundBy Grounding.blocks
    rw [hvalid, hsorted]
    decide +kernel
  refine ⟨hvalid, by decide +kernel, by decide +kernel, ?_, ?_⟩
  · have hwords : (Model.groundBy blocksInWords Board.domain Board.game).toOption.any (fun m =>
        m.blocks[0]?.any fun b => b.name == "pattern" && b.size == 0) = true := by
      unfold Model.groundBy blocksInWords orderObservations
      rw [hvalid, hsorted, checkInhabited_eq_checkNoneBare, Dependency.order_eq_orderUpTo]
      decide +kernel
    obtain ⟨m, hm, hblock⟩ := (Option.any_eq_true _ _).mp hwords
    obtain ⟨b, hb, hempty⟩ := (Option.any_eq_true _ _).mp hblock
    rw [Bool.and_eq_true, beq_iff_eq, beq_iff_eq] at hempty
    exact ⟨m, b, mem_toOption_iff.mp hm, hb, hempty.1, hempty.2⟩
  · cases hresult : Model.ground Board.domain Board.game with
    | ok m =>
        rw [hresult] at hground
        cases hground
    | error e =>
        rw [hresult] at hground
        exact congrArg Except.error (Except.error.inj hground)

end LiftedPomdp
