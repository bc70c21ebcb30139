import LiftedPomdp.Proofs.Ground.Grounded
import Mathlib.Data.String.Basic

/-!
# Ground keys and places

The place of a ground fluent in the table of its kind is computed from the
ordinals of its arguments, while the enumeration of the ground fluents decodes
one place after the other.  In a grounded model the two agree: looking up a
key gives the place at which it is enumerated, for every key and every place.
-/

namespace LiftedPomdp

open Grounding FluentBlock

namespace Model

variable {m : Model}

/-- The types of the parameters of a block have so many objects. -/
abbrev sizesOf (m : Model) (b : FluentBlock) : List Nat :=
  b.params.map (typeSize m.types)

/-! ## Objects and ordinals -/

theorem typeSize_eq {n : Nat} {t : ObjectType} (ht : m.types[n]? = some t) :
    typeSize m.types n = t.size := by
  rw [typeSize, ht]

theorem getElem?_of_lt_typeSize {n o : Nat} (ho : o < typeSize m.types n) :
    ∃ t name, m.types[n]? = some t ∧ t.objects[o]? = some name := by
  cases ht : m.types[n]? with
  | none => simp [typeSize, ht] at ho
  | some t =>
      rw [typeSize_eq ht] at ho
      exact ⟨t, t.objects[o], rfl, List.getElem?_eq_getElem ho⟩

theorem objectNames_cons {n o : Nat} {t : ObjectType} {name : String}
    (ht : m.types[n]? = some t) (hname : t.objects[o]? = some name)
    (types ordinals : List Nat) :
    m.objectNames (n :: types) (o :: ordinals) = name :: m.objectNames types ordinals := by
  simp [objectNames, ht, hname]

theorem ordinals?_cons_eq_some_iff {n : Nat} {types ordinals : List Nat} {name : String}
    {args : List String} :
    m.ordinals? (n :: types) (name :: args) = some ordinals ↔
      ∃ t o rest, m.types[n]? = some t ∧ t.ordinal? name = some o ∧
        m.ordinals? types args = some rest ∧ o :: rest = ordinals := by
  simp only [ordinals?, Option.bind_eq_bind, Option.bind_eq_some_iff, Option.some.injEq,
    Option.pure_def]
  constructor
  · rintro ⟨t, ht, o, ho, rest, hrest, rfl⟩
    exact ⟨t, o, rest, ht, ho, hrest, rfl⟩
  · rintro ⟨t, o, rest, ht, ho, hrest, rfl⟩
    exact ⟨t, ht, o, ho, rest, hrest, rfl⟩

/-- A function that looks objects up one by one succeeds on tuples of the right
length exactly when the objects have ordinals, whatever its errors are. -/
theorem eq_ok_iff_ordinals?_eq_some {ε : Type}
    {resolve : List Nat → List String → Except ε (List Nat)} (hnil : resolve [] [] = .ok [])
    (hcons : ∀ n types name args ordinals, resolve (n :: types) (name :: args) = .ok ordinals ↔
      ∃ t o rest, m.types[n]? = some t ∧ t.ordinal? name = some o ∧
        resolve types args = .ok rest ∧ o :: rest = ordinals)
    {types ordinals : List Nat} {args : List String} (hlen : types.length = args.length) :
    resolve types args = .ok ordinals ↔ m.ordinals? types args = some ordinals := by
  induction types generalizing args ordinals with
  | nil =>
      obtain rfl := List.length_eq_zero_iff.mp hlen.symm
      rw [hnil, Except.ok.injEq, ordinals?, Option.some.injEq]
  | cons n types ih =>
      cases args with
      | nil => simp at hlen
      | cons name args =>
          have hrest : ∀ rest, resolve types args = .ok rest ↔
              m.ordinals? types args = some rest := fun rest => ih (by simpa using hlen)
          simp only [hcons, ordinals?_cons_eq_some_iff, hrest]

/-- Objects have some ordinals exactly when the ordinals are in range and name
the objects. -/
theorem ordinals?_eq_some_iff (apart : NamedApart m.types) {types ordinals : List Nat}
    {args : List String} :
    m.ordinals? types args = some ordinals ↔
      InRange ordinals (types.map (typeSize m.types)) ∧
        m.objectNames types ordinals = args := by
  induction types generalizing args ordinals with
  | nil =>
      cases args with
      | nil => cases ordinals with
        | nil => simp [ordinals?, objectNames]
        | cons o ordinals => simp [ordinals?]
      | cons name args => simp [ordinals?, objectNames]
  | cons n types ih =>
      cases args with
      | nil =>
          simp only [ordinals?, reduceCtorEq, false_iff, not_and]
          intro hrange
          cases hrange
          simp [objectNames]
      | cons name args =>
          rw [ordinals?_cons_eq_some_iff]
          constructor
          · rintro ⟨t, o, rest, ht, ho, hrest, rfl⟩
            obtain ⟨hrange, hnames⟩ := ih.mp hrest
            have hlt : o < typeSize m.types n := by
              rw [typeSize_eq ht]
              exact ObjectType.ordinal?_lt_size ho
            refine ⟨List.Forall₂.cons hlt hrange, ?_⟩
            rw [objectNames_cons ht (ObjectType.getElem?_of_ordinal? ho), hnames]
          · rintro ⟨hrange, hnames⟩
            obtain _ | @⟨o, _, rest, _, hlt, hrest⟩ := hrange
            obtain ⟨t, name', ht, hname⟩ := getElem?_of_lt_typeSize hlt
            rw [objectNames_cons ht hname, List.cons.injEq] at hnames
            obtain ⟨rfl, hnames⟩ := hnames
            have ho := ObjectType.ordinal?_of_getElem? (apart.objects_nodup ht) hname
            exact ⟨t, o, rest, ht, ho, ih.mpr ⟨hrest, hnames⟩, rfl⟩

/-- The tuples of objects of some types are named by the tuples of their
ordinals. -/
theorem map_objectNames_tuples (types : List Nat) :
    (tuples ((types.map (typeSize m.types)).map List.range)).map (m.objectNames types) =
      tuples (types.map fun n => (m.types[n]?.map (·.objects)).getD []) := by
  induction types with
  | nil => rfl
  | cons n types ih =>
      cases ht : m.types[n]? with
      | none => simp [tuples, typeSize, ht]
      | some t =>
          simp only [List.map_cons, tuples, ← ih, List.map_flatMap, List.map_map, ht,
            typeSize_eq ht, Option.map_some, Option.getD_some]
          have hobjects : t.objects = (List.range t.size).map fun o => t.objects[o]?.getD "" := by
            apply List.ext_getElem (by simp [ObjectType.size])
            intro k hk _
            simp [hk]
          rw [hobjects, List.flatMap_map]
          apply List.flatMap_congr
          intro o ho
          apply List.map_congr_left
          intro rest _
          have hlt : o < t.objects.length := List.mem_range.mp ho
          simp [objectNames, ht, hlt]

end Model

namespace Grounded

variable {d : Domain} {i : Instance} {m : Model}

theorem index_eq (h : Grounded d i m) {b : FluentBlock} (hb : b ∈ m.blocks)
    (ordinals : List Nat) :
    b.index ordinals = b.offset + distance ordinals (m.sizesOf b) := by
  obtain ⟨f, _, place, hplaced⟩ := h.exists_placed hb
  rw [FluentBlock.index, hplaced.strides, distance]

theorem size_eq (h : Grounded d i m) {b : FluentBlock} (hb : b ∈ m.blocks) :
    b.size = tupleCount (m.sizesOf b) := by
  obtain ⟨f, _, place, hplaced⟩ := h.exists_placed hb
  exact hplaced.size

/-- The ordinals of some objects lead to a place in the block. -/
theorem distance_lt_size (h : Grounded d i m) {b : FluentBlock} (hb : b ∈ m.blocks)
    {args : List String} {ordinals : List Nat}
    (hordinals : m.ordinals? b.params args = some ordinals) :
    distance ordinals (m.sizesOf b) < b.size := by
  have hrange := ((Model.ordinals?_eq_some_iff h.namedApart).mp hordinals).1
  rw [h.size_eq hb]
  exact distance_lt hrange

theorem index_of_ordinals? (h : Grounded d i m) {b : FluentBlock} (hb : b ∈ m.blocks)
    {args : List String} {ordinals : List Nat}
    (hordinals : m.ordinals? b.params args = some ordinals) :
    ∃ j < b.size, b.index ordinals = b.offset + j :=
  ⟨_, h.distance_lt_size hb hordinals, h.index_eq hb ordinals⟩

theorem ordinals_eq (h : Grounded d i m) {b : FluentBlock} (hb : b ∈ m.blocks) (j : Nat) :
    b.ordinals j = ordinalsAt (rowStrides (m.sizesOf b)) j := by
  obtain ⟨f, _, place, hplaced⟩ := h.exists_placed hb
  rw [FluentBlock.ordinals, hplaced.strides]

theorem mem_blocksOf {kind : FluentKind} {b : FluentBlock} :
    b ∈ m.blocksOf kind ↔ b ∈ m.blocks ∧ b.kind = kind := by
  rw [Model.blocksOf, List.mem_filter, Array.mem_toList_iff, beq_iff_eq]

/-! ## The enumeration of ground fluents -/

theorem length_groundFluentsOf (b : FluentBlock) : (m.groundFluentsOf b).length = b.size := by
  rw [Model.groundFluentsOf, List.length_map, List.length_range]

theorem length_groundFluents (kind : FluentKind) :
    (m.groundFluents kind).length = m.groundCount kind :=
  Contiguous.length_flatMap fun b _ => length_groundFluentsOf b

/-- The ground fluent at a place is the one at the distance of the place from
the start of its block. -/
theorem getElem?_groundFluents (h : Grounded d i m) {kind : FluentKind} {b : FluentBlock}
    (hb : b ∈ m.blocksOf kind) {j : Nat} (hj : j < b.size) :
    (m.groundFluents kind)[b.offset + j]? = some (m.groundFluent b j) := by
  rw [Model.groundFluents, (h.contiguous kind).getElem?_flatMap
    (fun b _ => length_groundFluentsOf b) hb hj (Nat.zero_add _)]
  simp [Model.groundFluentsOf, hj]

theorem exists_block (h : Grounded d i m) {kind : FluentKind} {n : Nat}
    (hn : n < m.groundCount kind) :
    ∃ b ∈ m.blocksOf kind, ∃ j < b.size, n = b.offset + j := by
  obtain ⟨b, hb, j, hj, heq⟩ := (h.contiguous kind).exists_block hn
  exact ⟨b, hb, j, hj, by rw [← heq, Nat.zero_add]⟩

theorem getElem?_groundFluents_eq_some_iff (h : Grounded d i m) {kind : FluentKind} {n : Nat}
    {g : GroundFluent} :
    (m.groundFluents kind)[n]? = some g ↔
      ∃ b ∈ m.blocksOf kind, ∃ j < b.size, n = b.offset + j ∧ g = m.groundFluent b j := by
  constructor
  · intro hget
    have hn : n < m.groundCount kind := by
      rw [← length_groundFluents]
      exact (List.getElem?_eq_some_iff.mp hget).1
    obtain ⟨b, hb, j, hj, rfl⟩ := h.exists_block hn
    rw [h.getElem?_groundFluents hb hj] at hget
    exact ⟨b, hb, j, hj, rfl, (Option.some.inj hget).symm⟩
  · rintro ⟨b, hb, j, hj, rfl, rfl⟩
    exact h.getElem?_groundFluents hb hj

/-! ## Looking up keys -/

theorem block?_eq_some_iff (h : Grounded d i m) {name : String} {b : FluentBlock} :
    m.block? name = some b ↔ b ∈ m.blocks ∧ b.name = name :=
  find?_key_eq_some_iff h.blocks_nodup

/-- The place of a key lies in the block of its fluent, at the distance of the
ordinals of the arguments. -/
theorem locate?_eq_some_iff (h : Grounded d i m) {kind : FluentKind} {name : String}
    {args : List String} {n : Nat} :
    m.locate? name args = some (kind, n) ↔
      ∃ b ∈ m.blocksOf kind, b.name = name ∧ ∃ ordinals,
        m.ordinals? b.params args = some ordinals ∧
          b.offset + distance ordinals (m.sizesOf b) = n := by
  simp only [Model.locate?, Option.bind_eq_bind, Option.bind_eq_some_iff, Option.pure_def,
    Option.some.injEq, Prod.mk.injEq, h.block?_eq_some_iff, mem_blocksOf]
  constructor
  · rintro ⟨b, ⟨hb, hname⟩, ordinals, hordinals, hkind, hindex⟩
    rw [h.index_eq hb] at hindex
    exact ⟨b, ⟨hb, hkind⟩, hname, ordinals, hordinals, hindex⟩
  · rintro ⟨b, ⟨hb, hkind⟩, hname, ordinals, hordinals, hindex⟩
    rw [← h.index_eq hb] at hindex
    exact ⟨b, ⟨hb, hname⟩, ordinals, hordinals, hkind, hindex⟩

/-- A key is found at a place exactly when it is enumerated there. -/
theorem locate?_iff_getElem? (h : Grounded d i m) {kind : FluentKind} {name : String}
    {args : List String} {n : Nat} :
    m.locate? name args = some (kind, n) ↔
      (m.groundFluents kind)[n]? = some { name, args } := by
  rw [h.locate?_eq_some_iff, h.getElem?_groundFluents_eq_some_iff]
  constructor
  · rintro ⟨b, hb, hname, ordinals, hordinals, hplace⟩
    have hblock := (mem_blocksOf.mp hb).1
    obtain ⟨hrange, hnames⟩ := (Model.ordinals?_eq_some_iff h.namedApart).mp hordinals
    refine ⟨b, hb, distance ordinals (m.sizesOf b), ?_, hplace.symm, ?_⟩
    · rw [h.size_eq hblock]
      exact distance_lt hrange
    · rw [Model.groundFluent, h.ordinals_eq hblock, ordinalsAt_distance hrange, hnames, hname]
  · rintro ⟨b, hb, j, hj, hn, hkey⟩
    have hblock := (mem_blocksOf.mp hb).1
    rw [h.size_eq hblock] at hj
    rw [Model.groundFluent, h.ordinals_eq hblock, GroundFluent.mk.injEq] at hkey
    obtain ⟨rfl, rfl⟩ := hkey
    refine ⟨b, hb, rfl, ordinalsAt (rowStrides (m.sizesOf b)) j, ?_, ?_⟩
    · exact (Model.ordinals?_eq_some_iff h.namedApart).mpr ⟨ordinalsAt_inRange hj, rfl⟩
    · rw [distance_ordinalsAt hj, hn]

theorem locate?_eq_none_iff (h : Grounded d i m) {name : String} {args : List String} :
    m.locate? name args = none ↔
      ∀ kind, { name, args } ∉ m.groundFluents kind := by
  constructor
  · intro hnone kind hmem
    obtain ⟨n, hn⟩ := List.mem_iff_getElem?.mp hmem
    rw [← h.locate?_iff_getElem?, hnone] at hn
    cases hn
  · intro habsent
    cases hfound : m.locate? name args with
    | none => rfl
    | some place =>
        obtain ⟨kind, n⟩ := place
        have hget := h.locate?_iff_getElem?.mp hfound
        exact absurd (List.mem_of_getElem? hget) (habsent kind)

theorem locate?_kind (h : Grounded d i m) {kind : FluentKind} {name : String}
    {args : List String} {n : Nat} (hplace : m.locate? name args = some (kind, n)) :
    ∃ b, m.block? name = some b ∧ b.kind = kind := by
  obtain ⟨b, hb, hname, _⟩ := h.locate?_eq_some_iff.mp hplace
  obtain ⟨hblock, hkind⟩ := mem_blocksOf.mp hb
  exact ⟨b, h.block?_eq_some_iff.mpr ⟨hblock, hname⟩, hkind⟩

/-- No ground fluent is enumerated at two places. -/
theorem groundFluents_nodup (h : Grounded d i m) (kind : FluentKind) :
    (m.groundFluents kind).Nodup := by
  rw [List.nodup_iff_getElem?_ne_getElem?]
  intro k l hkl hl heq
  obtain ⟨g, hg⟩ : ∃ g, (m.groundFluents kind)[l]? = some g :=
    ⟨_, List.getElem?_eq_getElem hl⟩
  have hfirst := h.locate?_iff_getElem?.mpr (heq.trans hg)
  have hsecond := h.locate?_iff_getElem?.mpr hg
  rw [hfirst] at hsecond
  simp only [Option.some.injEq, Prod.mk.injEq, true_and] at hsecond
  omega

theorem lookup_zip {α β : Type} [BEq α] [LawfulBEq α] {keys : List α} (hnodup : keys.Nodup)
    (values : List β) {n : Nat} {k : α} (hk : keys[n]? = some k) :
    (keys.zip values).lookup k = values[n]? := by
  induction keys generalizing values n with
  | nil => simp at hk
  | cons key keys ih =>
      rw [List.nodup_cons] at hnodup
      cases values with
      | nil => simp
      | cons v values =>
          rw [List.zip_cons_cons, List.lookup_cons]
          cases n with
          | zero =>
              rw [List.getElem?_cons_zero, Option.some.injEq] at hk
              rw [hk, beq_self_eq_true, List.getElem?_cons_zero]
          | succ n =>
              rw [List.getElem?_cons_succ] at hk
              have hne : (k == key) = false := by
                rw [beq_eq_false_iff_ne]
                rintro rfl
                exact hnodup.1 (List.mem_of_getElem? hk)
              rw [hne, List.getElem?_cons_succ]
              exact ih hnodup.2 values hk

/-- Finding a key in the values of a table gives the entry at its place. -/
theorem get?_describe (h : Grounded d i m) {kind : FluentKind} {name : String}
    {args : List String} {n : Nat} (hplace : m.locate? name args = some (kind, n))
    (table : Table) : (m.describe kind table).get? name args = table[n]? := by
  rw [Valuation.get?, Model.describe,
    lookup_zip (h.groundFluents_nodup kind) _ (h.locate?_iff_getElem?.mp hplace),
    Array.getElem?_toList]

/-- A key that is not enumerated has no value. -/
theorem get?_describe_eq_none {kind : FluentKind} {name : String} {args : List String}
    (habsent : ⟨name, args⟩ ∉ m.groundFluents kind) (table : Table) :
    (m.describe kind table).get? name args = none := by
  rw [Valuation.get?, List.lookup_eq_none_iff]
  intro p hp
  rw [bne_iff_ne]
  rintro heq
  exact habsent (heq ▸ (List.of_mem_zip hp).1)

/-! ## The order of ground fluents -/

theorem sortedFluents_sorted (d : Domain) :
    (sortedFluents d).Pairwise fun f g => f.name ≤ g.name := by
  have hsorted : (sortedFluents d).Pairwise fun f g => decide (f.name ≤ g.name) = true := by
    apply List.pairwise_mergeSort
    · intro f g k hfg hgk
      rw [decide_eq_true_iff] at *
      exact le_trans hfg hgk
    · intro f g
      rw [Bool.or_eq_true, decide_eq_true_iff, decide_eq_true_iff]
      exact le_total f.name g.name
  exact hsorted.imp of_decide_eq_true

/-- Fluents of different names have one order by name. -/
theorem sortedFluents_eq {fluents : List FluentDecl} (hperm : fluents.Perm d.fluents)
    (hnames : (d.fluents.map (·.name)).Nodup)
    (hsorted : fluents.Pairwise fun f g => f.name ≤ g.name) : sortedFluents d = fluents := by
  have hperm' := sortedFluents_perm d
  refine List.Perm.eq_of_pairwise ?_ (sortedFluents_sorted d) hsorted (hperm'.trans hperm.symm)
  intro f g hf hg hle hge
  exact List.inj_on_of_nodup_map hnames (hperm'.mem_iff.mp hf) (hperm.mem_iff.mp hg)
    (le_antisymm hle hge)

/-- Fluents are sorted by name, without repetition. -/
theorem sortedFluents_pairwise (h : Grounded d i m) :
    (sortedFluents d).Pairwise fun f g => f.name < g.name := by
  have hnodup := h.map_name_blocks ▸ h.blocks_nodup
  rw [List.Nodup, List.pairwise_map] at hnodup
  exact ((sortedFluents_sorted d).and hnodup).imp fun ⟨hle, hne⟩ => lt_of_le_of_ne hle hne

/-- The objects of a parameter are those that the instance declares for its
type. -/
theorem objects_of_param (h : Grounded d i m) {p : String} {n : Nat}
    (hn : m.types.findIdx? (fun t => t.name == p) = some n) :
    (m.types[n]?.map (·.objects)).getD [] = objectsOf i p := by
  obtain ⟨t, ht, hname⟩ := (findIdx?_key_eq_some_iff h.namedApart.typeNames).mp hn
  have htypes := objectTypes_eq_ok h.types
  rw [ht, Option.map_some, Option.getD_some]
  rw [htypes, List.getElem?_toArray, List.getElem?_map, Option.map_eq_some_iff] at ht
  obtain ⟨name, _, rfl⟩ := ht
  rw [← hname]

/-- The ground fluents of a block run through the tuples of objects in
row-major order. -/
theorem groundFluentsOf_eq (h : Grounded d i m) {b : FluentBlock} (hb : b ∈ m.blocks)
    {f : FluentDecl} {place : Nat} (hplaced : Placed m.types place f b) :
    m.groundFluentsOf b = (tuples (f.params.map (objectsOf i))).map (GroundFluent.mk f.name) := by
  have hobjects : b.params.map (fun n => (m.types[n]?.map (·.objects)).getD []) =
      f.params.map (objectsOf i) := by
    rw [← List.forall₂_eq_eq_eq, List.forall₂_map_left_iff, List.forall₂_map_right_iff]
    exact (hplaced.params.imp fun p n hn => h.objects_of_param hn).flip
  rw [← hobjects, ← Model.map_objectNames_tuples, ← map_ordinalsAt_range, List.map_map,
    List.map_map, ← h.size_eq hb, Model.groundFluentsOf]
  apply List.map_congr_left
  intro j _
  rw [Model.groundFluent, h.ordinals_eq hb, hplaced.name]
  rfl

/-- The ground fluents of a kind, fluent by fluent. -/
theorem groundFluents_eq (h : Grounded d i m) (kind : FluentKind) :
    m.groundFluents kind =
      ((sortedFluents d).filter fun f => f.kind == kind).flatMap fun f =>
        (tuples (f.params.map (objectsOf i))).map (GroundFluent.mk f.name) := by
  have hpairs : List.Forall₂ (fun b f => b ∈ m.blocks.toList ∧ ∃ place, Placed m.types place f b)
      m.blocks.toList (sortedFluents d) :=
    (List.forall₂_and_left _ _).mpr ⟨fun b hb => hb, h.placedAll.forall₂.flip⟩
  have hkinds := List.rel_filter (p := fun b : FluentBlock => b.kind == kind)
    (q := fun f : FluentDecl => f.kind == kind)
    (fun b f ⟨_, _, hplaced⟩ => by simp only [hplaced.kind]) hpairs
  rw [← List.forall₂_eq_eq_eq]
  refine List.rel_flatMap hkinds fun b f ⟨hb, _, hplaced⟩ => ?_
  rw [List.forall₂_eq_eq_eq]
  exact h.groundFluentsOf_eq (Array.mem_toList_iff.mp hb) hplaced

end Grounded

namespace Model

variable {d : Domain} {i : Instance} {m : Model}

/-- In a grounded model, places and keys of each kind determine each other.
The keys of a kind are enumerated without repetition, by the name of the
fluent and then in row-major order of the declared objects; a key is found at
the place at which it is enumerated and nowhere else, and every place below
the number of ground fluents belongs to one key. -/
theorem locate?_bijective (h : Model.ground d i = .ok m) (kind : FluentKind) :
    (m.groundFluents kind).length = m.groundCount kind ∧
      (m.groundFluents kind).Nodup ∧
      (∃ fluents : List FluentDecl,
        fluents.Perm (d.fluents.filter fun f => f.kind == kind) ∧
          fluents.Pairwise (fun f g => f.name < g.name) ∧
          m.groundFluents kind = fluents.flatMap fun f =>
            (tuples (f.params.map (objectsOf i))).map (GroundFluent.mk f.name)) ∧
      (∀ name args n, m.locate? name args = some (kind, n) ↔
        (m.groundFluents kind)[n]? = some { name, args }) ∧
      (∀ name args, m.locate? name args = none ↔
        ∀ other, { name, args } ∉ m.groundFluents other) ∧
      (∀ g g' : GroundFluent, ∀ n, m.locate? g.name g.args = some (kind, n) →
        m.locate? g'.name g'.args = some (kind, n) → g = g') ∧
      ∀ n < m.groundCount kind,
        ∃! g : GroundFluent, m.locate? g.name g.args = some (kind, n) := by
  have hg := grounded_of_ground h
  have hunique : ∀ g g' : GroundFluent, ∀ n, m.locate? g.name g.args = some (kind, n) →
      m.locate? g'.name g'.args = some (kind, n) → g = g' := by
    intro g g' n hfirst hsecond
    rw [hg.locate?_iff_getElem?] at hfirst hsecond
    exact Option.some.inj (hfirst.symm.trans hsecond)
  refine ⟨Grounded.length_groundFluents kind, hg.groundFluents_nodup kind, ?_,
    fun name args n => hg.locate?_iff_getElem?, fun name args => hg.locate?_eq_none_iff,
    hunique, fun n hn => ?_⟩
  · refine ⟨_, (Grounding.sortedFluents_perm d).filter _, ?_, hg.groundFluents_eq kind⟩
    exact hg.sortedFluents_pairwise.filter _
  · rw [← Grounded.length_groundFluents kind] at hn
    refine ⟨(m.groundFluents kind)[n], ?_, ?_⟩
    · exact hg.locate?_iff_getElem?.mpr (List.getElem?_eq_getElem hn)
    · intro g hother
      have hget := hg.locate?_iff_getElem?.mp hother
      rw [List.getElem?_eq_getElem hn] at hget
      exact (Option.some.inj hget).symm

/-- The eighth non-fluent of the lamps is the last lamp in the last room. -/
theorem locate?_bijective_lamps :
    Lamps.model.locate? "IN" ["l1", "r2"] = some (.nonFluent, 7) ∧
      ∃! g : GroundFluent, Lamps.model.locate? g.name g.args = some (.nonFluent, 7) := by
  obtain ⟨_, _, _, _, _, _, hunique⟩ := locate?_bijective Lamps.ground_eq .nonFluent
  exact ⟨by decide +kernel, hunique 7 (by decide +kernel)⟩

end Model
end LiftedPomdp
