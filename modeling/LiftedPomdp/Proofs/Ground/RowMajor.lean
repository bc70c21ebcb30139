import LiftedPomdp.Ground.Block
import Mathlib.Data.List.Forall2
import Mathlib.Data.List.Nodup

/-!
# Row-major order

Tuples with one entry from each of some lists, the last entry running fastest.
Repeated division by the strides of a block runs through the tuples of
ordinals in exactly this order, and the sum of ordinals times strides leads
back.  Both are proved for any number of arguments and any sizes, empty ones
included.
-/

namespace LiftedPomdp

/-- The tuples with one entry from each list, in row-major order. -/
def tuples {α : Type} : List (List α) → List (List α)
  | [] => [[]]
  | xs :: rest => xs.flatMap fun x => (tuples rest).map (x :: ·)

/-! ## Counts -/

@[simp]
theorem total_nil : total [] = 0 := rfl

@[simp]
theorem total_cons (n : Nat) (ns : List Nat) : total (n :: ns) = n + total ns := rfl

@[simp]
theorem total_append (ns ms : List Nat) : total (ns ++ ms) = total ns + total ms := by
  induction ns with
  | nil => simp
  | cons n ns ih => simp [ih, Nat.add_assoc]

@[simp]
theorem tupleCount_nil : tupleCount [] = 1 := rfl

@[simp]
theorem tupleCount_cons (n : Nat) (ns : List Nat) :
    tupleCount (n :: ns) = n * tupleCount ns := rfl

/-! ## Places and ordinals -/

namespace FluentBlock

/-- Ordinals that stay below the sizes of their arguments. -/
abbrev InRange (ordinals sizes : List Nat) : Prop :=
  List.Forall₂ (· < ·) ordinals sizes

/-- The distance from the start of a block of the tuple with some ordinals. -/
def distance (ordinals sizes : List Nat) : Nat :=
  total (List.zipWith (· * ·) ordinals (rowStrides sizes))

@[simp]
theorem distance_nil (ordinals : List Nat) : distance ordinals [] = 0 := by
  simp [distance, rowStrides]

@[simp]
theorem distance_cons (o : Nat) (ordinals : List Nat) (n : Nat) (sizes : List Nat) :
    distance (o :: ordinals) (n :: sizes) =
      o * tupleCount sizes + distance ordinals sizes := rfl

theorem distance_lt {ordinals sizes : List Nat} (h : InRange ordinals sizes) :
    distance ordinals sizes < tupleCount sizes := by
  induction h with
  | nil => simp
  | @cons o n ordinals sizes ho _ ih =>
      rw [distance_cons, tupleCount_cons]
      have hle : (o + 1) * tupleCount sizes ≤ n * tupleCount sizes :=
        Nat.mul_le_mul_right _ ho
      rw [Nat.add_mul, Nat.one_mul] at hle
      omega

theorem div_mod_of_lt {r p : Nat} (o : Nat) (h : r < p) :
    (o * p + r) / p = o ∧ (o * p + r) % p = r := by
  have hpos : 0 < p := Nat.zero_lt_of_lt h
  constructor
  · rw [Nat.mul_comm, Nat.mul_add_div hpos, Nat.div_eq_of_lt h, Nat.add_zero]
  · rw [Nat.mul_comm, Nat.mul_add_mod, Nat.mod_eq_of_lt h]

theorem ordinalsAt_distance {ordinals sizes : List Nat} (h : InRange ordinals sizes) :
    ordinalsAt (rowStrides sizes) (distance ordinals sizes) = ordinals := by
  induction h with
  | nil => rfl
  | @cons o n ordinals sizes ho hrest ih =>
      obtain ⟨hdiv, hmod⟩ := div_mod_of_lt o (distance_lt hrest)
      simp only [rowStrides, ordinalsAt, distance_cons, hdiv, hmod, ih]

/-- A block with a place has at least one value for each later argument, so
no division on the way is by zero. -/
theorem tupleCount_tail_pos {n place : Nat} {sizes : List Nat}
    (h : place < tupleCount (n :: sizes)) : 0 < tupleCount sizes := by
  rw [tupleCount_cons] at h
  exact Nat.pos_of_mul_pos_left (Nat.zero_lt_of_lt h)

theorem ordinalsAt_inRange {sizes : List Nat} {place : Nat} (h : place < tupleCount sizes) :
    InRange (ordinalsAt (rowStrides sizes) place) sizes := by
  induction sizes generalizing place with
  | nil => exact List.Forall₂.nil
  | cons n sizes ih =>
      have hpos := tupleCount_tail_pos h
      refine List.Forall₂.cons ?_ (ih (Nat.mod_lt _ hpos))
      exact (Nat.div_lt_iff_lt_mul hpos).mpr h

theorem distance_ordinalsAt {sizes : List Nat} {place : Nat} (h : place < tupleCount sizes) :
    distance (ordinalsAt (rowStrides sizes) place) sizes = place := by
  induction sizes generalizing place with
  | nil =>
      have hzero : place = 0 := by simpa using h
      simp [hzero]
  | cons n sizes ih =>
      have hpos := tupleCount_tail_pos h
      simp only [rowStrides, ordinalsAt, distance_cons]
      rw [ih (Nat.mod_lt _ hpos), Nat.mul_comm]
      exact Nat.div_add_mod place (tupleCount sizes)

/-- Counting up to a product runs through the second factor once for each
number below the first. -/
theorem range_mul (n p : Nat) :
    List.range (n * p) =
      (List.range n).flatMap fun o => (List.range p).map (o * p + ·) := by
  induction n with
  | zero => simp
  | succ n ih =>
      rw [Nat.succ_mul, List.range_add, ih, List.range_succ, List.flatMap_append,
        List.flatMap_singleton]

/-- Decoding the places of a block one after the other runs through all
tuples of ordinals in row-major order. -/
theorem map_ordinalsAt_range (sizes : List Nat) :
    (List.range (tupleCount sizes)).map (ordinalsAt (rowStrides sizes)) =
      tuples (sizes.map List.range) := by
  induction sizes with
  | nil => rfl
  | cons n sizes ih =>
      rw [List.map_cons, tuples, ← ih, tupleCount_cons, range_mul, List.map_flatMap]
      congr 1
      funext o
      rw [List.map_map, List.map_map]
      apply List.map_congr_left
      intro r hr
      obtain ⟨hdiv, hmod⟩ := div_mod_of_lt o (List.mem_range.mp hr)
      simp only [Function.comp_apply, rowStrides, ordinalsAt, hdiv, hmod]

end FluentBlock
end LiftedPomdp
