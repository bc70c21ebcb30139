/-!
# Dependency order

Some nodes read others and must come after them.  `Dependency.order` counts the reads of each node
that have not been taken, and takes the smallest node that has none left, again and again.  Where
there is no such node, the remaining nodes lie on or lead to a cycle, and following reads from the
smallest of them finds one.  Reads of a node by itself and of nodes outside the given ones do not
count.
-/

namespace LiftedPomdp
namespace Dependency

/-- The smallest number of a list. -/
def least? : List Nat → Option Nat
  | [] => none
  | n :: ns =>
    match least? ns with
    | none => some n
    | some m => some (min n m)

/-- The least number of a list belongs to it. -/
theorem mem_of_least? {n : Nat} {ns : List Nat} (h : least? ns = some n) : n ∈ ns := by
  induction ns generalizing n with
  | nil => simp [least?] at h
  | cons m ms ih =>
    simp only [least?] at h
    split at h
    · simp_all
    · next k hk =>
      have hmem := ih hk
      have hmin : min m k = n := Option.some.inj h
      rcases Nat.le_total m k with hle | hle
      · have hn : n = m := by rw [← hmin, Nat.min_eq_left hle]
        exact hn ▸ List.mem_cons_self
      · have hn : n = k := by rw [← hmin, Nat.min_eq_right hle]
        exact hn ▸ List.mem_cons_of_mem m hmem

/-- The nodes among `pending` that a node reads, itself apart. -/
def openReads (reads : Nat → List Nat) (pending : List Nat) (n : Nat) : List Nat :=
  (reads n).filter fun d => d != n && pending.contains d

/-- The reads among the nodes, each as the node that is read and the one that reads it. -/
def readings (reads : Nat → List Nat) (nodes : List Nat) : List (Nat × Nat) :=
  nodes.flatMap fun n => (openReads reads nodes n).map fun d => (d, n)

/-- The nodes that read a node, as often as they do. -/
def readersOf (readings : List (Nat × Nat)) (n : Nat) : List Nat :=
  (readings.filter fun r => r.1 == n).map (·.2)

/-- How many reads of each node have not been taken, and the nodes that can be taken next. -/
structure Worklist where
  counts : List (Nat × Nat)
  ready : List Nat

namespace Worklist

/-- Nothing has been taken: the nodes without reads are ready. -/
def start (reads : Nat → List Nat) (nodes : List Nat) : Worklist :=
  let counts := nodes.map fun n => (n, (openReads reads nodes n).length)
  { counts, ready := (counts.filter fun e => e.2 == 0).map (·.1) }

/-- Counts one read of a node less. -/
def countDown (n : Nat) (counts : List (Nat × Nat)) : List (Nat × Nat) :=
  counts.map fun e => if e.1 == n then (n, e.2 - 1) else e

/-- One read of a node has been taken.  With the last one the node becomes ready. -/
def settle (w : Worklist) (n : Nat) : Worklist :=
  match w.counts.lookup n with
  | some (c + 1) =>
    { counts := countDown n w.counts, ready := if c == 0 then n :: w.ready else w.ready }
  | _ => w

/-- A node that is ready is taken, and with it the reads of all that read it. -/
def pop (readings : List (Nat × Nat)) (w : Worklist) (n : Nat) : Worklist :=
  (readersOf readings n).foldl settle { w with ready := w.ready.filter (· != n) }

/-- All reads that are counted. -/
def total : List (Nat × Nat) → Nat
  | [] => 0
  | e :: es => e.2 + total es

/-- The number of nodes that are ready and of reads that have not been taken. -/
def size (w : Worklist) : Nat :=
  w.ready.length + total w.counts

theorem total_countDown_le (n : Nat) (counts : List (Nat × Nat)) :
    total (countDown n counts) ≤ total counts := by
  unfold countDown
  induction counts with
  | nil => exact Nat.le_refl _
  | cons e es ih =>
    rw [List.map_cons, total, total]
    split <;> omega

theorem total_countDown_lt {counts : List (Nat × Nat)} {n c : Nat}
    (h : counts.lookup n = some (c + 1)) : total (countDown n counts) < total counts := by
  induction counts with
  | nil => cases h
  | cons e es ih =>
    obtain ⟨k, m⟩ := e
    rw [countDown, List.map_cons, total, total]
    by_cases hk : k = n
    · subst hk
      rw [List.lookup_cons_self, Option.some.injEq] at h
      have hrest := total_countDown_le k es
      rw [countDown] at hrest
      simp only [beq_self_eq_true, if_true]
      omega
    · have hother : (k == n) = false := by simpa using hk
      rw [List.lookup_cons, BEq.comm, hother] at h
      have hrest := ih h
      rw [countDown] at hrest
      simp only [hother, Bool.false_eq_true, if_false]
      omega

theorem size_settle_le (w : Worklist) (n : Nat) : (w.settle n).size ≤ w.size := by
  unfold settle
  split
  next c hc =>
    have hcounts := total_countDown_lt hc
    simp only [size]
    split
    · rw [List.length_cons]
      omega
    · omega
  · exact Nat.le_refl _

theorem size_foldl_settle_le (w : Worklist) (ns : List Nat) :
    (ns.foldl settle w).size ≤ w.size := by
  induction ns generalizing w with
  | nil => exact Nat.le_refl _
  | cons n ns ih => exact Nat.le_trans (ih (w.settle n)) (size_settle_le w n)

/-- Every node that is taken makes the worklist smaller. -/
theorem size_pop_lt (readings : List (Nat × Nat)) {w : Worklist} {n : Nat} (h : n ∈ w.ready) :
    (w.pop readings n).size < w.size := by
  have hready : (w.ready.filter (· != n)).length < w.ready.length :=
    List.length_filter_lt_length_iff_exists.mpr ⟨n, h, by simp⟩
  have hrest := size_foldl_settle_le { w with ready := w.ready.filter (· != n) }
    (readersOf readings n)
  simp only [size] at hrest ⊢
  unfold pop
  omega

/-- Takes the smallest node that is ready while there is one: the nodes taken, in order. -/
def run (readings : List (Nat × Nat)) (w : Worklist) : List Nat :=
  match _h : least? w.ready with
  | none => []
  | some n => n :: run readings (w.pop readings n)
termination_by w.size
decreasing_by exact size_pop_lt readings (mem_of_least? _h)

end Worklist

/-- Follows reads from a node until one comes up again.  `unseen` are the nodes that have not come
up, and `path` leads back from the node to where the walk began. -/
def walk (reads : Nat → List Nat) (stuck unseen path : List Nat) (n : Nat) : List Nat :=
  match least? (openReads reads stuck n) with
  | none => (n :: path).reverse
  | some d =>
    if (n :: path).contains d then
      (d :: ((n :: path).takeWhile (· != d)) ++ [d]).reverse
    else if _h : d ∈ unseen then
      walk reads stuck (unseen.erase d) (n :: path) d
    else
      (n :: path).reverse
termination_by unseen.length
decreasing_by
  have hlen := List.length_erase_of_mem _h
  have hpos := List.length_pos_of_mem _h
  omega

/-- A cycle among nodes of which each reads another. -/
def cycle (reads : Nat → List Nat) (stuck : List Nat) : List Nat :=
  match least? stuck with
  | none => []
  | some n => walk reads stuck (stuck.erase n) [] n

/-- The nodes that the worklist takes, in order. -/
def emitted (reads : Nat → List Nat) (nodes : List Nat) : List Nat :=
  (Worklist.start reads nodes).run (readings reads nodes)

/-- The nodes that have not been taken. -/
def remainder (nodes taken : List Nat) : List Nat :=
  nodes.filter fun n => !taken.contains n

/-- The nodes in dependency order, or a cycle. -/
def order (reads : Nat → List Nat) (nodes : List Nat) : Except (List Nat) (List Nat) :=
  let taken := emitted reads nodes
  if taken.length == nodes.length then .ok taken
  else .error (cycle reads (remainder nodes taken))

end Dependency
end LiftedPomdp
