import LiftedPomdp.Ground.Dependency
import Mathlib.Data.List.Perm.Basic

/-!
# Nodes that are ready

Without counting, a node is ready when none of the nodes that are left is read by
it.  Taking the least node that is ready, again and again, neither loses nor
repeats a node, and each node that is taken comes after all that it reads.  Which
nodes are taken does not depend on the order in which they were given, and neither
does the cycle among those that are left.
-/

namespace LiftedPomdp
namespace Dependency

variable {reads : Nat → List Nat} {pending : List Nat} {n k : Nat}

/-! ## The least number -/

section Least

variable {ns ns' : List Nat}

theorem least?_eq_none_iff : least? ns = none ↔ ns = [] := by
  cases ns with
  | nil => simp [least?]
  | cons n ns =>
      rw [least?]
      split <;> simp

theorem least?_le (h : least? ns = some n) (hk : k ∈ ns) : n ≤ k := by
  induction ns generalizing n with
  | nil => cases hk
  | cons m ms ih =>
      rw [least?] at h
      split at h
      next hnone =>
        obtain rfl := Option.some.inj h
        rw [least?_eq_none_iff.mp hnone, List.mem_singleton] at hk
        exact Nat.le_of_eq hk.symm
      next l hl =>
        obtain rfl := Option.some.inj h
        rcases List.mem_cons.mp hk with rfl | hk
        · exact Nat.min_le_left k l
        · exact Nat.le_trans (Nat.min_le_right m l) (ih hl hk)

theorem least?_eq_some_iff : least? ns = some n ↔ n ∈ ns ∧ ∀ k ∈ ns, n ≤ k := by
  refine ⟨fun h => ⟨mem_of_least? h, fun k hk => least?_le h hk⟩, fun ⟨hn, hle⟩ => ?_⟩
  cases h : least? ns with
  | none =>
      rw [least?_eq_none_iff.mp h] at hn
      cases hn
  | some m => rw [Nat.le_antisymm (least?_le h hn) (hle m (mem_of_least? h))]

theorem least?_congr (h : ∀ n, n ∈ ns' ↔ n ∈ ns) : least? ns' = least? ns := by
  ext n
  simp only [least?_eq_some_iff, h]

end Least

/-! ## Taking nodes -/

/-- Whether all that a node reads has been taken. -/
def isReady (reads : Nat → List Nat) (pending : List Nat) (n : Nat) : Bool :=
  (openReads reads pending n).isEmpty

theorem isReady_iff : isReady reads pending n = true ↔ (openReads reads pending n).length = 0 := by
  rw [isReady, List.isEmpty_iff_length_eq_zero]

/-- The next node to take. -/
def nextReady? (reads : Nat → List Nat) (pending : List Nat) : Option Nat :=
  least? (pending.filter (isReady reads pending))

/-- The next node is one of those that are left. -/
theorem mem_of_nextReady? (h : nextReady? reads pending = some n) : n ∈ pending :=
  (List.mem_filter.mp (mem_of_least? h)).1

theorem isReady_of_nextReady? (h : nextReady? reads pending = some n) :
    isReady reads pending n = true :=
  (List.mem_filter.mp (mem_of_least? h)).2

/-- Takes nodes while one is ready: the nodes taken, in order, and those that are left. -/
def take (reads : Nat → List Nat) (pending : List Nat) : List Nat × List Nat :=
  match _h : nextReady? reads pending with
  | none => ([], pending)
  | some n =>
    let (taken, left) := take reads (pending.erase n)
    (n :: taken, left)
termination_by pending.length
decreasing_by
  have hmem := mem_of_nextReady? _h
  have hlen := List.length_erase_of_mem hmem
  have hpos := List.length_pos_of_mem hmem
  omega

theorem take_of_none (h : nextReady? reads pending = none) :
    take reads pending = ([], pending) := by
  rw [take]
  split
  · rfl
  next n hn => simp [h] at hn

theorem take_of_some (h : nextReady? reads pending = some n) :
    take reads pending =
      (n :: (take reads (pending.erase n)).1, (take reads (pending.erase n)).2) := by
  rw [take]
  split
  next hnone => simp [h] at hnone
  next k hk =>
    rw [h, Option.some.injEq] at hk
    rw [hk]

/-- Every node is either taken or left. -/
theorem take_perm (reads : Nat → List Nat) (pending : List Nat) :
    ((take reads pending).1 ++ (take reads pending).2).Perm pending := by
  fun_induction take reads pending with
  | case1 pending hnone => rw [List.nil_append]
  | case2 pending n hn taken left htake ih =>
      rw [htake] at ih
      rw [List.cons_append]
      exact (ih.cons n).trans (List.perm_cons_erase (mem_of_nextReady? hn)).symm

/-- A node that is taken comes after all other nodes that it reads. -/
theorem mem_before_of_take {before after : List Nat}
    (h : (take reads pending).1 = before ++ n :: after) (hread : k ∈ reads n) (hne : k ≠ n)
    (hk : k ∈ pending) : k ∈ before := by
  fun_induction take reads pending generalizing before with
  | case1 pending hnone => simp at h
  | case2 pending first hfirst taken left htake ih =>
      rw [htake] at ih
      rcases List.cons_eq_append_iff.mp h with ⟨rfl, hhead⟩ | ⟨before', rfl, hrest⟩
      · -- The node is the first one, and all that it reads would be taken already.
        obtain ⟨rfl, _⟩ := List.cons.inj hhead
        have hready := isReady_of_nextReady? hfirst
        rw [isReady, openReads, List.isEmpty_iff, List.filter_eq_nil_iff] at hready
        exact absurd (by simpa using ⟨hne, hk⟩) (hready k hread)
      · by_cases hfirst' : k = first
        · rw [hfirst']
          exact List.mem_cons_self
        · have hleft := (List.mem_erase_of_ne hfirst').mpr hk
          exact List.mem_cons_of_mem first (ih hrest hleft)

/-- None of the nodes that are left is ready. -/
theorem nextReady?_left (reads : Nat → List Nat) (pending : List Nat) :
    nextReady? reads (take reads pending).2 = none := by
  fun_induction take reads pending with
  | case1 pending hnone => exact hnone
  | case2 pending first hfirst taken left htake ih =>
      rwa [htake] at ih

/-! ## The order in which nodes are given -/

section Perm

variable {ns ns' stuck stuck' unseen unseen' path : List Nat}

theorem openReads_of_perm (h : ns'.Perm ns) : openReads reads ns' = openReads reads ns := by
  funext n
  simp only [openReads, h.contains_eq]

theorem isReady_of_perm (h : ns'.Perm ns) : isReady reads ns' = isReady reads ns := by
  funext n
  rw [isReady, isReady, openReads_of_perm h]

theorem nextReady?_of_perm (h : ns'.Perm ns) : nextReady? reads ns' = nextReady? reads ns := by
  rw [nextReady?, nextReady?, isReady_of_perm h]
  exact least?_congr fun n => (h.filter _).mem_iff

/-- The same nodes are taken, and the same are left. -/
theorem take_of_perm (h : ns'.Perm ns) :
    (take reads ns').1 = (take reads ns).1 ∧ (take reads ns').2.Perm (take reads ns).2 := by
  fun_induction take reads ns generalizing ns' with
  | case1 ns hnone =>
      rw [take_of_none ((nextReady?_of_perm h).trans hnone)]
      exact ⟨rfl, h⟩
  | case2 ns first hfirst taken left htake ih =>
      rw [htake] at ih
      rw [take_of_some ((nextReady?_of_perm h).trans hfirst)]
      obtain ⟨htaken, hleft⟩ := ih (h.erase first)
      exact ⟨by rw [htaken], hleft⟩

theorem walk_of_perm (hstuck : stuck'.Perm stuck) (hunseen : unseen'.Perm unseen) :
    walk reads stuck' unseen' path n = walk reads stuck unseen path n := by
  fun_induction walk reads stuck unseen path n generalizing unseen' with
  | case1 unseen path n hnone => rw [walk, openReads_of_perm hstuck, hnone]
  | case2 unseen path n k hnext hback =>
      rw [walk, openReads_of_perm hstuck]
      simp only [hnext, hback, if_true]
  | case3 unseen path n k hnext hback hk ih =>
      rw [walk, openReads_of_perm hstuck]
      simp only [hnext, if_neg hback, dif_pos (hunseen.mem_iff.mpr hk)]
      exact ih (hunseen.erase k)
  | case4 unseen path n k hnext hback hk =>
      rw [walk, openReads_of_perm hstuck]
      simp only [hnext, if_neg hback, dif_neg (mt hunseen.mem_iff.mp hk)]

theorem cycle_of_perm (h : stuck'.Perm stuck) : cycle reads stuck' = cycle reads stuck := by
  rw [cycle, cycle, least?_congr fun n => h.mem_iff]
  split
  · rfl
  next n hn => exact walk_of_perm h (h.erase n)

end Perm

end Dependency
end LiftedPomdp
