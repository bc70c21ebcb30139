import LiftedPomdp.Proofs.Ground.Cycle
import Mathlib.Data.List.Lex

/-!
# The first of all dependency orders

An arrangement of some nodes puts each of them after all that it reads.  Its first
node reads none of the others, so it is ready, and the rest arranges the nodes
without it.  Taking the least node that is ready, again and again, therefore gives
the arrangement that comes first in the order of lists, and since this says nothing
of the order in which the nodes were given, that order is of no account.  Nodes have
an arrangement unless reads lead from one of them back to itself.
-/

namespace LiftedPomdp
namespace Dependency

open Relation

variable {reads : Nat → List Nat} {nodes pending taken : List Nat} {n k : Nat}

/-! ## Arrangements -/

/-- The given nodes in an order in which each of them comes after all that it
reads. -/
structure Arranges (reads : Nat → List Nat) (nodes taken : List Nat) : Prop where
  perm : taken.Perm nodes
  after : ∀ {before rest : List Nat} {n k : Nat}, taken = before ++ n :: rest →
    Edge reads nodes n k → k ∈ before

theorem arranges_of_order (hnodup : nodes.Nodup) (h : order reads nodes = .ok taken) :
    Arranges reads nodes taken where
  perm := order_perm hnodup h
  after := by
    rintro before rest n k rfl ⟨_, hk, hne, hread⟩
    exact mem_before_of_order hnodup h hread hne hk

namespace Arranges

/-- The first node is ready. -/
theorem isReady (h : Arranges reads nodes (n :: taken)) : isReady reads nodes n = true := by
  rw [Dependency.isReady, List.isEmpty_iff, List.eq_nil_iff_forall_not_mem]
  intro k hk
  have hn : n ∈ nodes := h.perm.mem_iff.mp List.mem_cons_self
  have hbefore := h.after (List.nil_append _).symm (edge_iff.mpr ⟨hn, hk⟩)
  cases hbefore

/-- The rest arranges the other nodes. -/
theorem tail (hnodup : nodes.Nodup) (h : Arranges reads nodes (n :: taken)) :
    Arranges reads (nodes.erase n) taken where
  perm := (List.perm_cons_erase (h.perm.mem_iff.mp List.mem_cons_self)).symm.trans
    h.perm.symm |>.symm.cons_inv
  after := by
    rintro before rest m k rfl hedge
    have hother : k ≠ n := fun heq => hnodup.not_mem_erase (heq ▸ hedge.2.1)
    have hbefore := h.after (List.cons_append ..).symm (hedge.mono List.erase_subset)
    exact (List.mem_cons.mp hbefore).resolve_left hother

/-- What a node reads, directly or through others, stands before it. -/
theorem idxOf_lt (h : Arranges reads nodes taken) (hread : TransGen (Edge reads nodes) n k) :
    taken.idxOf k < taken.idxOf n := by
  have hedge : ∀ {n k}, Edge reads nodes n k → taken.idxOf k < taken.idxOf n := by
    intro n k hedge
    obtain ⟨before, rest, htaken, hn⟩ :=
      List.eq_append_cons_of_mem (h.perm.mem_iff.mpr hedge.1)
    have hk := h.after htaken hedge
    rw [htaken, List.idxOf_append_of_mem hk, List.idxOf_append_of_notMem hn,
      List.idxOf_cons_self, Nat.add_zero]
    exact List.idxOf_lt_length_iff.mpr hk
  induction hread with
  | single hlast => exact hedge hlast
  | tail _ hlast ih => exact (hedge hlast).trans ih

/-- Nodes with an arrangement read each other in no circle. -/
theorem not_transGen (h : Arranges reads nodes taken) (n : Nat) :
    ¬TransGen (Edge reads nodes) n n :=
  fun hread => Nat.lt_irrefl _ (h.idxOf_lt hread)

end Arranges

/-! ## The least arrangement -/

/-- Every arrangement begins with a node that is ready, which is not less than the
least of these. -/
theorem take_le (hnodup : pending.Nodup) (h : Arranges reads pending taken) :
    (take reads pending).1 ≤ taken := by
  fun_induction take reads pending generalizing taken with
  | case1 pending hnone =>
      rcases taken with _ | ⟨n, taken⟩
      · exact le_refl _
      · exact le_of_lt (List.nil_lt_cons n taken)
  | case2 pending first hfirst rest left htake ih =>
      rw [htake] at ih
      cases taken with
      | nil =>
          rw [h.perm.nil_eq.symm] at hfirst
          cases hfirst
      | cons n taken =>
          have hn : n ∈ pending := h.perm.mem_iff.mp List.mem_cons_self
          have hle : first ≤ n := least?_le hfirst (List.mem_filter.mpr ⟨hn, h.isReady⟩)
          rcases hle.lt_or_eq with hlt | rfl
          · exact le_of_lt (List.cons_lt_cons_iff.mpr (.inl hlt))
          · exact List.cons_le_cons first (ih (hnodup.erase first) (h.tail hnodup))

/-- The order in which distinct nodes are given changes nothing. -/
theorem order_of_perm {nodes' : List Nat} (hnodup : nodes.Nodup) (h : nodes'.Perm nodes) :
    order reads nodes' = order reads nodes := by
  obtain ⟨htaken, hleft⟩ : (take reads nodes').1 = (take reads nodes).1 ∧
      (take reads nodes').2.Perm (take reads nodes).2 := take_of_perm h
  rw [order_eq_take reads (h.nodup_iff.mpr hnodup), order_eq_take reads hnodup, htaken,
    cycle_of_perm hleft, hleft.isEmpty_eq]

/-! ## Dependency orders -/

/-- Distinct nodes have a dependency order exactly when reads among them lead from
none of them back to itself.  It is an arrangement of the nodes, the first of all
arrangements in the order of lists, and the same one in whatever order the nodes
are given. -/
theorem order_canonical (reads : Nat → List Nat) {nodes : List Nat} (hnodup : nodes.Nodup) :
    ((∃ taken, order reads nodes = .ok taken) ↔ ∀ n, ¬TransGen (Edge reads nodes) n n) ∧
      (∀ taken, order reads nodes = .ok taken → Arranges reads nodes taken ∧
        ∀ other, Arranges reads nodes other → taken ≤ other) ∧
      ∀ nodes', nodes'.Perm nodes → order reads nodes' = order reads nodes := by
  refine ⟨⟨?_, ?_⟩, ?_, fun nodes' hperm => order_of_perm hnodup hperm⟩
  · rintro ⟨taken, htaken⟩ n
    exact (arranges_of_order hnodup htaken).not_transGen n
  · intro hacyclic
    cases horder : order reads nodes with
    | ok taken => exact ⟨taken, rfl⟩
    | error circuit =>
        obtain ⟨n, hread⟩ := (isCycle_of_order_error hnodup horder).exists_transGen
        exact absurd hread (hacyclic n)
  · intro taken htaken
    refine ⟨arranges_of_order hnodup htaken, fun other hother => ?_⟩
    have hle := take_le hnodup hother
    rwa [take_of_order hnodup htaken] at hle

/-- The first node reads the last one and comes after it, and so does the second,
which reads the first. -/
theorem order_canonical_chain :
    let reads := fun n => if n = 1 then [1, 3] else if n = 2 then [1, 7] else []
    [2, 3, 1].Nodup ∧ order reads [1, 2, 3] = .ok [3, 1, 2] ∧
      ∀ other, Arranges reads [2, 3, 1] other → [3, 1, 2] ≤ other := by
  intro reads
  have hnodup : [2, 3, 1].Nodup := by decide
  have horder : order reads [1, 2, 3] = .ok [3, 1, 2] :=
    order_eq_ok [3, 1, 2] (by decide +kernel) rfl
  obtain ⟨_, hleast, hgiven⟩ := order_canonical reads hnodup
  exact ⟨hnodup, horder, (hleast _ ((hgiven [1, 2, 3] (by decide)).symm.trans horder)).2⟩

end Dependency
end LiftedPomdp
