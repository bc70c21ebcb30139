import LiftedPomdp.Proofs.Ground.Dependency
import Mathlib.Data.List.Chain

/-!
# Cycles among the nodes that are left

Where no node is ready, each of the nodes that are left reads another one of
them.  A walk along reads therefore never comes to an end, and as there are only
so many nodes, it comes back to one on its path.  What it has passed since then,
without the way that led there, is the cycle that is reported.
-/

namespace LiftedPomdp
namespace Dependency

variable {reads : Nat → List Nat} {nodes stuck path circuit : List Nat} {n k : Nat}

/-! ## Reads among nodes -/

/-- One of the given nodes reads another one. -/
def Edge (reads : Nat → List Nat) (nodes : List Nat) (n k : Nat) : Prop :=
  n ∈ nodes ∧ k ∈ nodes ∧ k ≠ n ∧ k ∈ reads n

theorem Edge.mono {nodes' : List Nat} (hsubset : nodes ⊆ nodes') (h : Edge reads nodes n k) :
    Edge reads nodes' n k :=
  ⟨hsubset h.1, hsubset h.2.1, h.2.2⟩

theorem mem_openReads_iff : k ∈ openReads reads nodes n ↔ k ∈ reads n ∧ k ≠ n ∧ k ∈ nodes := by
  simp [openReads]

theorem edge_iff : Edge reads nodes n k ↔ n ∈ nodes ∧ k ∈ openReads reads nodes n := by
  rw [Edge, mem_openReads_iff]
  tauto

/-- Each of some nodes reads another one of them. -/
def Stuck (reads : Nat → List Nat) (nodes : List Nat) : Prop :=
  ∀ n ∈ nodes, ∃ k, Edge reads nodes n k

theorem stuck_of_nextReady? (h : nextReady? reads nodes = none) : Stuck reads nodes := by
  intro n hn
  rw [nextReady?, least?_eq_none_iff, List.filter_eq_nil_iff] at h
  have hopen : openReads reads nodes n ≠ [] := by
    have hready := h n hn
    rwa [isReady, List.isEmpty_iff] at hready
  obtain ⟨k, hk⟩ := List.exists_mem_of_ne_nil _ hopen
  exact ⟨k, edge_iff.mpr ⟨hn, hk⟩⟩

theorem remainder_subset (nodes taken : List Nat) : remainder nodes taken ⊆ nodes :=
  List.filter_subset_self _

/-- Each of the nodes that are not taken reads another one of them. -/
theorem stuck_remainder (reads : Nat → List Nat) (hnodup : nodes.Nodup) :
    Stuck reads (remainder nodes (emitted reads nodes)) := by
  intro n hn
  have hperm := remainder_perm reads hnodup
  have hstuck := stuck_of_nextReady? (nextReady?_left reads nodes)
  obtain ⟨k, hedge⟩ := hstuck n (hperm.mem_iff.mp hn)
  exact ⟨k, hedge.mono hperm.symm.subset⟩

/-! ## Cycles -/

/-- A list of nodes of which each reads the next one, and which ends where it
begins, without passing any node twice on its way. -/
structure IsCycle (reads : Nat → List Nat) (nodes circuit : List Nat) : Prop where
  long : 3 ≤ circuit.length
  closed : circuit.head? = circuit.getLast?
  once : circuit.dropLast.Nodup
  chain : circuit.IsChain (Edge reads nodes)

theorem IsCycle.mono {nodes' : List Nat} (hsubset : nodes ⊆ nodes')
    (h : IsCycle reads nodes circuit) : IsCycle reads nodes' circuit where
  long := h.long
  closed := h.closed
  once := h.once
  chain := h.chain.imp fun _ _ => Edge.mono hsubset

theorem IsCycle.exists_transGen (h : IsCycle reads nodes circuit) :
    ∃ n, Relation.TransGen (Edge reads nodes) n n := by
  obtain ⟨hlong, hclosed, -, hchain⟩ := h
  match circuit with
  | [] => simp at hlong
  | [n] => simp at hlong
  | n :: k :: rest =>
      rw [List.isChain_cons_cons] at hchain
      have hlast : (k :: rest).getLast (List.cons_ne_nil k rest) = n := by
        rw [List.head?_cons, List.getLast?_cons_cons,
          List.getLast?_eq_some_getLast (List.cons_ne_nil k rest), Option.some.injEq] at hclosed
        exact hclosed.symm
      have hback := List.relationReflTransGen_of_exists_isChain_cons rest hchain.2 hlast
      exact ⟨n, .head' hchain.1 hback⟩

theorem IsCycle.subset (h : IsCycle reads nodes circuit) : circuit ⊆ nodes := by
  intro n hn
  obtain ⟨before, after, rfl⟩ := List.append_of_mem hn
  cases after with
  | cons k after =>
      exact (List.isChain_append_cons_cons.mp h.chain).2.1.1
  | nil =>
      -- The last node is read by the one before it.
      have hbefore : before ≠ [] := by
        rintro rfl
        have hlong := h.long
        simp at hlong
      obtain ⟨rest, k, rfl⟩ := (List.eq_nil_or_concat before).resolve_left hbefore
      have hchain := h.chain
      rw [List.concat_eq_append, List.append_assoc, List.singleton_append,
        List.isChain_append_cons_cons] at hchain
      exact hchain.2.1.2.1

/-! ## The walk -/

/-- A walk along reads that goes on from each node to the least one that it
reads, until that is one on its path: what the path holds from there on, closed
with the same node, is the cycle.  There is no other way for the walk to end. -/
inductive Closes (reads : Nat → List Nat) (stuck : List Nat) :
    List Nat → Nat → List Nat → Prop
  | back {path before since : List Nat} {n k : Nat}
      (hnext : least? (openReads reads stuck n) = some k)
      (hpath : n :: path = since ++ k :: before) (hsince : k ∉ since) :
      Closes reads stuck path n (k :: since.reverse ++ [k])
  | on {path circuit : List Nat} {n k : Nat}
      (hnext : least? (openReads reads stuck n) = some k) (hnew : k ∉ n :: path)
      (hrest : Closes reads stuck (n :: path) k circuit) : Closes reads stuck path n circuit

theorem edge_of_least? (hn : n ∈ stuck) (h : least? (openReads reads stuck n) = some k) :
    Edge reads stuck n k :=
  edge_iff.mpr ⟨hn, mem_of_least? h⟩

/-- Among nodes that are stuck, the walk neither stops short of a cycle nor runs
out of nodes that it has not seen. -/
theorem closes_walk {unseen : List Nat} (hstuck : Stuck reads stuck) (hn : n ∈ stuck)
    (hseen : ∀ k ∈ stuck, k ∈ n :: path ∨ k ∈ unseen) :
    Closes reads stuck path n (walk reads stuck unseen path n) := by
  fun_induction walk reads stuck unseen path n with
  | case1 unseen path n hnone =>
      obtain ⟨k, hedge⟩ := hstuck n hn
      rw [least?_eq_none_iff] at hnone
      rw [edge_iff, hnone] at hedge
      cases hedge.2
  | case2 unseen path n k hnext hback =>
      rw [List.contains_iff_mem] at hback
      obtain ⟨since, before, hpath, hsince⟩ := List.eq_append_cons_of_mem hback
      have htakeWhile : (n :: path).takeWhile (· != k) = since := by
        rw [hpath, List.takeWhile_append_of_pos, List.takeWhile_cons_of_neg (by simp),
          List.append_nil]
        intro m hm
        rw [bne_iff_ne]
        exact ne_of_mem_of_not_mem hm hsince
      rw [htakeWhile, List.cons_append, List.reverse_cons, List.reverse_append,
        List.reverse_singleton]
      exact .back hnext hpath hsince
  | case3 unseen path n k hnext hback hunseen ih =>
      rw [Bool.not_eq_true, ← Bool.not_eq_true, List.contains_iff_mem] at hback
      refine .on hnext hback (ih (edge_of_least? hn hnext).2.1 fun m hm => ?_)
      by_cases hmk : m = k
      · exact .inl (hmk ▸ List.mem_cons_self)
      · exact (hseen m hm).imp (List.mem_cons_of_mem k) (List.mem_erase_of_ne hmk).mpr
  | case4 unseen path n k hnext hback hunseen =>
      rw [Bool.not_eq_true, ← Bool.not_eq_true, List.contains_iff_mem] at hback
      exact absurd (hseen k (edge_of_least? hn hnext).2.1) (not_or_intro hback hunseen)

/-- What a walk closes is a cycle: the way that led to it is cut off. -/
theorem Closes.isCycle (h : Closes reads stuck path n circuit) (hn : n ∈ stuck)
    (honce : (n :: path).Nodup) (hchain : (n :: path).reverse.IsChain (Edge reads stuck)) :
    IsCycle reads stuck circuit := by
  induction h with
  | @back path before since n k hnext hpath hsince =>
      have hedge := edge_of_least? hn hnext
      obtain ⟨rest, rfl⟩ : ∃ rest, since = n :: rest := by
        cases since with
        | nil =>
            rw [List.nil_append, List.cons.injEq] at hpath
            exact absurd hpath.1.symm hedge.2.2.1
        | cons m rest =>
            rw [List.cons_append, List.cons.injEq] at hpath
            exact ⟨rest, by rw [hpath.1]⟩
      rw [hpath] at honce hchain
      rw [List.reverse_append, List.reverse_cons, List.append_assoc, List.singleton_append]
        at hchain
      refine ⟨by simp, by rw [List.getLast?_concat]; rfl, ?_, ?_⟩
      · rw [List.dropLast_concat, List.nodup_cons, List.mem_reverse, List.nodup_reverse]
        exact ⟨hsince, honce.of_append_left⟩
      · rw [List.isChain_append]
        refine ⟨hchain.right_of_append, List.isChain_singleton k, ?_⟩
        intro m hm m' hm'
        rw [List.reverse_cons, ← List.cons_append, List.getLast?_concat, Option.mem_some] at hm
        rw [List.head?_cons, Option.mem_some] at hm'
        subst hm hm'
        exact hedge
  | @on path circuit n k hnext hnew _ ih =>
      have hedge := edge_of_least? hn hnext
      refine ih hedge.2.1 (List.nodup_cons.mpr ⟨hnew, honce⟩) ?_
      rw [List.reverse_cons, List.isChain_append]
      refine ⟨hchain, List.isChain_singleton k, ?_⟩
      intro m hm m' hm'
      rw [List.reverse_cons, List.getLast?_concat, Option.mem_some] at hm
      rw [List.head?_cons, Option.mem_some] at hm'
      subst hm hm'
      exact hedge

/-- The walk from the least of some nodes that are stuck closes a cycle. -/
theorem closes_cycle (hstuck : Stuck reads stuck) (hne : stuck ≠ []) :
    ∃ n, least? stuck = some n ∧ Closes reads stuck [] n (cycle reads stuck) ∧
      IsCycle reads stuck (cycle reads stuck) := by
  obtain ⟨n, hleast⟩ : ∃ n, least? stuck = some n :=
    Option.ne_none_iff_exists'.mp fun hnone => hne (least?_eq_none_iff.mp hnone)
  have hn := mem_of_least? hleast
  have hcloses : Closes reads stuck [] n (cycle reads stuck) := by
    rw [cycle, hleast]
    refine closes_walk hstuck hn fun k hk => ?_
    by_cases hkn : k = n
    · exact .inl (hkn ▸ List.mem_cons_self)
    · exact .inr ((List.mem_erase_of_ne hkn).mpr hk)
  exact ⟨n, hleast, hcloses,
    hcloses.isCycle hn (List.nodup_singleton n) (List.isChain_singleton n)⟩

/-! ## The order -/

theorem order_eq_error (hnodup : nodes.Nodup) (h : order reads nodes = .error circuit) :
    remainder nodes (emitted reads nodes) ≠ [] ∧
      cycle reads (remainder nodes (emitted reads nodes)) = circuit := by
  have hperm := remainder_perm reads hnodup
  rw [order_eq_take reads hnodup, ← cycle_of_perm hperm] at h
  split at h
  · cases h
  next hleft =>
    rw [← hperm.isEmpty_eq] at hleft
    exact ⟨fun hnil => hleft (by rw [hnil]; rfl), Except.error.inj h⟩

theorem isCycle_of_order_error (hnodup : nodes.Nodup) (h : order reads nodes = .error circuit) :
    IsCycle reads nodes circuit := by
  obtain ⟨hne, rfl⟩ := order_eq_error hnodup h
  obtain ⟨n, -, -, hcycle⟩ := closes_cycle (stuck_remainder reads hnodup) hne
  exact hcycle.mono (remainder_subset nodes _)

/-- Where distinct nodes have no dependency order, what is reported is a cycle of
them: at least three entries, the last of which is the first one again while all
others differ, and each of which reads the next one, another node.  The walk that
finds it begins at the least node that has not been taken, always finds a node to
go on to, and ends by coming back to one of its path. -/
theorem order_error_cycle (hnodup : nodes.Nodup) (h : order reads nodes = .error circuit) :
    IsCycle reads nodes circuit ∧ circuit ⊆ nodes ∧
      ∃ start, least? (remainder nodes (emitted reads nodes)) = some start ∧
        Closes reads (remainder nodes (emitted reads nodes)) [] start circuit := by
  have hcycle := isCycle_of_order_error hnodup h
  obtain ⟨hne, rfl⟩ := order_eq_error hnodup h
  obtain ⟨start, hleast, hcloses, -⟩ := closes_cycle (stuck_remainder reads hnodup) hne
  exact ⟨hcycle, hcycle.subset, start, hleast, hcloses⟩

/-- The first of three nodes only leads to the cycle of the other two. -/
theorem order_error_cycle_after_lead :
    let reads := fun n => if n = 1 then [2] else if n = 2 then [3] else [2, 3]
    [1, 2, 3].Nodup ∧ order reads [1, 2, 3] = .error [2, 3, 2] ∧
      IsCycle reads [1, 2, 3] [2, 3, 2] := by
  intro reads
  have hnodup : [1, 2, 3].Nodup := by decide
  have hemitted : emitted reads [1, 2, 3] = [] := by
    rw [emitted_eq_emittedUpTo]
    decide +kernel
  have horder : order reads [1, 2, 3] = .error [2, 3, 2] := by
    rw [order, hemitted]
    cbv
  exact ⟨hnodup, horder, (order_error_cycle hnodup horder).1⟩

end Dependency
end LiftedPomdp
