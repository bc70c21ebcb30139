import LiftedPomdp.Proofs.Ground.Ready
import Mathlib.Data.List.Nodup

/-!
# What the dependency order keeps

The worklist never looks at what a node reads.  It counts the reads of each node
that are among the nodes that are left, and it knows which nodes these counts leave
ready (`Worklist.Tracks`).  Taking a node keeps this up, so the worklist takes the
nodes that are taken without counting.  A dependency order is therefore a
rearrangement of the nodes that it orders, in which a node comes after all that it
reads.
-/

namespace LiftedPomdp
namespace Dependency

variable {reads : Nat → List Nat} {nodes left : List Nat} {n k : Nat}

namespace Worklist

/-! ## Counting down -/

theorem lookup_countDown (counts : List (Nat × Nat)) (n k : Nat) :
    (countDown n counts).lookup k = (counts.lookup k).map fun c => if k = n then c - 1 else c := by
  unfold countDown
  induction counts with
  | nil => rfl
  | cons e es ih =>
      obtain ⟨m, c⟩ := e
      rw [List.map_cons, List.lookup_cons]
      by_cases hm : m = n
      · subst hm
        simp only [beq_self_eq_true, if_true]
        rw [List.lookup_cons]
        cases hk : k == m with
        | true => simp [beq_iff_eq.mp hk]
        | false => rw [ih]
      · have hm' : (m == n) = false := by simpa using hm
        simp only [hm', Bool.false_eq_true, if_false]
        rw [List.lookup_cons]
        cases hk : k == m with
        | true => simp [beq_iff_eq.mp hk, hm]
        | false => rw [ih]

/-- One read of one node is counted down. -/
theorem lookup_settle (w : Worklist) (n k : Nat) :
    (w.settle n).counts.lookup k = (w.counts.lookup k).map fun c => if k = n then c - 1 else c := by
  unfold settle
  split
  · exact lookup_countDown w.counts n k
  next hnone =>
    cases hk : w.counts.lookup k with
    | none => rfl
    | some c =>
        by_cases hkn : k = n
        · cases c with
          | zero => simp
          | succ c => exact absurd (hkn ▸ hk) (hnone c)
        · simp [hkn]

/-- A node becomes ready with its last read. -/
theorem mem_ready_settle {w : Worklist} :
    k ∈ (w.settle n).ready ↔ k ∈ w.ready ∨ k = n ∧ w.counts.lookup n = some 1 := by
  unfold settle
  split
  next c hc =>
    cases c with
    | zero => simp [hc, or_comm]
    | succ c => simp [hc]
  next hnone =>
    have hne : w.counts.lookup n ≠ some 1 := hnone 0
    simp [hne]

theorem lookup_foldl_settle (w : Worklist) (ns : List Nat) (k : Nat) :
    (ns.foldl settle w).counts.lookup k = (w.counts.lookup k).map (· - ns.count k) := by
  induction ns generalizing w with
  | nil =>
      rw [List.foldl_nil, List.count_nil]
      simp
  | cons n ns ih =>
      rw [List.foldl_cons, ih, lookup_settle, Option.map_map]
      congr 1
      funext c
      by_cases hkn : k = n
      · rw [Function.comp_apply, if_pos hkn, hkn, List.count_cons_self]
        omega
      · rw [Function.comp_apply, if_neg hkn, List.count_cons_of_ne (Ne.symm hkn)]

/-- The nodes all of whose counted reads are among those that are taken become
ready. -/
theorem mem_ready_foldl_settle {w : Worklist} {ns : List Nat} :
    k ∈ (ns.foldl settle w).ready ↔
      k ∈ w.ready ∨ ∃ c, w.counts.lookup k = some c ∧ 0 < c ∧ c ≤ ns.count k := by
  induction ns generalizing w with
  | nil =>
      rw [List.foldl_nil, List.count_nil]
      refine ⟨.inl, fun h => h.resolve_right ?_⟩
      rintro ⟨c, -, hpos, hle⟩
      omega
  | cons n ns ih =>
      rw [List.foldl_cons, ih, mem_ready_settle, lookup_settle, or_assoc]
      refine or_congr_right ?_
      by_cases hkn : k = n
      · subst hkn
        rw [List.count_cons_self]
        cases hk : w.counts.lookup k with
        | none => simp
        | some c =>
            simp only [true_and, if_true, Option.map_some, Option.some.injEq, exists_eq_left']
            omega
      · rw [List.count_cons_of_ne (Ne.symm hkn)]
        simp [hkn]

/-! ## Reads -/

theorem lookup_map (f : Nat → Nat) (hn : n ∈ nodes) :
    (nodes.map fun m => (m, f m)).lookup n = some (f n) := by
  induction nodes with
  | nil => cases hn
  | cons m ms ih =>
      rw [List.map_cons, List.lookup_cons]
      cases hnm : n == m with
      | true => rw [beq_iff_eq.mp hnm]
      | false =>
          have hne : n ≠ m := by simpa using hnm
          exact ih ((List.mem_cons.mp hn).resolve_left hne)

theorem readersOf_append (rs rs' : List (Nat × Nat)) (n : Nat) :
    readersOf (rs ++ rs') n = readersOf rs n ++ readersOf rs' n := by
  simp [readersOf]

theorem count_readersOf_map (ds : List Nat) (m n k : Nat) :
    (readersOf (ds.map fun d => (d, m)) n).count k = if k = m then ds.count n else 0 := by
  induction ds with
  | nil => simp [readersOf]
  | cons d ds ih =>
      rw [List.map_cons, ← List.singleton_append, readersOf_append, List.count_append, ih]
      by_cases hd : d = n
      · subst hd
        by_cases hk : k = m
        · simp [readersOf, hk, Nat.add_comm]
        · simp [readersOf, hk, Ne.symm hk]
      · simp [readersOf, hd]

/-- A node is among the readers of another one as often as it reads it. -/
theorem count_readersOf (hnodup : nodes.Nodup) (hk : k ∈ nodes) (n : Nat) :
    (readersOf (readings reads nodes) n).count k = (openReads reads nodes k).count n := by
  have hcount : ∀ ms : List Nat,
      (readersOf (ms.flatMap fun m => (openReads reads nodes m).map fun d => (d, m)) n).count k =
        ms.count k * (openReads reads nodes k).count n := by
    intro ms
    induction ms with
    | nil => simp [readersOf]
    | cons m ms ih =>
        rw [List.flatMap_cons, readersOf_append, List.count_append, ih, count_readersOf_map]
        by_cases hkm : k = m
        · rw [if_pos hkm, hkm, List.count_cons_self, Nat.succ_mul, Nat.add_comm]
        · rw [if_neg hkm, List.count_cons_of_ne (Ne.symm hkm), Nat.zero_add]
  rw [readings, hcount, List.nodup_iff_count_eq_one.mp hnodup k hk, Nat.one_mul]

theorem mem_of_mem_readersOf (h : k ∈ readersOf (readings reads nodes) n) : k ∈ nodes := by
  simp only [readersOf, readings, List.mem_map, List.mem_filter, List.mem_flatMap] at h
  obtain ⟨-, ⟨⟨m, hm, d, -, rfl⟩, -⟩, rfl⟩ := h
  exact hm

/-- What a node that is left reads is counted no more when that is taken. -/
theorem length_openReads_erase (reads : Nat → List Nat) (hleft : left.Nodup) (n k : Nat) :
    (openReads reads (left.erase n) k).length =
      (openReads reads left k).length - (openReads reads left k).count n := by
  have hopen : openReads reads (left.erase n) k =
      (openReads reads left k).filter fun d => !(d == n) := by
    rw [openReads, openReads, List.filter_filter]
    refine List.filter_congr fun d _ => ?_
    rw [Bool.eq_iff_iff]
    simp only [Bool.and_eq_true, bne_iff_ne, List.contains_iff_mem, hleft.mem_erase_iff,
      Bool.not_eq_true', beq_eq_false_iff_ne]
    tauto
  have hlength := List.length_eq_length_filter_add (l := openReads reads left k) (· == n)
  have hcount : (openReads reads left k).count n =
      ((openReads reads left k).filter (· == n)).length := List.countP_eq_length_filter
  rw [hopen, hcount]
  omega

theorem count_openReads (hnodes : n ∈ nodes) (hn : n ∈ left) (k : Nat) :
    (openReads reads nodes k).count n = (openReads reads left k).count n := by
  by_cases hnk : n = k
  · subst hnk
    rw [List.count_eq_zero_of_not_mem (by simp [openReads]),
      List.count_eq_zero_of_not_mem (by simp [openReads])]
  · rw [openReads, openReads, List.count_filter (by simp [hnk, hnodes]),
      List.count_filter (by simp [hnk, hn])]

/-! ## What the worklist knows -/

/-- A worklist knows for every node how many reads of nodes that are left it has,
and which of the nodes that are left have none.  Nodes that are not left any more
have none either. -/
structure Tracks (reads : Nat → List Nat) (nodes left : List Nat) (w : Worklist) : Prop where
  nodup : left.Nodup
  subset : left ⊆ nodes
  counts : ∀ n ∈ nodes, w.counts.lookup n = some (openReads reads left n).length
  ready : ∀ n, n ∈ w.ready ↔ n ∈ left ∧ isReady reads left n = true
  taken : ∀ n ∈ nodes, n ∉ left → isReady reads left n = true

theorem tracks_start (reads : Nat → List Nat) (hnodup : nodes.Nodup) :
    Tracks reads nodes nodes (start reads nodes) where
  nodup := hnodup
  subset := List.Subset.refl nodes
  counts n hn := lookup_map (fun n => (openReads reads nodes n).length) hn
  ready n := by
    simp [start, isReady]
  taken n hn hleft := absurd hn hleft

namespace Tracks

variable {w : Worklist} (h : Tracks reads nodes left w)
include h

theorem least?_ready : least? w.ready = nextReady? reads left :=
  least?_congr fun n => by rw [h.ready, List.mem_filter]

section Pop

variable (hnodup : nodes.Nodup) (hn : n ∈ w.ready)
include hn

theorem no_openReads (hk : k ∈ nodes) (hgone : k = n ∨ k ∉ left) :
    (openReads reads left k).length = 0 := by
  rcases hgone with rfl | hgone
  · exact isReady_iff.mp ((h.ready k).mp hn).2
  · exact isReady_iff.mp (h.taken k hk hgone)

include hnodup

theorem count_readers (hk : k ∈ nodes) :
    (readersOf (readings reads nodes) n).count k = (openReads reads left k).count n := by
  have hmem := ((h.ready n).mp hn).1
  rw [count_readersOf hnodup hk, count_openReads (h.subset hmem) hmem]

theorem mem_ready_pop : k ∈ (w.pop (readings reads nodes) n).ready ↔
    k ∈ left.erase n ∧ isReady reads (left.erase n) k = true := by
  rw [Worklist.pop, mem_ready_foldl_settle, List.mem_filter, h.ready, h.nodup.mem_erase_iff]
  by_cases hk : k ∈ nodes
  · simp only [h.counts k hk, h.count_readers hnodup hn hk, Option.some.injEq, exists_eq_left',
      isReady_iff, length_openReads_erase reads h.nodup n, bne_iff_ne]
    by_cases hgone : k = n ∨ k ∉ left
    · rw [h.no_openReads hn hk hgone]
      rcases hgone with hkn | hkleft
      · simp [hkn]
      · simp [hkleft]
    · rw [not_or, not_not] at hgone
      simp only [hgone, true_and, and_true, ne_eq, not_false_eq_true]
      omega
  · have hreaders : (readersOf (readings reads nodes) n).count k = 0 :=
      List.count_eq_zero_of_not_mem (mt mem_of_mem_readersOf hk)
    have hkleft : k ∉ left := fun hmem => hk (h.subset hmem)
    simp [hreaders, hkleft]

/-- Taking a node that is ready keeps this up. -/
theorem pop : Tracks reads nodes (left.erase n) (w.pop (readings reads nodes) n) where
  nodup := h.nodup.erase n
  subset _ hk := h.subset (List.mem_of_mem_erase hk)
  counts k hk := by
    rw [Worklist.pop, lookup_foldl_settle, h.counts k hk, h.count_readers hnodup hn hk,
      length_openReads_erase reads h.nodup]
    rfl
  ready k := h.mem_ready_pop hnodup hn
  taken k hk hnot := by
    have hgone : k = n ∨ k ∉ left := by
      by_contra hkept
      rw [not_or, not_not] at hkept
      exact hnot (h.nodup.mem_erase_iff.mpr hkept)
    rw [isReady_iff, length_openReads_erase reads h.nodup, h.no_openReads hn hk hgone,
      Nat.zero_sub]

end Pop

end Tracks

/-! ## Runs of the worklist -/

section Run

variable {rs : List (Nat × Nat)} {w : Worklist}

theorem run_of_none (h : least? w.ready = none) : w.run rs = [] := by
  rw [run]
  split
  · rfl
  next n hn => simp [h] at hn

theorem run_of_some (h : least? w.ready = some n) : w.run rs = n :: (w.pop rs n).run rs := by
  rw [run]
  split
  next hnone => simp [h] at hnone
  next k hk =>
    rw [h, Option.some.injEq] at hk
    rw [hk]

/-- A worklist that knows what is left takes the nodes that are taken without
counting. -/
theorem Tracks.run_eq (h : Tracks reads nodes left w) (hnodup : nodes.Nodup) :
    w.run (readings reads nodes) = (take reads left).1 := by
  fun_induction take reads left generalizing w with
  | case1 left hnone => exact run_of_none (h.least?_ready.trans hnone)
  | case2 left n hn taken rest htake ih =>
      have hready := h.least?_ready.trans hn
      rw [run_of_some hready, ih (h.pop hnodup (mem_of_least? hready)), htake]

/-- Takes nodes while one is ready, up to a number of them. -/
def runUpTo (rs : List (Nat × Nat)) : Nat → Worklist → List Nat
  | 0, _ => []
  | fuel + 1, w =>
    match least? w.ready with
    | none => []
    | some n => n :: runUpTo rs fuel (w.pop rs n)

theorem run_eq_runUpTo {fuel : Nat} (h : w.size ≤ fuel) : w.run rs = w.runUpTo rs fuel := by
  induction fuel generalizing w with
  | zero =>
      have hready : w.ready.length = 0 := by
        rw [size] at h
        omega
      exact run_of_none (by rw [List.length_eq_zero_iff.mp hready]; rfl)
  | succ fuel ih =>
      rw [runUpTo]
      cases hnext : least? w.ready with
      | none => exact run_of_none hnext
      | some n =>
          have hlt := size_pop_lt rs (mem_of_least? hnext)
          rw [run_of_some hnext, ih (by omega)]

end Run

end Worklist

/-! ## The order -/

theorem emitted_eq_take (reads : Nat → List Nat) (hnodup : nodes.Nodup) :
    emitted reads nodes = (take reads nodes).1 :=
  (Worklist.tracks_start reads hnodup).run_eq hnodup

theorem remainder_perm (reads : Nat → List Nat) (hnodup : nodes.Nodup) :
    (remainder nodes (emitted reads nodes)).Perm (take reads nodes).2 := by
  have hperm := take_perm reads nodes
  have happend := hperm.nodup_iff.mpr hnodup
  refine (List.perm_ext_iff_of_nodup (hnodup.filter _) happend.of_append_right).mpr fun n => ?_
  have hdisjoint := List.disjoint_of_nodup_append happend
  have hmem : n ∈ nodes ↔ n ∈ (take reads nodes).1 ∨ n ∈ (take reads nodes).2 := by
    rw [← List.mem_append, hperm.mem_iff]
  simp only [emitted_eq_take reads hnodup, List.mem_filter, List.contains_eq_mem,
    Bool.not_eq_true', decide_eq_false_iff_not, hmem]
  exact ⟨fun h => h.1.resolve_left h.2, fun h => ⟨.inr h, fun htaken => hdisjoint htaken h⟩⟩

/-- The dependency order without counting. -/
theorem order_eq_take (reads : Nat → List Nat) (hnodup : nodes.Nodup) :
    order reads nodes = if (take reads nodes).2.isEmpty then .ok (take reads nodes).1
      else .error (cycle reads (take reads nodes).2) := by
  have hlength := (take_perm reads nodes).length_eq
  rw [List.length_append] at hlength
  have hall : ((emitted reads nodes).length == nodes.length) = (take reads nodes).2.isEmpty := by
    rw [emitted_eq_take reads hnodup, Bool.eq_iff_iff, beq_iff_eq, List.isEmpty_iff_length_eq_zero]
    omega
  rw [order, hall, cycle_of_perm (remainder_perm reads hnodup), emitted_eq_take reads hnodup]

theorem take_of_order {taken : List Nat} (hnodup : nodes.Nodup)
    (h : order reads nodes = .ok taken) :
    take reads nodes = (taken, []) := by
  rw [order_eq_take reads hnodup] at h
  split at h
  next hempty =>
    rw [← Except.ok.inj h, ← List.isEmpty_iff.mp hempty]
  · cases h

theorem order_perm {taken : List Nat} (hnodup : nodes.Nodup)
    (h : order reads nodes = .ok taken) : taken.Perm nodes := by
  have hperm := take_perm reads nodes
  rwa [take_of_order hnodup h, List.append_nil] at hperm

theorem mem_before_of_order {before after : List Nat} (hnodup : nodes.Nodup)
    (h : order reads nodes = .ok (before ++ n :: after)) (hread : k ∈ reads n) (hne : k ≠ n)
    (hk : k ∈ nodes) : k ∈ before :=
  mem_before_of_take (congrArg Prod.fst (take_of_order hnodup h)) hread hne hk

/-- The nodes that are taken, no more of them than the worklist can hold. -/
def emittedUpTo (reads : Nat → List Nat) (nodes : List Nat) : List Nat :=
  let w := Worklist.start reads nodes
  w.runUpTo (readings reads nodes) w.size

theorem emitted_eq_emittedUpTo : emitted = emittedUpTo := by
  funext reads nodes
  exact Worklist.run_eq_runUpTo (Nat.le_refl _)

/-- The dependency order, taking no more nodes than the worklist can hold. -/
def orderUpTo (reads : Nat → List Nat) (nodes : List Nat) : Except (List Nat) (List Nat) :=
  let taken := emittedUpTo reads nodes
  if taken.length == nodes.length then .ok taken
  else .error (cycle reads (remainder nodes taken))

theorem order_eq_orderUpTo : order = orderUpTo := by
  funext reads nodes
  rw [order, orderUpTo, emitted_eq_emittedUpTo]

theorem order_eq_ok (taken : List Nat) (h : emittedUpTo reads nodes = taken)
    (hlength : taken.length = nodes.length) : order reads nodes = .ok taken := by
  rw [order, emitted_eq_emittedUpTo, h, hlength, beq_self_eq_true, if_pos rfl]

end Dependency
end LiftedPomdp
