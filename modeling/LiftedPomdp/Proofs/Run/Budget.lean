import LiftedPomdp.Proofs.Ground.Lookup
import LiftedPomdp.Run.Action

/-!
# The budget of an action

An instance may limit how many action fluents differ from their defaults in one
step.  The table of an accepted action stays within this limit, so that under a
limit of one no two ground action fluents are taken at once.
-/

namespace LiftedPomdp

open Effects Grounding

/-- Two places of a list whose entries have a property make two of them. -/
theorem two_le_countP {α : Type} {p : α → Bool} {xs : List α} {n k : ℕ} {x y : α}
    (hlt : n < k) (hn : xs[n]? = some x) (hk : xs[k]? = some y) (hx : p x = true)
    (hy : p y = true) : 2 ≤ xs.countP p := by
  have hbefore : x ∈ xs.take k := by
    apply List.mem_of_getElem? (i := n)
    rw [List.getElem?_take_of_lt hlt, hn]
  have hafter : y ∈ xs.drop k := by
    apply List.mem_of_getElem? (i := 0)
    rw [List.getElem?_drop, Nat.add_zero, hk]
  have hfirst : 0 < (xs.take k).countP p := List.countP_pos_iff.mpr ⟨x, hbefore, hx⟩
  have hsecond : 0 < (xs.drop k).countP p := List.countP_pos_iff.mpr ⟨y, hafter, hy⟩
  rw [← List.take_append_drop k xs, List.countP_append]
  omega

theorem eq_of_countP_le_one {α : Type} {p : α → Bool} {xs : List α} (h : xs.countP p ≤ 1)
    {n k : ℕ} {x y : α} (hn : xs[n]? = some x) (hk : xs[k]? = some y) (hx : p x = true)
    (hy : p y = true) : n = k := by
  by_contra hne
  rcases Nat.lt_or_gt_of_ne hne with hlt | hlt
  · have htwo := two_le_countP hlt hn hk hx hy
    omega
  · have htwo := two_le_countP hlt hk hn hy hx
    omega

namespace Action

/-- An accepted action stays within the limit of its model. -/
theorem nonDefaults_le {m : Model} {a : Action} {table : Table} {max : UInt64}
    (hmax : m.maxNonDefaultActions = some max) (h : a.resolve m = .ok table) :
    nonDefaults m table ≤ max.toNat := by
  unfold resolve at h
  obtain ⟨table', _, h⟩ := bind_eq_ok_iff.mp h
  simp only [hmax] at h
  split at h
  · cases h
  next hle =>
    rw [pure_eq_ok_iff] at h
    subst h
    exact Nat.le_of_not_lt hle

end Action

namespace Grounded

variable {d : Domain} {i : Instance} {m : Model} {a : Action} {table : Table}

/-- The default of an action fluent is the one that its declaration gives it. -/
theorem getElem?_defaultAction (h : Grounded d i m) {name : String} {args : List String} {n : Nat}
    (hplace : m.locate? name args = some (.action, n)) {f : FluentDecl}
    (hf : d.fluent? name = some f) {v : Value} (hdefault : defaultValue f = .ok v) :
    m.defaultAction[n]? = some v := by
  obtain ⟨b, hb, j, hj, rfl, hkey⟩ :=
    h.getElem?_groundFluents_eq_some_iff.mp (h.locate?_iff_getElem?.mp hplace)
  obtain ⟨f', hf', place, hplaced⟩ := h.exists_placed (mem_blocksOf.mp hb).1
  have hname : f'.name = name := by
    rw [← hplaced.name]
    exact (congrArg GroundFluent.name hkey).symm
  have hfound := h.fluent?_eq_some hf'
  rw [hname, hf, Option.some.injEq] at hfound
  subst hfound
  rw [h.defaultAction, h.getElem?_defaultTable hb hj, Except.ok.inj
    (hplaced.default.symm.trans hdefault)]

/-- Under a limit of one, an accepted action makes at most one of the ground
fluents true that are false by default. -/
theorem eq_of_taken (h : Grounded d i m) {max : UInt64}
    (hmax : m.maxNonDefaultActions = some max) (hone : max ≤ 1) (hresolve : a.resolve m = .ok table)
    {g g' : GroundFluent} {f f' : FluentDecl} (hf : d.fluent? g.name = some f)
    (hf' : d.fluent? g'.name = some f') (hdefault : defaultValue f = .ok (.bool false))
    (hdefault' : defaultValue f' = .ok (.bool false))
    (hg : m.lookup? .action table g.name g.args = some (.bool true))
    (hg' : m.lookup? .action table g'.name g'.args = some (.bool true)) : g = g' := by
  have hentry : ∀ {g : GroundFluent} {f : FluentDecl}, d.fluent? g.name = some f →
      defaultValue f = .ok (.bool false) →
        m.lookup? .action table g.name g.args = some (.bool true) →
          ∃ n : ℕ, (m.groundFluents .action)[n]? = some g ∧
            (table.toList.zip m.defaultAction.toList)[n]? =
              some (Value.bool true, Value.bool false) := by
    intro g f hf hdefault hg
    obtain ⟨n, _, hplace⟩ := h.locate?_eq_some_of_mem (h.mem_groundFluents_of_lookup? hg)
    rw [h.lookup?_eq hplace] at hg
    refine ⟨n, h.locate?_iff_getElem?.mp hplace, ?_⟩
    rw [List.getElem?_zip_eq_some, Array.getElem?_toList, Array.getElem?_toList]
    exact ⟨hg, h.getElem?_defaultAction hplace hf hdefault⟩
  obtain ⟨n, hn, hdiffers⟩ := hentry hf hdefault hg
  obtain ⟨n', hn', hdiffers'⟩ := hentry hf' hdefault' hg'
  have hbudget : Action.nonDefaults m table ≤ 1 :=
    Nat.le_trans (Action.nonDefaults_le hmax hresolve) (UInt64.le_iff_toNat_le.mp hone)
  obtain rfl := eq_of_countP_le_one hbudget hdiffers hdiffers' rfl rfl
  exact Option.some.inj (hn.symm.trans hn')

end Grounded
end LiftedPomdp
