import LiftedPomdp.Proofs.Ground.Lowering

/-!
# The fluents that an expression names

A compilation that succeeds has looked at every part of the expression, those
in branches that may never be taken included.  Each fluent that a part names
exists and may be read at the site, and the observations among them, and nothing
else, are noted, in ascending order.
-/

namespace LiftedPomdp

open Effects

/-- A number of a fluent is that of an observation. -/
def Scope.IsObservation (s : Scope) (fluent : Nat) : Prop :=
  ∃ b, s.blocks[fluent]? = some b ∧ b.kind = .observation

namespace Compiler

/-- Where a part of an expression names a fluent, it may be read, and it is
noted if it is an observation. -/
def Admits (c : Compiler) (reads : List Nat) : Expr → Prop
  | .fluent name _ next => ∃ fluent b layer, c.scope.fluent? name = some fluent ∧
      c.scope.blocks[fluent]? = some b ∧ ReadAt c.site fluent b.kind next layer ∧
        (b.kind = .observation → fluent ∈ reads)
  | _ => True

/-- A part of an expression names a fluent, which is an observation. -/
def Observes (c : Compiler) (fluent : Nat) : Expr → Prop
  | .fluent name _ _ => c.scope.fluent? name = some fluent ∧ c.scope.IsObservation fluent
  | _ => False

/-- The observations that have been noted grow by those that some parts name,
which are admitted. -/
structure Noted (c : Compiler) (reads reads' : List Nat) (parts : List Expr) : Prop where
  grows : reads ⊆ reads'
  admits : ∀ p ∈ parts, c.Admits reads' p
  only : ∀ k ∈ reads', k ∈ reads ∨ ∃ p ∈ parts, c.Observes k p
  ascends : reads.Pairwise (· < ·) → reads'.Pairwise (· < ·)

variable {c : Compiler} {bound : List Binding} {f f' : Footprint}

theorem Admits.mono {reads reads' : List Nat} (hle : reads ⊆ reads') {p : Expr}
    (h : c.Admits reads p) : c.Admits reads' p := by
  cases p with
  | fluent name args next =>
      obtain ⟨fluent, b, layer, hfluent, hb, hread, hnoted⟩ := h
      exact ⟨fluent, b, layer, hfluent, hb, hread, fun hkind => hle (hnoted hkind)⟩
  | _ => trivial

namespace Noted

variable {reads reads' reads'' : List Nat} {ps qs : List Expr} {p : Expr}

theorem nil (hreads : reads = reads') : c.Noted reads reads' [] := by
  subst hreads
  exact ⟨fun _ hk => hk, nofun, fun _ hk => .inl hk, id⟩

theorem cons (hp : c.Admits reads' p) (h : c.Noted reads reads' ps) :
    c.Noted reads reads' (p :: ps) where
  grows := h.grows
  admits := List.forall_mem_cons.mpr ⟨hp, h.admits⟩
  only := fun k hk => (h.only k hk).imp_right fun ⟨q, hq, hobserves⟩ =>
    ⟨q, List.mem_cons_of_mem p hq, hobserves⟩
  ascends := h.ascends

theorem append (h : c.Noted reads reads' ps) (h' : c.Noted reads' reads'' qs) :
    c.Noted reads reads'' (ps ++ qs) where
  grows := fun _ hk => h'.grows (h.grows hk)
  admits := by
    rw [List.forall_mem_append]
    exact ⟨fun p hp => (h.admits p hp).mono h'.grows, h'.admits⟩
  only := by
    intro k hk
    rcases h'.only k hk with hk | ⟨q, hq, hobserves⟩
    · exact (h.only k hk).imp_right fun ⟨p, hp, hobserves⟩ =>
        ⟨p, List.mem_append_left qs hp, hobserves⟩
    · exact .inr ⟨q, List.mem_append_right ps hq, hobserves⟩
  ascends := fun hreads => h'.ascends (h.ascends hreads)

theorem mem_iff (h : c.Noted reads reads' ps) {k : Nat} :
    k ∈ reads' ↔ k ∈ reads ∨ ∃ p ∈ ps, c.Observes k p := by
  constructor
  · exact h.only k
  · rintro (hk | ⟨p, hp, hobserves⟩)
    · exact h.grows hk
    · have hadmits := h.admits p hp
      cases p with
      | fluent name terms next =>
          obtain ⟨hfluent, b, hb, hkind⟩ := hobserves
          obtain ⟨fluent, b', _, hfluent', hb', _, hnoted⟩ := hadmits
          obtain rfl := Option.some.inj (hfluent.symm.trans hfluent')
          obtain rfl := Option.some.inj (hb.symm.trans hb')
          exact hnoted hkind
      | _ => exact hobserves.elim

end Noted

/-! ## Reads -/

theorem mem_insert {k n : Nat} {ns : List Nat} :
    k ∈ Footprint.insert n ns ↔ k = n ∨ k ∈ ns := by
  induction ns with
  | nil => simp [Footprint.insert]
  | cons m ms ih =>
      unfold Footprint.insert
      split
      · rw [List.mem_cons]
      · split
        next heq =>
          rw [heq, List.mem_cons]
          simp
        · rw [List.mem_cons, ih, List.mem_cons]
          exact or_left_comm

theorem pairwise_insert {n : Nat} {ns : List Nat} (h : ns.Pairwise (· < ·)) :
    (Footprint.insert n ns).Pairwise (· < ·) := by
  induction ns with
  | nil => exact List.pairwise_singleton _ _
  | cons m ms ih =>
      obtain ⟨hfirst, hrest⟩ := List.pairwise_cons.mp h
      unfold Footprint.insert
      split
      next hlt =>
        refine List.pairwise_cons.mpr ⟨List.forall_mem_cons.mpr ⟨hlt, fun k hk => ?_⟩, h⟩
        exact Nat.lt_trans hlt (hfirst k hk)
      · split
        · exact h
        · refine List.pairwise_cons.mpr ⟨fun k hk => ?_, ih hrest⟩
          rcases mem_insert.mp hk with rfl | hk
          · omega
          · exact hfirst k hk

theorem checkRead_reads {fluent : Nat} {b : FluentBlock} {next : Bool} {layer : Layer}
    (h : (c.checkRead fluent b next).run f = .ok (layer, f')) :
    f'.reads = if b.kind = .observation then Footprint.insert fluent f.reads else f.reads := by
  have hkept : ∀ {kind layer'}, b.kind = kind → kind ≠ .observation →
      (pure layer' : Compilation Layer).run f = .ok (layer, f') →
        f'.reads = if b.kind = .observation then Footprint.insert fluent f.reads else f.reads := by
    rintro _ layer' rfl hne hpure
    rw [if_neg hne, (run_pure_eq_ok_iff.mp hpure).2]
  unfold checkRead at h
  split at h
  · exact (run_throw_ne_ok.mp h).elim
  next hkind => exact hkept hkind nofun h
  · exact (run_throw_ne_ok.mp h).elim
  next hkind => exact hkept hkind nofun h
  next hkind => exact hkept hkind nofun h
  next hkind _ => exact hkept hkind nofun h
  · exact (run_throw_ne_ok.mp h).elim
  · exact (run_throw_ne_ok.mp h).elim
  · exact (run_throw_ne_ok.mp h).elim
  next hkind hsite =>
    split at h
    · exact (run_throw_ne_ok.mp h).elim
    next hne =>
      rw [run_bind_eq_ok_iff] at h
      obtain ⟨_, f₁, hmodify, h⟩ := h
      obtain ⟨_, rfl⟩ := run_pure_eq_ok_iff.mp h
      cases hmodify
      rw [if_pos hkind]
      rfl
  · exact (run_throw_ne_ok.mp h).elim

theorem read_reads {name : String} {terms : List Term} {next : Bool} {n : Node}
    (h : (c.read bound name terms next).run f = .ok (n, f')) :
    c.Noted f.reads f'.reads [.fluent name terms next] := by
  unfold read at h
  split at h
  · exact (run_throw_ne_ok.mp h).elim
  next fluent hfluent =>
    split at h
    · exact (run_throw_ne_ok.mp h).elim
    next b hb =>
      split at h
      · exact (run_throw_ne_ok.mp h).elim
      next harity =>
        simp only [run_bind_eq_ok_iff, run_pure_eq_ok_iff] at h
        obtain ⟨layer, f₁, hlayer, args, f₂, hargs, rfl, rfl⟩ := h
        obtain ⟨_, rfl⟩ := arguments_spec (not_not.mp harity) hargs
        have hread := (checkRead_spec hlayer).1
        have hreads := checkRead_reads hlayer
        by_cases hkind : b.kind = .observation
        · rw [if_pos hkind] at hreads
          rw [hreads]
          exact {
            grows := fun k hk => mem_insert.mpr (.inr hk)
            admits := List.forall_mem_singleton.mpr
              ⟨fluent, b, layer, hfluent, hb, hread, fun _ => mem_insert.mpr (.inl rfl)⟩
            only := by
              intro k hk
              rcases mem_insert.mp hk with rfl | hk
              · exact .inr ⟨_, List.mem_singleton_self _, hfluent, b, hb, hkind⟩
              · exact .inl hk
            ascends := pairwise_insert }
        · rw [if_neg hkind] at hreads
          refine (Noted.nil hreads.symm).cons ⟨fluent, b, layer, hfluent, hb, hread, ?_⟩
          exact fun hobservation => absurd hobservation hkind

theorem bind_reads {vars : List TypedVar} {found : List Binder × List Binding}
    (h : (c.bind bound vars).run f = .ok (found, f')) : f.reads = f'.reads := by
  induction vars generalizing bound found f with
  | nil =>
      simp only [bind, run_pure_eq_ok_iff] at h
      rw [h.2]
  | cons v vs ih =>
      simp only [bind] at h
      split at h
      · exact (run_throw_ne_ok.mp h).elim
      · simp only [run_bind_eq_ok_iff, run_pure_eq_ok_iff] at h
        obtain ⟨_, f₁, hmodify, rest, f₂, hrest, rfl, rfl⟩ := h
        cases hmodify
        have hreads := ih hrest
        exact hreads

theorem compareObjects_reads {op : CompareOp} {l r : Term} {n : Node}
    (h : (c.compareObjects bound op l r).run f = .ok (n, f')) : f = f' := by
  have hrefs : ∀ negate, (do
      let lhs ← c.objectRef bound l
      let rhs ← c.objectRef bound r
      return Node.sameObject lhs rhs negate).run f = .ok (n, f') → f = f' := by
    intro negate hrun
    simp only [run_bind_eq_ok_iff, run_pure_eq_ok_iff] at hrun
    obtain ⟨lhs, f₁, hlhs, rhs, f₂, hrhs, rfl, rfl⟩ := hrun
    obtain ⟨_, rfl⟩ := objectRef_spec hlhs
    obtain ⟨_, rfl⟩ := objectRef_spec hrhs
    rfl
  cases op with
  | eq => exact hrefs false h
  | neq => exact hrefs true h
  | lt => exact (run_throw_ne_ok.mp h).elim
  | le => exact (run_throw_ne_ok.mp h).elim
  | gt => exact (run_throw_ne_ok.mp h).elim
  | ge => exact (run_throw_ne_ok.mp h).elim

/-! ## Compilation -/

mutual

/-- A compilation that succeeds admits all parts of the expression. -/
theorem lower_reads {c : Compiler} {bound : List Binding} {f f' : Footprint} {n : Node}
    (e : Expr) (h : (c.lower bound e).run f = .ok (n, f')) :
    c.Noted f.reads f'.reads e.parts := by
  cases e with
  | const v =>
      rw [lower, run_pure_eq_ok_iff] at h
      exact (Noted.nil (congrArg Footprint.reads h.2)).cons trivial
  | fluent name terms next =>
      rw [lower] at h
      exact read_reads h
  | term t => exact (run_throw_ne_ok.mp h).elim
  | not a =>
      simp only [lower, run_bind_eq_ok_iff, run_pure_eq_ok_iff] at h
      obtain ⟨na, f₁, ha, rfl, rfl⟩ := h
      exact (lower_reads a ha).cons trivial
  | and as =>
      simp only [lower, run_bind_eq_ok_iff, run_pure_eq_ok_iff] at h
      obtain ⟨ns, f₁, has, rfl, rfl⟩ := h
      exact (lowerAll_reads as has).cons trivial
  | or as =>
      simp only [lower, run_bind_eq_ok_iff, run_pure_eq_ok_iff] at h
      obtain ⟨ns, f₁, has, rfl, rfl⟩ := h
      exact (lowerAll_reads as has).cons trivial
  | implies l r =>
      simp only [lower, run_bind_eq_ok_iff, run_pure_eq_ok_iff] at h
      obtain ⟨nl, f₁, hl, nr, f₂, hr, rfl, rfl⟩ := h
      exact ((lower_reads l hl).append (lower_reads r hr)).cons trivial
  | equiv l r =>
      simp only [lower, run_bind_eq_ok_iff, run_pure_eq_ok_iff] at h
      obtain ⟨nl, f₁, hl, nr, f₂, hr, rfl, rfl⟩ := h
      exact ((lower_reads l hl).append (lower_reads r hr)).cons trivial
  | compare op l r =>
      rw [lower] at h
      split at h
      next t u hpair =>
        -- The two terms name no fluent.
        obtain ⟨rfl, rfl⟩ := termPair?_eq_some hpair
        have hnone := Noted.nil (c := c) (congrArg Footprint.reads (compareObjects_reads h))
        have hright := hnone.cons (p := .term u) trivial
        have hterms := hright.cons (p := .term t) trivial
        exact hterms.cons trivial
      · simp only [run_bind_eq_ok_iff, run_pure_eq_ok_iff] at h
        obtain ⟨nl, f₁, hl, nr, f₂, hr, rfl, rfl⟩ := h
        exact ((lower_reads l hl).append (lower_reads r hr)).cons trivial
  | arith op l r =>
      simp only [lower, run_bind_eq_ok_iff, run_pure_eq_ok_iff] at h
      obtain ⟨nl, f₁, hl, nr, f₂, hr, rfl, rfl⟩ := h
      exact ((lower_reads l hl).append (lower_reads r hr)).cons trivial
  | neg a =>
      simp only [lower, run_bind_eq_ok_iff, run_pure_eq_ok_iff] at h
      obtain ⟨na, f₁, ha, rfl, rfl⟩ := h
      exact (lower_reads a ha).cons trivial
  | ite cond t e =>
      simp only [lower, run_bind_eq_ok_iff, run_pure_eq_ok_iff] at h
      obtain ⟨nc, f₁, hc, nt, f₂, ht, ne, f₃, he, rfl, rfl⟩ := h
      exact (((lower_reads cond hc).append (lower_reads t ht)).append (lower_reads e he)).cons
        trivial
  | aggregate op vars body =>
      rw [lower] at h
      split at h
      · exact (run_throw_ne_ok.mp h).elim
      · simp only [run_bind_eq_ok_iff, run_pure_eq_ok_iff] at h
        obtain ⟨⟨binders, bound'⟩, f₁, hbind, nb, f₂, hbody, rfl, rfl⟩ := h
        have hbinders := Noted.nil (c := c) (bind_reads hbind)
        exact (hbinders.append (lower_reads body hbody)).cons trivial
  | kronDelta a =>
      simp only [lower, run_bind_eq_ok_iff, run_pure_eq_ok_iff] at h
      obtain ⟨na, f₁, ha, rfl, rfl⟩ := h
      exact (lower_reads a ha).cons trivial
  | diracDelta a =>
      simp only [lower, run_bind_eq_ok_iff, run_pure_eq_ok_iff] at h
      obtain ⟨na, f₁, ha, rfl, rfl⟩ := h
      exact (lower_reads a ha).cons trivial
  | bernoulli p =>
      simp only [lower, run_bind_eq_ok_iff, run_pure_eq_ok_iff] at h
      obtain ⟨np, f₁, hp, rfl, rfl⟩ := h
      exact (lower_reads p hp).cons trivial
  | uniform l u =>
      simp only [lower, run_bind_eq_ok_iff, run_pure_eq_ok_iff] at h
      obtain ⟨nl, f₁, hl, nu, f₂, hu, rfl, rfl⟩ := h
      exact ((lower_reads l hl).append (lower_reads u hu)).cons trivial

theorem lowerAll_reads {c : Compiler} {bound : List Binding} {f f' : Footprint}
    {ns : List Node} (es : List Expr) (h : (c.lowerAll bound es).run f = .ok (ns, f')) :
    c.Noted f.reads f'.reads (Expr.partsOfAll es) := by
  cases es with
  | nil =>
      rw [lowerAll, run_pure_eq_ok_iff] at h
      exact Noted.nil (congrArg Footprint.reads h.2)
  | cons e es =>
      simp only [lowerAll, run_bind_eq_ok_iff, run_pure_eq_ok_iff] at h
      obtain ⟨n, f₁, he, rest, f₂, hes, rfl, rfl⟩ := h
      exact (lower_reads e he).append (lowerAll_reads es hes)

end

/-- A compilation notes the observations that the parts of the expression name. -/
theorem compile_noted {params : List Binding} {e : Expr} {body : Compiled} {reads : List Nat}
    (h : c.compile params e = .ok (body, reads)) : c.Noted [] reads e.parts := by
  unfold compile at h
  split at h
  · cases h
  next node f hrun =>
    cases h
    exact lower_reads e hrun

end Compiler
end LiftedPomdp
