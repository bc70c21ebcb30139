import Mathlib.Data.List.Forall2

/-!
# Computations that succeed

When a computation that may fail succeeds, so did each of its parts.  The
lemmas of this module take a successful computation apart, whether it is a
sequence, a loop over a list, or a computation that also changes a state.

Two computations match when they succeed with related values or fail with the
same error; what they are made of may then be compared part by part.
-/

namespace LiftedPomdp
namespace Effects

variable {ε σ α β : Type}

theorem bind_eq_ok_iff {x : Except ε α} {f : α → Except ε β} {b : β} :
    x >>= f = .ok b ↔ ∃ a, x = .ok a ∧ f a = .ok b := by
  cases x with
  | error e => simp [bind, Except.bind]
  | ok a => simp [bind, Except.bind]

theorem seq_eq_ok_iff {x : Except ε Unit} {f : Unit → Except ε β} {b : β} :
    x >>= f = .ok b ↔ x = .ok () ∧ f () = .ok b := by
  rw [bind_eq_ok_iff]
  constructor
  · rintro ⟨⟨⟩, hx, hf⟩
    exact ⟨hx, hf⟩
  · rintro ⟨hx, hf⟩
    exact ⟨(), hx, hf⟩

@[simp]
theorem pure_eq_ok_iff {a b : α} : (pure a : Except ε α) = .ok b ↔ a = b := by
  simp [pure, Except.pure]

theorem forM_eq_ok_iff {f : α → Except ε Unit} {xs : List α} :
    xs.forM f = .ok () ↔ ∀ x ∈ xs, f x = .ok () := by
  induction xs with
  | nil => simp [List.forM]
  | cons x xs ih =>
      change f x >>= (fun _ => xs.forM f) = .ok () ↔ _
      rw [seq_eq_ok_iff, List.forall_mem_cons, ih]

/-- A sequence fails as its first part does, or as its second part does after it. -/
theorem bind_eq_error_iff {x : Except ε α} {f : α → Except ε β} {e : ε} :
    x >>= f = .error e ↔ x = .error e ∨ ∃ a, x = .ok a ∧ f a = .error e := by
  cases x with
  | error e => simp [bind, Except.bind]
  | ok a => simp [bind, Except.bind]

/-- Rewording errors makes no difference to success. -/
theorem mapError_eq_ok_iff {ε' : Type} {f : ε → ε'} {x : Except ε α} {a : α} :
    x.mapError f = .ok a ↔ x = .ok a := by
  cases x with
  | error e => exact ⟨nofun, nofun⟩
  | ok b => simp [Except.mapError]

theorem mapError_eq_error_iff {ε' : Type} {f : ε → ε'} {x : Except ε α} {e : ε'} :
    x.mapError f = .error e ↔ ∃ e', x = .error e' ∧ f e' = e := by
  cases x with
  | error e => simp [Except.mapError]
  | ok b => simp [Except.mapError]

/-- A loop that fails does so at one of its items. -/
theorem exists_of_forM_eq_error {f : α → Except ε Unit} {xs : List α} {e : ε}
    (h : xs.forM f = .error e) : ∃ x ∈ xs, f x = .error e := by
  induction xs with
  | nil => cases h
  | cons x xs ih =>
      change f x >>= (fun _ => xs.forM f) = .error e at h
      rcases bind_eq_error_iff.mp h with hfirst | ⟨_, _, hrest⟩
      · exact ⟨x, List.mem_cons_self, hfirst⟩
      · obtain ⟨y, hy, hfails⟩ := ih hrest
        exact ⟨y, List.mem_cons_of_mem x hy, hfails⟩

theorem mapM_eq_ok_iff {f : α → Except ε β} {xs : List α} {ys : List β} :
    xs.mapM f = .ok ys ↔ List.Forall₂ (fun x y => f x = .ok y) xs ys := by
  induction xs generalizing ys with
  | nil =>
      rw [List.mapM_nil, pure_eq_ok_iff, List.forall₂_nil_left_iff]
      exact eq_comm
  | cons x xs ih =>
      simp only [List.mapM_cons, bind_eq_ok_iff, List.forall₂_cons_left_iff,
        pure_eq_ok_iff, ih]
      constructor
      · rintro ⟨y, hy, zs, hzs, rfl⟩
        exact ⟨y, zs, hy, hzs, rfl⟩
      · rintro ⟨y, zs, hy, hzs, rfl⟩
        exact ⟨y, hy, zs, hzs, rfl⟩

theorem exists_of_mem_of_forall₂ {R : α → β → Prop} {xs : List α} {ys : List β}
    (h : List.Forall₂ R xs ys) {x : α} (hx : x ∈ xs) : ∃ y ∈ ys, R x y := by
  induction h with
  | nil => cases hx
  | @cons z y xs ys hzy _ ih =>
      rcases List.mem_cons.mp hx with rfl | hmem
      · exact ⟨y, List.mem_cons_self, hzy⟩
      · obtain ⟨w, hw, hxw⟩ := ih hmem
        exact ⟨w, List.mem_cons_of_mem y hw, hxw⟩

/-- What every round of a loop preserves holds at its end. -/
theorem foldlM_preserves {f : β → α → Except ε β} {P : β → Prop}
    (hstep : ∀ b a b', f b a = .ok b' → P b → P b') {xs : List α} {b b' : β}
    (h : xs.foldlM f b = .ok b') (hb : P b) : P b' := by
  induction xs generalizing b with
  | nil =>
      rw [List.foldlM_nil, pure_eq_ok_iff] at h
      exact h ▸ hb
  | cons x xs ih =>
      rw [List.foldlM_cons, bind_eq_ok_iff] at h
      obtain ⟨c, hc, hrest⟩ := h
      exact ih hrest (hstep _ _ _ hc hb)

/-- A loop over rounds of which any two can be exchanged ends alike in any
order. -/
theorem foldlM_eq_ok_of_perm {f : β → α → Except ε β} {R : α → α → Prop}
    (hsymm : ∀ {x y}, R x y → R y x)
    (hswap : ∀ {x y b b'}, R x y → (f b x >>= fun c => f c y) = .ok b' →
      (f b y >>= fun c => f c x) = .ok b')
    {xs ys : List α} (hperm : xs.Perm ys) (hxs : xs.Pairwise R) {b b' : β}
    (h : xs.foldlM f b = .ok b') : ys.foldlM f b = .ok b' := by
  induction hperm generalizing b with
  | nil => exact h
  | cons x _ ih =>
      rw [List.foldlM_cons, bind_eq_ok_iff] at h ⊢
      obtain ⟨c, hc, hrest⟩ := h
      exact ⟨c, hc, ih hxs.of_cons hrest⟩
  | swap x y xs =>
      have hyx : R y x := List.rel_of_pairwise_cons hxs List.mem_cons_self
      simp only [List.foldlM_cons, ← bind_assoc] at h ⊢
      obtain ⟨c, hc, hrest⟩ := bind_eq_ok_iff.mp h
      exact bind_eq_ok_iff.mpr ⟨c, hswap hyx hc, hrest⟩
  | trans hfirst _ ih ih' => exact ih' (hfirst.pairwise hxs hsymm) (ih hxs h)

theorem run_bind_eq_ok_iff {x : StateT σ (Except ε) α} {f : α → StateT σ (Except ε) β}
    {s t : σ} {b : β} :
    (x >>= f).run s = .ok (b, t) ↔
      ∃ a s', x.run s = .ok (a, s') ∧ (f a).run s' = .ok (b, t) := by
  rw [StateT.run_bind, bind_eq_ok_iff]
  constructor
  · rintro ⟨⟨a, s'⟩, hx, hf⟩
    exact ⟨a, s', hx, hf⟩
  · rintro ⟨a, s', hx, hf⟩
    exact ⟨⟨a, s'⟩, hx, hf⟩

@[simp]
theorem run_pure_eq_ok_iff {a b : α} {s t : σ} :
    (pure a : StateT σ (Except ε) α).run s = .ok (b, t) ↔ a = b ∧ s = t := by
  simp [StateT.run_pure]

@[simp]
theorem run_throw_ne_ok {e : ε} {b : α} {s t : σ} :
    (throw e : StateT σ (Except ε) α).run s = .ok (b, t) ↔ False := by
  constructor
  · intro h
    cases h
  · exact False.elim

/-! ## Two computations side by side -/

theorem forM_congr_of_forall₂ {m : Type → Type} [Monad m] {R : α → β → Prop}
    {f : α → m Unit} {g : β → m Unit} {xs : List α} {ys : List β}
    (h : List.Forall₂ R xs ys) (hfg : ∀ x y, R x y → g y = f x) : ys.forM g = xs.forM f := by
  induction h with
  | nil => rfl
  | @cons x y xs ys hxy _ ih =>
      change (g y >>= fun _ => ys.forM g) = f x >>= fun _ => xs.forM f
      rw [hfg x y hxy, ih]

/-- Two computations succeed with related values, or both fail with one
error. -/
inductive Matching (R : α → β → Prop) : Except ε α → Except ε β → Prop
  | ok {a : α} {b : β} (h : R a b) : Matching R (.ok a) (.ok b)
  | error (e : ε) : Matching R (.error e) (.error e)

namespace Matching

variable {γ δ : Type} {R : α → β → Prop} {S : γ → δ → Prop}

theorem self {R : α → α → Prop} (h : ∀ a, R a a) (x : Except ε α) : Matching R x x := by
  cases x with
  | error e => exact .error e
  | ok a => exact .ok (h a)

theorem mono {T : α → β → Prop} {x : Except ε α} {y : Except ε β} (h : Matching R x y)
    (hRT : ∀ a b, R a b → T a b) : Matching T x y := by
  cases h with
  | ok hab => exact .ok (hRT _ _ hab)
  | error e => exact .error e

theorem exists_ok {x : Except ε α} {y : Except ε β} (h : Matching R x y) {a : α}
    (hx : x = .ok a) : ∃ b, y = .ok b ∧ R a b := by
  cases h with
  | ok hab =>
      cases hx
      exact ⟨_, rfl, hab⟩
  | error e => cases hx

theorem bind {x : Except ε α} {y : Except ε β} {f : α → Except ε γ} {g : β → Except ε δ}
    (hxy : Matching R x y) (hfg : ∀ a b, R a b → Matching S (f a) (g b)) :
    Matching S (x >>= f) (y >>= g) := by
  cases hxy with
  | ok hab => exact hfg _ _ hab
  | error e => exact .error e

/-- The same computation goes on in two ways. -/
theorem bind_same {f : α → Except ε γ} {g : α → Except ε δ} (x : Except ε α)
    (hfg : ∀ a, Matching S (f a) (g a)) : Matching S (x >>= f) (x >>= g) := by
  cases x with
  | error e => exact .error e
  | ok a => exact hfg a

theorem mapM {f : α → Except ε γ} {g : β → Except ε δ} {xs : List α} {ys : List β}
    (h : List.Forall₂ (fun x y => Matching S (f x) (g y)) xs ys) :
    Matching (List.Forall₂ S) (xs.mapM f) (ys.mapM g) := by
  induction h with
  | nil => exact .ok .nil
  | cons hhead _ ih =>
      rw [List.mapM_cons, List.mapM_cons]
      exact hhead.bind fun _ _ hfirst => ih.bind fun _ _ hrest => .ok (.cons hfirst hrest)

end Matching

/-- From every state, two computations succeed with related values and leave
the same state behind, or both fail with one error. -/
def MatchingRuns (R : α → β → Prop) (x : StateT σ (Except ε) α) (y : StateT σ (Except ε) β) :
    Prop :=
  ∀ s, Matching (fun a b => R a.1 b.1 ∧ a.2 = b.2) (x.run s) (y.run s)

namespace MatchingRuns

variable {γ δ : Type} {R : α → β → Prop} {S : γ → δ → Prop}

theorem self {R : α → α → Prop} (h : ∀ a, R a a) (x : StateT σ (Except ε) α) :
    MatchingRuns R x x :=
  fun s => .self (fun a => ⟨h a.1, rfl⟩) (x.run s)

theorem value {a : α} {b : β} (h : R a b) :
    MatchingRuns R (pure a : StateT σ (Except ε) α) (pure b) :=
  fun _ => .ok ⟨h, rfl⟩

theorem bind {x : StateT σ (Except ε) α} {y : StateT σ (Except ε) β}
    {f : α → StateT σ (Except ε) γ} {g : β → StateT σ (Except ε) δ}
    (hxy : MatchingRuns R x y) (hfg : ∀ a b, R a b → MatchingRuns S (f a) (g b)) :
    MatchingRuns S (x >>= f) (y >>= g) := by
  intro s
  rw [StateT.run_bind, StateT.run_bind]
  apply (hxy s).bind
  rintro ⟨a, s'⟩ ⟨b, _⟩ ⟨hab, rfl⟩
  exact hfg a b hab s'

theorem map_right {g : β → δ} {T : α → δ → Prop} {x : StateT σ (Except ε) α}
    {y : StateT σ (Except ε) β} (hxy : MatchingRuns R x y) (h : ∀ a b, R a b → T a (g b)) :
    MatchingRuns T x (g <$> y) := by
  have hbind := hxy.bind fun a b hab => value (σ := σ) (ε := ε) (h a b hab)
  rw [bind_pure] at hbind
  rw [map_eq_pure_bind]
  exact hbind

/-- One computation whose value is used in two ways. -/
theorem map_same {f : α → γ} {g : α → δ} (x : StateT σ (Except ε) α)
    (hfg : ∀ a, S (f a) (g a)) : MatchingRuns S (f <$> x) (g <$> x) := by
  rw [map_eq_pure_bind, map_eq_pure_bind]
  refine (self (R := Eq) (fun _ => rfl) x).bind ?_
  rintro a _ rfl
  exact value (hfg a)

end MatchingRuns

/-! ## Computations that cannot fail -/

/-- A computation succeeds from every state, with a value that has a property. -/
def Succeeds (x : StateT σ (Except ε) α) (P : α → Prop) : Prop :=
  ∀ s, ∃ a t, x.run s = .ok (a, t) ∧ P a

namespace Succeeds

variable {P : α → Prop} {Q : β → Prop}

theorem value {a : α} (ha : P a) : Succeeds (pure a : StateT σ (Except ε) α) P := by
  intro s
  exact ⟨a, s, rfl, ha⟩

theorem bind {x : StateT σ (Except ε) α} {f : α → StateT σ (Except ε) β} (hx : Succeeds x P)
    (hf : ∀ a, P a → Succeeds (f a) Q) : Succeeds (x >>= f) Q := by
  intro s
  obtain ⟨a, t, hrun, ha⟩ := hx s
  obtain ⟨b, u, hrest, hb⟩ := hf a ha t
  exact ⟨b, u, run_bind_eq_ok_iff.mpr ⟨a, t, hrun, hrest⟩, hb⟩

theorem modify (f : σ → σ) :
    Succeeds (modify f : StateT σ (Except ε) PUnit) fun _ => True := by
  intro s
  exact ⟨⟨⟩, f s, rfl, trivial⟩

end Succeeds

end Effects
end LiftedPomdp
