import Mathlib.Data.List.Forall2

/-!
# Computations in parallel

Two computations run in parallel when, from related states, they end with the
same value or the same error and leave related states behind.  The relation
may change on the way: `before` holds at the start, `after` where a value is
reached and `failed` where an error is.  The two computations need not work on
states of the same type.

A computation keeps an invariant when it leaves it true whether it fails or
not; its values may be known to have a property as well.  The errors that a
computation raises are described in the same way.
-/

namespace LiftedPomdp
namespace Effects

variable {σ τ ε α β : Type}

theorem run_bind_of_ok {x : ExceptT ε (StateM σ) α} {f : α → ExceptT ε (StateM σ) β}
    {s s' : σ} {a : α} (h : x.run s = (.ok a, s')) :
    (x >>= f).run s = (f a).run s' := by
  rw [ExceptT.run_bind]
  change StateT.bind _ _ s = _
  simp only [StateT.bind]
  rw [h]
  rfl

theorem run_bind_of_error {x : ExceptT ε (StateM σ) α} {f : α → ExceptT ε (StateM σ) β}
    {s s' : σ} {e : ε} (h : x.run s = (.error e, s')) :
    (x >>= f).run s = (.error e, s') := by
  rw [ExceptT.run_bind]
  change StateT.bind _ _ s = _
  simp only [StateT.bind]
  rw [h]
  rfl

theorem run_of_bind_eq_ok {x : ExceptT ε (StateM σ) α} {f : α → ExceptT ε (StateM σ) β}
    {s t : σ} {b : β} (h : (x >>= f).run s = (.ok b, t)) :
    ∃ a s', x.run s = (.ok a, s') ∧ (f a).run s' = (.ok b, t) := by
  rcases hx : x.run s with ⟨e | a, s'⟩
  · rw [run_bind_of_error hx] at h
    cases h
  · rw [run_bind_of_ok hx] at h
    exact ⟨a, s', rfl, h⟩

/-- Two computations in sequence run alike when their first parts do, and their
second parts from where the first ones come to. -/
theorem run_bind_congr {x y : ExceptT ε (StateM σ) α} {f g : α → ExceptT ε (StateM σ) β} {s : σ}
    (hxy : x.run s = y.run s)
    (hfg : ∀ a t, x.run s = (.ok a, t) → (f a).run t = (g a).run t) :
    (x >>= f).run s = (y >>= g).run s := by
  rcases hx : x.run s with ⟨e | a, t⟩
  · rw [run_bind_of_error hx, run_bind_of_error (hxy ▸ hx)]
  · rw [run_bind_of_ok hx, run_bind_of_ok (hxy ▸ hx), hfg a t hx]

/-- Two loops over one list run alike when their steps do, wherever the first loop
takes them. -/
theorem run_forM_congr {f g : β → ExceptT ε (StateM σ) Unit} {xs : List β} {s : σ}
    (h : ∀ before x after t, xs = before ++ x :: after → (before.forM f).run s = (.ok (), t) →
      (f x).run t = (g x).run t) : (xs.forM f).run s = (xs.forM g).run s := by
  induction xs generalizing s with
  | nil => rfl
  | cons x xs ih =>
      refine run_bind_congr (h [] x xs s rfl rfl) fun _ t hfirst => ?_
      refine ih fun before y after u hsplit hearlier => ?_
      have hbefore : ((x :: before).forM f).run s = (.ok (), u) :=
        (run_bind_of_ok hfirst).trans hearlier
      exact h (x :: before) y after u (by rw [hsplit]; rfl) hbefore

theorem run_forM_range_congr {f g : Nat → ExceptT ε (StateM σ) Unit} {n : Nat} {s : σ}
    (h : ∀ k < n, ∀ t, ((List.range k).forM f).run s = (.ok (), t) →
      (f k).run t = (g k).run t) :
    ((List.range n).forM f).run s = ((List.range n).forM g).run s := by
  refine run_forM_congr fun before k after t hsplit hearlier => ?_
  have hlt : before.length < n := by
    have hlen := congrArg List.length hsplit
    rw [List.length_range, List.length_append, List.length_cons] at hlen
    omega
  have hk : before.length = k := by
    have hentry := congrArg (·[before.length]?) hsplit
    simpa [List.getElem?_range hlt] using hentry
  have hbefore : List.range k = before := by
    have htake := congrArg (List.take before.length) hsplit
    rwa [List.take_left, List.take_range, Nat.min_eq_left (Nat.le_of_lt hlt), hk] at htake
  rw [← hbefore] at hearlier
  exact h k (hk ▸ hlt) t hearlier

theorem mapM_congr {f g : α → ExceptT ε (StateM σ) β} {xs : List α}
    (h : ∀ x ∈ xs, f x = g x) : xs.mapM f = xs.mapM g := by
  induction xs with
  | nil => rfl
  | cons x xs ih =>
      rw [List.forall_mem_cons] at h
      rw [List.mapM_cons, List.mapM_cons, h.1, ih h.2]

/-- A loop that succeeds has come to each of its values from some state. -/
theorem forall₂_of_run_mapM {f : α → ExceptT ε (StateM σ) β} {xs : List α} {ys : List β}
    {s t : σ} (h : (xs.mapM f).run s = (.ok ys, t)) :
    List.Forall₂ (fun x y => ∃ s t, (f x).run s = (.ok y, t)) xs ys := by
  induction xs generalizing ys s with
  | nil =>
      cases h
      exact .nil
  | cons x xs ih =>
      rw [List.mapM_cons] at h
      obtain ⟨y, s', hfirst, hrest⟩ := run_of_bind_eq_ok h
      obtain ⟨zs, t', htail, hlast⟩ := run_of_bind_eq_ok hrest
      cases hlast
      exact .cons ⟨s, s', hfirst⟩ (ih htail)

/-- The relation that holds at the end of two computations with result `r`. -/
def Ending (after failed : σ → τ → Prop) : Except ε α → σ → τ → Prop
  | .ok _ => after
  | .error _ => failed

/-- A relation that holds at the end whatever the result is. -/
theorem Ending.of_same {R : σ → τ → Prop} {r : Except ε α} {s : σ} {t : τ}
    (h : Ending R R r s t) : R s t := by
  cases r with
  | error e => exact h
  | ok a => exact h

/-- From states related by `before`, two computations have the same result and
leave related states behind. -/
def Parallel (before : σ → τ → Prop) (x : ExceptT ε (StateM σ) α)
    (y : ExceptT ε (StateM τ) α) (after failed : σ → τ → Prop) : Prop :=
  ∀ s t, before s t → ∃ r s' t', x.run s = (r, s') ∧ y.run t = (r, t') ∧
    Ending after failed r s' t'

namespace Parallel

variable {before after failed : σ → τ → Prop}

theorem value (a : α) (h : ∀ s t, before s t → after s t) :
    Parallel before (pure a : ExceptT ε (StateM σ) α) (pure a : ExceptT ε (StateM τ) α)
      after failed := by
  intro s t hst
  exact ⟨.ok a, s, t, rfl, rfl, h s t hst⟩

theorem error (e : ε) (h : ∀ s t, before s t → failed s t) :
    Parallel before (throw e : ExceptT ε (StateM σ) α) (throw e : ExceptT ε (StateM τ) α)
      after failed := by
  intro s t hst
  exact ⟨.error e, s, t, rfl, rfl, h s t hst⟩

theorem bind {middle : σ → τ → Prop} {x : ExceptT ε (StateM σ) α}
    {y : ExceptT ε (StateM τ) α} {f : α → ExceptT ε (StateM σ) β}
    {g : α → ExceptT ε (StateM τ) β}
    (hxy : Parallel before x y middle failed)
    (hfg : ∀ a, Parallel middle (f a) (g a) after failed) :
    Parallel before (x >>= f) (y >>= g) after failed := by
  intro s t hst
  obtain ⟨r, s', t', hx, hy, hend⟩ := hxy s t hst
  cases r with
  | error e => exact ⟨.error e, s', t', run_bind_of_error hx, run_bind_of_error hy, hend⟩
  | ok a =>
      obtain ⟨r, s'', t'', hf, hg, hend'⟩ := hfg a s' t' hend
      exact ⟨r, s'', t'', (run_bind_of_ok hx).trans hf, (run_bind_of_ok hy).trans hg, hend'⟩

/-- The relation at the start may be strengthened and those at the end
weakened. -/
theorem mono {before' after' failed' : σ → τ → Prop} {x : ExceptT ε (StateM σ) α}
    {y : ExceptT ε (StateM τ) α} (h : Parallel before x y after failed)
    (hbefore : ∀ s t, before' s t → before s t) (hafter : ∀ s t, after s t → after' s t)
    (hfailed : ∀ s t, failed s t → failed' s t) :
    Parallel before' x y after' failed' := by
  intro s t hst
  obtain ⟨r, s', t', hx, hy, hend⟩ := h s t (hbefore s t hst)
  refine ⟨r, s', t', hx, hy, ?_⟩
  cases r with
  | error e => exact hfailed s' t' hend
  | ok a => exact hafter s' t' hend

/-- When one side comes to a value, so does the other. -/
theorem run_ok {x : ExceptT ε (StateM σ) α} {y : ExceptT ε (StateM τ) α} {s s' : σ} {t : τ}
    {a : α} (h : Parallel before x y after failed) (hbefore : before s t)
    (hx : x.run s = (.ok a, s')) : ∃ t', y.run t = (.ok a, t') ∧ after s' t' := by
  obtain ⟨r, u, t', hu, hy, hend⟩ := h s t hbefore
  obtain ⟨rfl, rfl⟩ := Prod.mk.inj (hu.symm.trans hx)
  exact ⟨t', hy, hend⟩

/-- Computations that leave their states as they are run in parallel when
their results agree. -/
theorem of_run_eq {x : ExceptT ε (StateM σ) α}
    {y : ExceptT ε (StateM τ) α}
    (h : ∀ s t, before s t → ∃ r, x.run s = (r, s) ∧ y.run t = (r, t)) :
    Parallel before x y before before := by
  intro s t hst
  obtain ⟨r, hx, hy⟩ := h s t hst
  refine ⟨r, s, t, hx, hy, ?_⟩
  cases r with
  | error e => exact hst
  | ok a => exact hst

/-- What comes after reading the states may depend on them. -/
theorem get_bind {f : σ → ExceptT ε (StateM σ) β} {g : τ → ExceptT ε (StateM τ) β}
    (h : ∀ s t, before s t → Parallel before (f s) (g t) after failed) :
    Parallel before (get >>= f) (get >>= g) after failed := by
  intro s t hst
  rw [run_bind_of_ok (rfl : (get : ExceptT ε (StateM σ) σ).run s = (.ok s, s)),
    run_bind_of_ok (rfl : (get : ExceptT ε (StateM τ) τ).run t = (.ok t, t))]
  exact h s t hst s t hst

theorem forM {R : σ → τ → Prop} {f : β → ExceptT ε (StateM σ) Unit}
    {g : β → ExceptT ε (StateM τ) Unit} {xs : List β}
    (h : ∀ x ∈ xs, Parallel R (f x) (g x) R failed) :
    Parallel R (xs.forM f) (xs.forM g) R failed := by
  induction xs with
  | nil => exact value () fun _ _ hst => hst
  | cons x xs ih =>
      change Parallel R (f x >>= fun _ => xs.forM f) (g x >>= fun _ => xs.forM g) R failed
      exact bind (h x List.mem_cons_self) fun _ =>
        ih fun y hy => h y (List.mem_cons_of_mem x hy)

/-- Two loops that count are run in parallel when every round leads from one
relation to the next. -/
theorem forM_range {R : Nat → σ → τ → Prop} {f : Nat → ExceptT ε (StateM σ) Unit}
    {g : Nat → ExceptT ε (StateM τ) Unit} {n : Nat}
    (h : ∀ j < n, Parallel (R j) (f j) (g j) (R (j + 1)) failed) :
    Parallel (R 0) ((List.range n).forM f) ((List.range n).forM g) (R n) failed := by
  have hfrom : ∀ k j, j + k = n → Parallel (R j) ((List.range' j k).forM f)
      ((List.range' j k).forM g) (R n) failed := by
    intro k
    induction k with
    | zero =>
        rintro j rfl
        exact value () fun _ _ hst => hst
    | succ k ih =>
        intro j hj
        rw [List.range'_succ]
        change Parallel (R j) (f j >>= fun _ => (List.range' (j + 1) k).forM f)
          (g j >>= fun _ => (List.range' (j + 1) k).forM g) (R n) failed
        exact bind (h j (by omega)) fun _ => ih (j + 1) (by omega)
  rw [List.range_eq_range']
  exact hfrom n 0 (Nat.zero_add n)

end Parallel

/-- A computation leaves an invariant true whether it fails or not, and its
values have a property. -/
def Keeps (P : σ → Prop) (x : ExceptT ε (StateM σ) α) (Q : α → Prop) : Prop :=
  ∀ s, P s → P (x.run s).2 ∧ ∀ a, (x.run s).1 = .ok a → Q a

namespace Keeps

variable {P : σ → Prop} {Q : α → Prop}

theorem of_run {x : ExceptT ε (StateM σ) α} {r : σ → Except ε α} {f : σ → σ}
    (hrun : ∀ s, x.run s = (r s, f s)) (hP : ∀ s, P s → P (f s))
    (hQ : ∀ s a, r s = .ok a → Q a) : Keeps P x Q := by
  intro s hs
  rw [hrun s]
  exact ⟨hP s hs, hQ s⟩

/-- What is left behind has the invariant. -/
theorem after {x : ExceptT ε (StateM σ) α} (h : Keeps P x Q) {s s' : σ} {r : Except ε α} (hs : P s)
    (hrun : x.run s = (r, s')) : P s' := by
  have hafter := (h s hs).1
  rwa [hrun] at hafter

theorem value {a : α} (ha : Q a) : Keeps P (pure a : ExceptT ε (StateM σ) α) Q := by
  apply of_run (fun s => rfl) (fun s hs => hs)
  intro s b hb
  cases hb
  exact ha

theorem error (e : ε) : Keeps P (throw e : ExceptT ε (StateM σ) α) Q := by
  apply of_run (fun s => rfl) (fun s hs => hs)
  intro s b hb
  cases hb

/-- Nothing is asked of the state or of the values. -/
theorem vacuous (x : ExceptT ε (StateM σ) α) : Keeps (fun _ => True) x fun _ => True :=
  fun _ _ => ⟨True.intro, fun _ _ => True.intro⟩

theorem bind {R : β → Prop} {x : ExceptT ε (StateM σ) α} {f : α → ExceptT ε (StateM σ) β}
    (hx : Keeps P x Q) (hf : ∀ a, Q a → Keeps P (f a) R) : Keeps P (x >>= f) R := by
  intro s hs
  obtain ⟨hstate, hvalue⟩ := hx s hs
  rcases h : x.run s with ⟨e | a, s'⟩
  · rw [h] at hstate
    rw [run_bind_of_error h]
    exact ⟨hstate, fun a ha => by cases ha⟩
  · rw [h] at hstate hvalue
    rw [run_bind_of_ok h]
    exact hf a (hvalue a rfl) s' hstate

theorem forM {f : β → ExceptT ε (StateM σ) Unit} {xs : List β}
    (h : ∀ x ∈ xs, Keeps P (f x) fun _ => True) : Keeps P (xs.forM f) fun _ => True := by
  induction xs with
  | nil => exact value trivial
  | cons x xs ih =>
      change Keeps P (f x >>= fun _ => xs.forM f) _
      exact bind (h x List.mem_cons_self) fun _ _ =>
        ih fun y hy => h y (List.mem_cons_of_mem x hy)

end Keeps

/-- Every error of a computation has a property. -/
def Raises (P : ε → Prop) (x : ExceptT ε (StateM σ) α) : Prop :=
  ∀ s e, (x.run s).1 = .error e → P e

namespace Raises

variable {P : ε → Prop}

theorem value (a : α) : Raises P (pure a : ExceptT ε (StateM σ) α) := by
  intro s e he
  cases he

theorem error {e : ε} (he : P e) : Raises P (throw e : ExceptT ε (StateM σ) α) := by
  intro s f hf
  cases hf
  exact he

theorem get : Raises P (get : ExceptT ε (StateM σ) σ) := by
  intro s e he
  cases he

theorem modify (f : σ → σ) : Raises P (modify f : ExceptT ε (StateM σ) PUnit) := by
  intro s e he
  cases he

theorem bind {x : ExceptT ε (StateM σ) α} {f : α → ExceptT ε (StateM σ) β}
    (hx : Raises P x) (hf : ∀ a, Raises P (f a)) : Raises P (x >>= f) := by
  intro s e he
  rcases hrun : x.run s with ⟨e' | a, s'⟩
  · rw [run_bind_of_error hrun] at he
    cases he
    exact hx s e (congrArg Prod.fst hrun)
  · rw [run_bind_of_ok hrun] at he
    exact hf a s' e he

theorem forM {f : β → ExceptT ε (StateM σ) Unit} {xs : List β}
    (h : ∀ x ∈ xs, Raises P (f x)) : Raises P (xs.forM f) := by
  induction xs with
  | nil => exact value ()
  | cons x xs ih =>
      change Raises P (f x >>= fun _ => xs.forM f)
      exact bind (h x List.mem_cons_self) fun _ =>
        ih fun y hy => h y (List.mem_cons_of_mem x hy)

end Raises
end Effects
end LiftedPomdp
