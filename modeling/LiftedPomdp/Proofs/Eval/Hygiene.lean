import LiftedPomdp.Proofs.Eval.Slots
import LiftedPomdp.Proofs.Ground.Grounded
import LiftedPomdp.Proofs.Ground.Parts

/-!
# What evaluation leaves of the slots

All expressions of a model are evaluated on the same slots, which are never
cleared.  What an evaluation finds there makes no difference to it, apart from
the slots of the parameters, and it leaves these as they are.  Inside an
expression the same holds of every part: its evaluation may write slots, but none
that a parameter or an aggregate around it has taken.  This does not depend on
the evaluation coming to an end without an error.
-/

namespace LiftedPomdp

namespace Eval

variable {α : Type}

/-- From two walks, an evaluation has the same result and leaves the same sampler
behind. -/
def Coincides (x : Eval α) (w w' : Walk) : Prop :=
  (x.run w).1 = (x.run w').1 ∧ (x.run w).2.sampler = (x.run w').2.sampler

/-- From a walk, an evaluation leaves a slot as it is. -/
def Spares (x : Eval α) (w : Walk) (slot : Nat) : Prop :=
  (x.run w).2.slots[slot]? = w.slots[slot]?

end Eval

/-- Each way to evaluate a compiled expression has a property: for its value, for
its truth value, for its value as a real, and for its distribution. -/
structure Model.Evaluates (m : Model) (s : Snapshot) (e : Compiled)
    (P : ∀ {α : Type}, Eval α → Prop) : Prop where
  value : P (m.value s e)
  truth : P (m.truth s e)
  real : P (m.real s e)
  distribution : P (m.distribution s e)

theorem Model.Evaluates.mono {m : Model} {s : Snapshot} {e : Compiled}
    {P Q : ∀ {α : Type}, Eval α → Prop} (h : m.Evaluates s e P)
    (hPQ : ∀ {α : Type} (x : Eval α), P x → Q x) : m.Evaluates s e Q :=
  ⟨hPQ _ h.value, hPQ _ h.truth, hPQ _ h.real, hPQ _ h.distribution⟩

/-! ## Leading slots -/

section Leading

variable {α : Type} {n limit : Nat} {ordinals : List Nat} {w w' : Walk} {x : Eval α}

/-- The first slots, where two walks agree on them, hold some ordinals. -/
theorem exists_beside (hn : n ≤ limit) (hroom : limit ≤ w.slots.size)
    (hroom' : limit ≤ w'.slots.size) (hsampler : w.sampler = w'.sampler)
    (hagree : ∀ k < n, w.slots[k]? = w'.slots[k]?) :
    ∃ ordinals, ordinals.length = n ∧ Beside ordinals limit w w' := by
  have htake : w.slots.toList.take n = w'.slots.toList.take n := by
    apply List.ext_getElem?
    intro k
    by_cases hk : k < n
    · rw [List.getElem?_take_of_lt hk, List.getElem?_take_of_lt hk, Array.getElem?_toList,
        Array.getElem?_toList, hagree k hk]
    · rw [List.getElem?_take_eq_none (Nat.le_of_not_lt hk),
        List.getElem?_take_eq_none (Nat.le_of_not_lt hk)]
  refine ⟨(w.slots.toList.take n).reverse, ?_, ⟨?_, hroom⟩, ⟨?_, hroom'⟩, hsampler⟩
  · rw [List.length_reverse, List.length_take_of_le]
    simpa using Nat.le_trans hn hroom
  · rw [List.reverse_reverse]
    exact List.take_prefix n _
  · rw [List.reverse_reverse, htake]
    exact List.take_prefix n _

theorem Local.coincides (h : Local ordinals limit x) (hbeside : Beside ordinals limit w w') :
    x.Coincides w w' := by
  obtain ⟨r, u, u', hrun, hrun', hend⟩ := h w w' hbeside
  unfold Eval.Coincides
  rw [hrun, hrun']
  exact ⟨rfl, hend.of_same.sampler⟩

/-- An evaluation leaves the slots that it sees as they are. -/
theorem Local.spares (h : Local ordinals limit x) (hstands : Stands ordinals limit w) {k : Nat}
    (hk : k < ordinals.length) : x.Spares w k := by
  obtain ⟨r, u, _, hrun, _, hend⟩ := h w w ⟨hstands, hstands, rfl⟩
  rw [← List.length_reverse] at hk
  have hslot := List.getElem?_eq_getElem hk
  unfold Eval.Spares
  rw [hrun, hend.of_same.left.getElem? hslot, hstands.getElem? hslot]

end Leading

/-! ## Compiled expressions -/

section Compiled

variable {c : Compiler} {limit : Nat} {bound : List Binding} {e : Expr} {n : Node}

/-- However it is evaluated, a compiled expression sees nothing but the slots of
the variables in scope and the sampler. -/
theorem Lowers.evaluates_local (h : Lowers c limit bound e n) (m : Model) (s : Snapshot)
    (slots : Nat) (label : String) {ordinals : List Nat} (hlen : ordinals.length = bound.length) :
    m.Evaluates s { node := n, slots, label } (Local ordinals limit) where
  value := h.local _ hlen
  truth := Respects.truth (h.local _ hlen)
  real := Respects.real (h.local _ hlen)
  distribution := h.local_distribution _ hlen

/-- However it is evaluated, a compiled expression leaves the slots of the
variables in scope as they are. -/
theorem Lowers.evaluates_spares (h : Lowers c limit bound e n) (hbound : bound.length ≤ limit)
    (m : Model) (s : Snapshot) (slots : Nat) (label : String) {w : Walk}
    (hroom : limit ≤ w.slots.size) {k : Nat} (hk : k < bound.length) :
    m.Evaluates s { node := n, slots, label } fun x => x.Spares w k := by
  obtain ⟨ordinals, hlen, hbeside⟩ := exists_beside hbound hroom hroom rfl fun _ _ => rfl
  exact (h.evaluates_local m s slots label hlen).mono fun x hlocal =>
    Local.spares hlocal hbeside.left (hlen ▸ hk)

/-- An aggregate of a tree whose body contains a node takes a slot for one of its
variables. -/
def Node.BindsAround (n p : Node) (slot : Nat) : Prop :=
  ∃ op vars a, n.Contains (.aggregate op vars a) ∧ a.Contains p ∧ ∃ b ∈ vars, b.slot = slot

/-- A slot that an aggregate around a node has taken is one of the variables in
scope at the node. -/
theorem Lowers.exists_source_of_bindsAround (h : Lowers c limit bound e n)
    (hbound : bound.length ≤ limit) {p : Node} {slot : Nat} (hp : n.BindsAround p slot) :
    ∃ e' bound', slot < bound'.length ∧ bound'.length ≤ limit ∧ Lowers c limit bound' e' p := by
  obtain ⟨op, vars, a, haggregate, ha, b, hb, rfl⟩ := hp
  obtain ⟨_, _, bound₁, _, _, hlowers⟩ := h.exists_source hbound haggregate
  cases hlowers with
  | aggregate _ binds within body =>
      have hslot := binds.slot_lt b hb
      obtain ⟨e', _, bound', hle, hlimit, hsource⟩ := body.exists_source within ha
      exact ⟨e', bound', by omega, hlimit, hsource⟩

end Compiled

namespace Compiler

/-- On any two arrays of slots that agree on the parameters of a compiled
expression and have room for it, every way to evaluate it, in any model and on any
snapshot, has the same result and leaves the same sampler behind, and it leaves
the slots of the parameters as they are.  Every way to evaluate a part of it
leaves them so, and with them the slots that the aggregates around the part have
taken. -/
theorem slots_hygienic {c : Compiler} {params : List Binding} {e : Expr}
    {body : Compiled} {reads : List Nat} (h : c.compile params e = .ok (body, reads))
    (m : Model) (s : Snapshot) :
    (∀ w w' : Walk, body.slots ≤ w.slots.size → body.slots ≤ w'.slots.size →
      w.sampler = w'.sampler → (∀ k < params.length, w.slots[k]? = w'.slots[k]?) →
        m.Evaluates s body fun x => x.Coincides w w' ∧
          ∀ k < params.length, x.Spares w k ∧ x.Spares w' k) ∧
      ∀ p, body.node.Contains p → ∀ w : Walk, body.slots ≤ w.slots.size →
        ∀ k, k < params.length ∨ body.node.BindsAround p k →
          m.Evaluates s { body with node := p } fun x => x.Spares w k := by
  obtain ⟨bound, hbound, hwithin, hlowers⟩ := exists_lowers h
  rw [← hbound]
  constructor
  · intro w w' hroom hroom' hsampler hagree
    obtain ⟨ordinals, hlen, hbeside⟩ := exists_beside hwithin hroom hroom' hsampler hagree
    refine (hlowers.evaluates_local m s body.slots body.label hlen).mono fun x hlocal => ?_
    refine ⟨Local.coincides hlocal hbeside, fun k hk => ?_⟩
    rw [← hlen] at hk
    exact ⟨Local.spares hlocal hbeside.left hk, Local.spares hlocal hbeside.right hk⟩
  · rintro p hp w hroom k (hk | hbinds)
    · obtain ⟨e', _, bound', hle, hlimit, hsource⟩ := hlowers.exists_source hwithin hp
      exact hsource.evaluates_spares hlimit m s _ _ hroom (Nat.lt_of_lt_of_le hk hle)
    · obtain ⟨e', bound', hk, hlimit, hsource⟩ :=
        hlowers.exists_source_of_bindsAround hwithin hbinds
      exact hsource.evaluates_spares hlimit m s _ _ hroom hk

/-- Is there a lamp, not the given one, such that all lamps but that one pass a coin
toss?  The slots of the two variables may hold numbers of no lamps beforehand. -/
theorem slots_hygienic_lamps :
    let c : Compiler := { scope := Lamps.scope, site := .reward, label := "reward" }
    let params : List Binding := [{ name := "p", type := 0 }]
    let same := fun v w => Expr.compare .eq (.term (.var v)) (.term (.var w))
    let e : Expr := .aggregate .exists [{ var := "l", typeName := "lamp" }]
      (.and [.not (same "l" "p"), .aggregate .forall [{ var := "k", typeName := "lamp" }]
        (.or [same "k" "l", .bernoulli (.real 0.5)])])
    let sameSlot := fun k k' =>
      Node.sameObject { arg := .slot k, type := 0 } { arg := .slot k', type := 0 } false
    let others : Node := .aggregate .forall [{ slot := 2, type := 0 }]
      (.or [sameSlot 2 1, .bernoulli (.const (.real 0.5))])
    let body : Compiled :=
      { node := .aggregate .exists [{ slot := 1, type := 0 }] (.and [.not (sameSlot 1 0), others])
        slots := 3, label := "reward" }
    let m := Lamps.model
    let s := Snapshot.current m.nonFluents m.initialState m.defaultAction
    let w : Walk := { slots := #[1, 0, 0], sampler := .ofSeed 0 }
    let w' : Walk := { slots := #[1, 7, 5, 9], sampler := .ofSeed 0 }
    c.compile params e = .ok (body, []) ∧ body.slots ≤ w.slots.size ∧
      body.slots ≤ w'.slots.size ∧ w.sampler = w'.sampler ∧
      (∀ k < params.length, w.slots[k]? = w'.slots[k]?) ∧ body.node.Contains others ∧
      body.node.BindsAround others 1 ∧ (m.value s body).Coincides w w' ∧
      (m.value s { body with node := others }).Spares w' 1 := by
  intro c params same e sameSlot others body m s w w'
  have hcompile : c.compile params e = .ok (body, []) := by
    have hlower : (c.lower params.reverse e).run { slots := params.length, reads := [] } =
        .ok (body.node, { slots := 3, reads := [] }) := by
      have hlamp : Lamps.scope.type? "lamp" = some 0 := by decide +kernel
      simp [c, params, same, e, sameSlot, others, body, lower, lowerAll, bind, termPair?,
        compareObjects, objectRef, lookup, Binding.find?, Footprint.useSlots, Expr.real, hlamp]
    rw [compile, hlower]
  have hagree : ∀ k < params.length, w.slots[k]? = w'.slots[k]? := by decide
  have hothers : body.node.Contains others :=
    .head (List.mem_singleton_self _) (.single (List.mem_cons_of_mem _ List.mem_cons_self))
  have hbinds : body.node.BindsAround others 1 :=
    ⟨_, _, _, .refl, .single (List.mem_cons_of_mem _ List.mem_cons_self), _,
      List.mem_cons_self, rfl⟩
  obtain ⟨htwo, hpart⟩ := slots_hygienic hcompile m s
  have hfew : body.slots ≤ w.slots.size := by decide
  have hmany : body.slots ≤ w'.slots.size := by decide
  exact ⟨hcompile, hfew, hmany, rfl, hagree, hothers, hbinds,
    (htwo w w' hfew hmany rfl hagree).value.1,
    (hpart others hothers w' hmany 1 (.inr hbinds)).value⟩

end Compiler
end LiftedPomdp
