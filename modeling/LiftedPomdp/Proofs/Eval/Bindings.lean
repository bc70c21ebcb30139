import LiftedPomdp.Eval.Meaning
import LiftedPomdp.Proofs.Effects.Parallel
import LiftedPomdp.Proofs.Ground.Keys
import LiftedPomdp.Proofs.Ground.Lowering

/-!
# Variables, slots and objects

The variables in scope stand for objects in two ways: an environment gives the
names of the objects, and the leading slots hold their ordinals, the outermost
variable first.  Variables, ordinals and the environment are listed from the
innermost variable on, so that a new variable is put in front of each and takes
the first slot that is not in use.
-/

namespace LiftedPomdp

open Effects Grounding

/-! ## Environments -/

/-- The variables in scope stand for the objects of an environment, which have
the given ordinals. -/
inductive Denotes (types : Array ObjectType) :
    List Binding → List Nat → Environment → Prop
  | nil : Denotes types [] [] []
  | cons {b : Binding} {bound : List Binding} {k : Nat} {ordinals : List Nat} {o : String}
      {env : Environment} {t : ObjectType} (type : types[b.type]? = some t)
      (object : t.objects[k]? = some o) (rest : Denotes types bound ordinals env) :
      Denotes types (b :: bound) (k :: ordinals) ((b.name, o) :: env)

namespace Denotes

variable {types : Array ObjectType} {bound : List Binding} {ordinals : List Nat}
  {env : Environment}

theorem length_eq (h : Denotes types bound ordinals env) : ordinals.length = bound.length := by
  induction h with
  | nil => rfl
  | cons _ _ _ ih => rw [List.length_cons, ih, List.length_cons]

/-- A variable stands for the object whose ordinal its slot holds, the
innermost variable of a name hiding the others. -/
theorem lookup (h : Denotes types bound ordinals env) {v : String} {slot type : Nat}
    (hfind : Binding.find? v bound = some (slot, type)) :
    ∃ k t o, ordinals.reverse[slot]? = some k ∧ types[type]? = some t ∧
      t.objects[k]? = some o ∧ env.lookup v = some o := by
  induction h with
  | nil => cases hfind
  | @cons b bound k ordinals o env t htype hobject rest ih =>
      rw [Binding.find?] at hfind
      by_cases hname : b.name = v
      · rw [if_pos (by simpa using hname)] at hfind
        cases hfind
        refine ⟨k, t, o, ?_, htype, hobject, ?_⟩
        · rw [List.reverse_cons, ← rest.length_eq, ← List.length_reverse]
          exact List.getElem?_concat_length
        · rw [List.lookup_cons, ← hname, beq_self_eq_true]
      · rw [if_neg (by simpa using hname)] at hfind
        obtain ⟨k', t', o', hslot, htype', hobject', hlookup⟩ := ih hfind
        refine ⟨k', t', o', ?_, htype', hobject', ?_⟩
        · obtain ⟨hlt, _⟩ := List.getElem?_eq_some_iff.mp hslot
          rw [List.reverse_cons, List.getElem?_append_left hlt, hslot]
        · have hne : (v == b.name) = false := by simpa using fun heq => hname heq.symm
          rw [List.lookup_cons, hne, hlookup]

end Denotes

/-! ## Slots -/

/-- The leading slots hold some ordinals, the last one first, and there are at
least so many slots. -/
structure Stands (ordinals : List Nat) (limit : Nat) (w : Walk) : Prop where
  leading : ordinals.reverse <+: w.slots.toList
  room : limit ≤ w.slots.size

namespace Stands

variable {ordinals : List Nat} {limit : Nat} {w : Walk}

theorem getElem? (h : Stands ordinals limit w) {slot k : Nat}
    (hk : ordinals.reverse[slot]? = some k) : w.slots[slot]? = some k := by
  obtain ⟨hlt, rfl⟩ := List.getElem?_eq_some_iff.mp hk
  rw [← Array.getElem?_toList]
  exact List.prefix_iff_getElem?.mp h.leading slot hlt

theorem run_slot (h : Stands ordinals limit w) {slot k : Nat}
    (hk : ordinals.reverse[slot]? = some k) : (Eval.slot slot).run w = (.ok k, w) := by
  unfold Eval.slot
  rw [run_bind_of_ok (rfl : (get : Eval Walk).run w = (.ok w, w)), h.getElem? hk]
  rfl

/-- The inner variables may be forgotten. -/
theorem tail {k : Nat} (h : Stands (k :: ordinals) limit w) : Stands ordinals limit w where
  leading := by
    have hprefix := h.leading
    rw [List.reverse_cons] at hprefix
    exact (List.prefix_append _ _).trans hprefix
  room := h.room

theorem leading_set {slots : List Nat} (h : ordinals.reverse <+: slots)
    (hroom : ordinals.length < slots.length) (k : Nat) :
    (k :: ordinals).reverse <+: slots.set ordinals.length k := by
  obtain ⟨rest, rfl⟩ := h
  cases rest with
  | nil => simp at hroom
  | cons old rest =>
      rw [← List.length_reverse, List.set_append_right _ _ (Nat.le_refl _), Nat.sub_self,
        List.set_cons_zero, List.reverse_cons]
      exact ⟨rest, by simp⟩

/-- A new variable takes the first slot that is not in use. -/
theorem run_setSlot (h : Stands ordinals limit w) (hroom : ordinals.length < limit) (k : Nat) :
    ∃ w', (Eval.setSlot ordinals.length k).run w = (.ok (), w') ∧
      Stands (k :: ordinals) limit w' ∧ w'.sampler = w.sampler := by
  have hlt : ordinals.length < w.slots.size := Nat.lt_of_lt_of_le hroom h.room
  refine ⟨{ w with slots := w.slots.set ordinals.length k }, ?_, ⟨?_, ?_⟩, rfl⟩
  · unfold Eval.setSlot
    rw [run_bind_of_ok (rfl : (get : Eval Walk).run w = (.ok w, w)), dif_pos hlt]
    rfl
  · rw [Array.toList_set]
    exact leading_set h.leading (by simpa using hlt) k
  · rw [Array.size_set]
    exact h.room

end Stands

/-! ## Draws -/

theorem Eval.run_draw (d : Distribution) (w : Walk) :
    (Eval.draw d).run w =
      ((w.sampler.sample d).1.mapError Fault.abort,
        { w with sampler := (w.sampler.sample d).2 }) := by
  unfold Eval.draw
  rw [run_bind_of_ok (rfl : (get : Eval Walk).run w = (.ok w, w))]
  rcases w.sampler.sample d with ⟨e | v, sampler⟩
  · rfl
  · rfl

theorem Meaning.run_draw (d : Distribution) (s : Sampler) :
    (Meaning.draw d).run s = ((s.sample d).1.mapError Fault.abort, (s.sample d).2) := by
  unfold Meaning.draw
  rw [run_bind_of_ok (rfl : (get : Meaning Sampler).run s = (.ok s, s))]
  rcases s.sample d with ⟨e | v, sampler⟩
  · rfl
  · rfl

end LiftedPomdp
