import LiftedPomdp.Proofs.Eval.Bindings
import LiftedPomdp.Proofs.Ground.RowMajor

/-!
# Enumeration of bindings

An aggregate goes through the bindings of its variables, the first variable
changing slowest, and may stop before the last one.  The loop over each variable
writes its own slot and leaves the slots below as they are, so that the loops,
one inside the other, amount to one loop through a list of tuples of ordinals:
if a step has a result that depends on the ordinals in the leading slots alone,
so has the whole enumeration.

An enumeration can be made to note the ordinals that its variables stand for
before each step.  It is still the same enumeration, and the notes tell which
bindings were visited and in which order.
-/

namespace LiftedPomdp

open Effects Grounding

/-! ## Loops that may stop -/

section GoThrough

variable {α β κ ι : Type}

/-- Takes a step for each element of a list, in order, until one says to stop. -/
def goThrough (step : α → κ → ForInStep α) : List κ → α → ForInStep α
  | [], a => .yield a
  | k :: ks, a =>
    match step a k with
    | .done a => .done a
    | .yield a => goThrough step ks a

theorem goThrough_append (step : α → κ → ForInStep α) (ks ls : List κ) (a : α) :
    goThrough step (ks ++ ls) a =
      match goThrough step ks a with
      | .done a => .done a
      | .yield a => goThrough step ls a := by
  induction ks generalizing a with
  | nil => rfl
  | cons k ks ih =>
      rw [List.cons_append, goThrough, goThrough]
      rcases step a k with a' | a'
      · rfl
      · exact ih a'

theorem goThrough_map (step : α → κ → ForInStep α) (f : ι → κ) (is : List ι) (a : α) :
    goThrough step (is.map f) a = goThrough (fun a i => step a (f i)) is a := by
  induction is generalizing a with
  | nil => rfl
  | cons i is ih =>
      rw [List.map_cons, goThrough, goThrough]
      rcases step a (f i) with a' | a'
      · rfl
      · exact ih a'

/-- A loop through lists put together is a loop of loops. -/
theorem goThrough_flatMap (step : α → κ → ForInStep α) (f : ι → List κ) (is : List ι) (a : α) :
    goThrough step (is.flatMap f) a = goThrough (fun a i => goThrough step (f i) a) is a := by
  induction is generalizing a with
  | nil => rfl
  | cons i is ih =>
      rw [List.flatMap_cons, goThrough_append, goThrough]
      rcases goThrough step (f i) a with a' | a'
      · rfl
      · exact ih a'

/-- A step with its value replaced, which stops where the step does. -/
def mapStep (f : α → β) : ForInStep α → ForInStep β
  | .done a => .done (f a)
  | .yield a => .yield (f a)

theorem value_mapStep (f : α → β) (r : ForInStep α) : (mapStep f r).value = f r.value := by
  rcases r with a | a
  · rfl
  · rfl

/-- A loop that notes each element before its step stops where it would without
notes.  It has noted the elements up to there, and all of them if it does not
stop. -/
theorem goThrough_noted (step : α → κ → ForInStep α) (ks : List κ) (a : α) (notes : List κ) :
    ∃ visited, visited <+: ks ∧
      goThrough (fun p k => mapStep (·, p.2 ++ [k]) (step p.1 k)) ks (a, notes) =
        mapStep (·, notes ++ visited) (goThrough step ks a) ∧
      ∀ b, goThrough step ks a = .yield b → visited = ks := by
  induction ks generalizing a notes with
  | nil => exact ⟨[], List.prefix_rfl, by rw [List.append_nil]; rfl, fun _ _ => rfl⟩
  | cons k ks ih =>
      simp only [goThrough]
      rcases step a k with a' | a'
      · exact ⟨[k], ⟨ks, rfl⟩, rfl, fun b hb => by cases hb⟩
      · obtain ⟨visited, hprefix, hnoted, hall⟩ := ih a' (notes ++ [k])
        refine ⟨k :: visited, List.cons_prefix_cons.mpr ⟨rfl, hprefix⟩, ?_, ?_⟩
        · rw [← List.append_cons] at hnoted
          exact hnoted
        · intro b hb
          rw [hall b hb]

end GoThrough

/-! ## Evaluations that the leading slots decide -/

/-- From every walk whose leading slots hold some ordinals, an evaluation comes
to one result, and leaves these ordinals and the random stream as they are. -/
def Eval.ComesTo {α : Type} (ordinals : List Nat) (limit : Nat) (x : Eval α) (a : α) : Prop :=
  ∀ w, Stands ordinals limit w →
    ∃ w', x.run w = (.ok a, w') ∧ Stands ordinals limit w' ∧ w'.sampler = w.sampler

namespace Eval.ComesTo

variable {α β : Type} {ordinals : List Nat} {limit : Nat}

theorem value (a : α) : ComesTo ordinals limit (pure a) a :=
  fun w hstands => ⟨w, rfl, hstands, rfl⟩

theorem bind {x : Eval α} {f : α → Eval β} {a : α} {b : β} (hx : ComesTo ordinals limit x a)
    (hf : ComesTo ordinals limit (f a) b) : ComesTo ordinals limit (x >>= f) b := by
  intro w hstands
  obtain ⟨w', hrun, hstands', hsampler⟩ := hx w hstands
  obtain ⟨w'', hrun', hstands'', hsampler'⟩ := hf w' hstands'
  exact ⟨w'', (run_bind_of_ok hrun).trans hrun', hstands'', hsampler'.trans hsampler⟩

theorem map {x : Eval α} {a : α} (h : ComesTo ordinals limit x a) (f : α → β) :
    ComesTo ordinals limit (f <$> x) (f a) := by
  rw [map_eq_pure_bind]
  exact h.bind (value (f a))

/-- A loop over the ordinals of a new variable. -/
theorem overOrdinals {step : α → Eval (ForInStep α)} {result : α → Nat → ForInStep α}
    (hroom : ordinals.length < limit) (ks : List Nat)
    (hstep : ∀ k ∈ ks, ∀ a, ComesTo (k :: ordinals) limit (step a) (result a k)) (a : α) :
    ComesTo ordinals limit (Eval.overOrdinals ordinals.length step ks a)
      (goThrough result ks a) := by
  induction ks generalizing a with
  | nil => exact value _
  | cons k ks ih =>
      rw [List.forall_mem_cons] at hstep
      intro w hstands
      obtain ⟨u, hset, hstands', hsampler⟩ := hstands.run_setSlot hroom k
      obtain ⟨u', hrun, hstands'', hsampler'⟩ := hstep.1 a u hstands'
      rw [Eval.overOrdinals, run_bind_of_ok hset, run_bind_of_ok hrun, goThrough]
      rcases result a k with a' | a'
      · exact ⟨u', rfl, hstands''.tail, hsampler'.trans hsampler⟩
      · obtain ⟨u'', hrest, hend, hsampler''⟩ := ih hstep.2 a' u' hstands''.tail
        exact ⟨u'', hrest, hend, hsampler''.trans (hsampler'.trans hsampler)⟩

end Eval.ComesTo

/-! ## Bindings -/

namespace Context

variable (c : Context)

/-- The numbers of objects that some variables range over. -/
def sizes (vars : List Binder) : List Nat :=
  vars.map fun b => typeSize c.types b.type

/-- The bindings of some variables in the order in which they are visited, each
with the ordinals of its objects. -/
def bindings (vars : List Binder) : List (List Nat) :=
  tuples ((c.sizes vars).map List.range)

theorem bindings_cons (b : Binder) (bs : List Binder) :
    c.bindings (b :: bs) = (List.range (typeSize c.types b.type)).flatMap fun k =>
      (c.bindings bs).map (k :: ·) :=
  rfl

theorem bindings_eq (vars : List Binder) :
    c.bindings vars = (List.range (tupleCount (c.sizes vars))).map
      (FluentBlock.ordinalsAt (rowStrides (c.sizes vars))) :=
  (FluentBlock.map_ordinalsAt_range (c.sizes vars)).symm

theorem length_bindings (vars : List Binder) :
    (c.bindings vars).length = tupleCount (c.sizes vars) := by
  rw [bindings_eq, List.length_map, List.length_range]

theorem mem_bindings_iff {vars : List Binder} {ks : List Nat} :
    ks ∈ c.bindings vars ↔ FluentBlock.InRange ks (c.sizes vars) := by
  rw [bindings_eq, List.mem_map]
  constructor
  · rintro ⟨place, hplace, rfl⟩
    exact FluentBlock.ordinalsAt_inRange (List.mem_range.mp hplace)
  · intro hrange
    exact ⟨_, List.mem_range.mpr (FluentBlock.distance_lt hrange),
      FluentBlock.ordinalsAt_distance hrange⟩

theorem nodup_bindings (vars : List Binder) : (c.bindings vars).Nodup := by
  rw [bindings_eq]
  refine List.Nodup.map_on ?_ List.nodup_range
  intro place hplace other hother heq
  rw [← FluentBlock.distance_ordinalsAt (List.mem_range.mp hplace), heq,
    FluentBlock.distance_ordinalsAt (List.mem_range.mp hother)]

end Context

/-- The nested loops over some variables amount to one loop through their
bindings, whatever the steps and their results are. -/
theorem Eval.ComesTo.overBindings {α : Type} {s : Scope} {c : Context} (htypes : c.types = s.types)
    {bound bound' : List Binding} {vars : List TypedVar} {binders : List Binder}
    (hbinds : Binds s bound vars binders bound') {limit : Nat} (hlimit : bound'.length ≤ limit)
    {ordinals : List Nat} (hlen : ordinals.length = bound.length)
    {step : α → Eval (ForInStep α)} {result : α → List Nat → ForInStep α}
    (hstep : ∀ ks ∈ c.bindings binders, ∀ a,
      ComesTo (ks.reverse ++ ordinals) limit (step a) (result a ks)) (a : α) :
    ComesTo ordinals limit (c.overBindings step binders a)
      (goThrough result (c.bindings binders) a) := by
  induction hbinds generalizing ordinals result a with
  | nil =>
      have hone := hstep [] List.mem_cons_self a
      rw [Context.overBindings]
      change ComesTo ordinals limit (step a) (match result a [] with
        | .done a => .done a
        | .yield a => .yield a)
      rcases hresult : result a [] with a' | a'
      · rwa [hresult] at hone
      · rwa [hresult] at hone
  | @cons bound bound' v vs type binders head tail ih =>
      have hroom : ordinals.length < limit := by
        have hbound := tail.length_eq
        rw [List.length_cons] at hbound
        omega
      obtain ⟨t, htype⟩ : ∃ t, c.types[type]? = some t := by
        obtain ⟨hlt, _⟩ := Array.findIdx?_eq_some_iff_getElem.mp head
        rw [htypes]
        exact ⟨_, Array.getElem?_eq_getElem hlt⟩
      have hsize : typeSize c.types type = t.size := by rw [typeSize, htype]
      rw [Context.bindings_cons, goThrough_flatMap, Context.overBindings, ← hlen]
      simp only [htype, hsize]
      refine overOrdinals hroom _ (fun k hk a => ?_) a
      rw [goThrough_map]
      refine ih hlimit (by rw [List.length_cons, List.length_cons, hlen]) (fun ks hks a => ?_) a
      have hmem : k :: ks ∈ c.bindings ({ slot := bound.length, type } :: binders) := by
        rw [Context.bindings_cons, hsize]
        exact List.mem_flatMap.mpr ⟨k, hk, List.mem_map.mpr ⟨ks, hks, rfl⟩⟩
      have hks := hstep (k :: ks) hmem a
      rwa [List.reverse_cons, List.append_assoc] at hks

/-! ## Notes -/

/-- Notes what some variables stand for, then takes a step. -/
def Eval.noting {α : Type} (vars : List Binder) (step : α → Eval (ForInStep α))
    (p : α × List (List Nat)) : Eval (ForInStep (α × List (List Nat))) := do
  let w ← get
  let r ← step p.1
  return mapStep (·, p.2 ++ [vars.map fun b => (w.slots[b.slot]?).getD 0]) r

/-- A loop whose value is replaced after each step. -/
theorem Eval.mapStep_overOrdinals {α β : Type} {f : α → β} {step : α → Eval (ForInStep α)}
    {step' : β → Eval (ForInStep β)} (h : ∀ a, mapStep f <$> step a = step' (f a)) (s : Nat)
    (os : List Nat) (a : α) :
    mapStep f <$> overOrdinals s step os a = overOrdinals s step' os (f a) := by
  induction os generalizing a with
  | nil => rfl
  | cons o os ih =>
      rw [overOrdinals, overOrdinals, ← h, map_bind, bind_map_left]
      apply bind_congr
      intro _
      rw [map_bind]
      apply bind_congr
      intro r
      rcases r with a' | a'
      · rfl
      · exact ih a'

theorem Context.mapStep_overBindings {α β : Type} (c : Context) {f : α → β}
    {step : α → Eval (ForInStep α)} {step' : β → Eval (ForInStep β)}
    (h : ∀ a, mapStep f <$> step a = step' (f a)) (bs : List Binder) (a : α) :
    mapStep f <$> c.overBindings step bs a = c.overBindings step' bs (f a) := by
  induction bs generalizing a with
  | nil => exact h a
  | cons b bs ih =>
      rw [overBindings, overBindings]
      cases c.types[b.type]? with
      | none => rfl
      | some t => exact Eval.mapStep_overOrdinals ih b.slot (List.range t.size) a

/-- Notes change nothing but that they are there. -/
theorem Context.fst_overBindings_noting {α : Type} (c : Context) (vars : List Binder)
    (step : α → Eval (ForInStep α)) (bs : List Binder) (p : α × List (List Nat)) :
    mapStep Prod.fst <$> c.overBindings (Eval.noting vars step) bs p =
      c.overBindings step bs p.1 := by
  refine c.mapStep_overBindings (fun p => ?_) bs p
  have hget (x : Eval (ForInStep α)) : (get >>= fun _ : Walk => x) = x := rfl
  rw [Eval.noting, map_bind]
  refine Eq.trans (bind_congr fun w => ?_) (hget (step p.1))
  rw [map_bind]
  refine Eq.trans (bind_congr fun r => ?_) (bind_pure _)
  rcases r with a | a
  · rfl
  · rfl

/-- The variables that are brought into scope take the next slots. -/
theorem Binds.map_slot {s : Scope} {bound bound' : List Binding} {vars : List TypedVar}
    {binders : List Binder} (h : Binds s bound vars binders bound') :
    binders.map Binder.slot = List.range' bound.length binders.length := by
  induction h with
  | nil => rfl
  | cons _ _ ih => rw [List.map_cons, ih, List.length_cons, List.length_cons, List.range'_succ]

/-- What is noted for a binding are its ordinals. -/
theorem Stands.map_getD {ordinals ks : List Nat} {limit : Nat} {w : Walk}
    (h : Stands (ks.reverse ++ ordinals) limit w) :
    (List.range' ordinals.length ks.length).map (fun s => (w.slots[s]?).getD 0) = ks := by
  apply List.ext_getElem
  · rw [List.length_map, List.length_range']
  · intro j hj hj'
    have hslot : (ks.reverse ++ ordinals).reverse[ordinals.length + j]? = some ks[j] := by
      rw [List.reverse_append, List.reverse_reverse, ← List.length_reverse,
        List.getElem?_append_right (Nat.le_add_right _ _), Nat.add_sub_cancel_left,
        List.getElem?_eq_getElem hj']
    rw [List.getElem_map, List.getElem_range', Nat.one_mul, h.getElem? hslot, Option.getD_some]

theorem Eval.ComesTo.noting {α : Type} {s : Scope} {bound bound' : List Binding}
    {vars : List TypedVar} {binders : List Binder} (hbinds : Binds s bound vars binders bound')
    {limit : Nat} {ordinals ks : List Nat} (hlen : ordinals.length = bound.length)
    (hks : ks.length = binders.length) {step : α → Eval (ForInStep α)}
    {p : α × List (List Nat)} {r : ForInStep α}
    (h : ComesTo (ks.reverse ++ ordinals) limit (step p.1) r) :
    ComesTo (ks.reverse ++ ordinals) limit (Eval.noting binders step p)
      (mapStep (·, p.2 ++ [ks]) r) := by
  intro w hstands
  have hnote : (binders.map fun b => (w.slots[b.slot]?).getD 0) = ks := by
    have hmap := hstands.map_getD
    rwa [hlen, hks, ← hbinds.map_slot, List.map_map] at hmap
  have hmapped := h.map (mapStep (·, p.2 ++ [ks])) w hstands
  rw [map_eq_pure_bind] at hmapped
  rw [Eval.noting, run_bind_of_ok (rfl : (get : Eval Walk).run w = (.ok w, w)), hnote]
  exact hmapped

end LiftedPomdp
