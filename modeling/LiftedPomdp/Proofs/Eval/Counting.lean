import LiftedPomdp.Proofs.Eval.Enumeration
import LiftedPomdp.Proofs.Eval.Quiet
import LiftedPomdp.Proofs.Eval.Slots
import LiftedPomdp.Proofs.Ground.Grounded

/-!
# Aggregates count

An aggregate of booleans is decided by the number of bindings of its variables
that make its body true: a sum is this number, a product and a universal
quantifier tell whether all bindings do, and an existential quantifier whether
one does.  A body without distributions has the same value from every walk in
which its variables stand for the same objects, so that neither what aggregates
inside it have left in the slots nor the place in the random stream matters.
Sums and products visit each binding once; a quantifier stops at the first
binding that decides it.
-/

namespace LiftedPomdp

open Effects

/-! ## Bodies -/

/-- What an expression without coins and uniform reals comes to from one walk,
it comes to from all walks in which its variables stand for the same objects. -/
theorem Lowers.comesTo {c : Compiler} {limit : Nat} {bound : List Binding} {e : Expr} {n : Node}
    (hlowers : Lowers c limit bound e n) (hsteady : e.Steady) {context : Context}
    {ordinals : List Nat} (hlen : ordinals.length = bound.length) {u : Walk}
    (hstands : Stands ordinals limit u) {v : Value}
    (hvalue : ((n.value context).run u).1 = .ok v) :
    Eval.ComesTo ordinals limit (n.value context) v := by
  intro w hw
  -- the random stream is exchanged first and the slots after it
  obtain ⟨r, t, u', ht, hu', hend⟩ := hlowers.apart_value hsteady context u.sampler w.sampler
    u { u with sampler := w.sampler } ⟨rfl, rfl, rfl⟩
  obtain rfl : r = .ok v := by rw [← hvalue, ht]
  have hbeside : Beside ordinals limit { u with sampler := w.sampler } w :=
    ⟨⟨hstands.leading, hstands.room⟩, hw, rfl⟩
  obtain ⟨w', hw', hbeside'⟩ := (hlowers.local context hlen).run_ok hbeside hu'
  exact ⟨w', hw', hbeside'.right, hbeside'.sampler.symm.trans hend.right⟩

/-! ## Booleans taken into account -/

theorem int64?_natCast {n : Nat} (h : n < 2 ^ 63) : int64? n = some (Int64.ofNat n) := by
  have hmin : Int64.minValue.toInt = -9223372036854775808 := rfl
  have hmax : Int64.maxValue.toInt = 9223372036854775807 := rfl
  rw [int64?, if_pos (by omega), Int64.ofInt_eq_ofNat]

namespace Value

theorem arith?_add_bool {j : Nat} (h : j + 1 < 2 ^ 63) (b : Bool) :
    arith? .add (.int (Int64.ofNat j)) (.bool b) =
      some (.int (Int64.ofNat (j + if b then 1 else 0))) := by
  have hj : (Int64.ofNat j).toInt = j := Int64.toInt_ofNat_of_lt (by omega)
  have hb : (if b then (1 : Int64) else 0).toInt = ((if b then 1 else 0 : Nat) : Int) := by
    rcases b
    · rfl
    · rfl
  have hsum : j + (if b then 1 else 0) < 2 ^ 63 := by
    split
    · exact h
    · omega
  have hint : integerResult? .add (.int (Int64.ofNat j)) (.bool b) =
      some (Int64.ofNat (j + if b then 1 else 0)) := by
    rw [← int64?_natCast hsum, Int.natCast_add, ← hj, ← hb]
    rfl
  rw [arith?, hint]

theorem arith?_mul_bool {m : Int64} (hm : m = 0 ∨ m = 1) (b : Bool) :
    arith? .mul (.int m) (.bool b) = some (.int (if b then m else 0)) := by
  rcases hm with rfl | rfl
  · rcases b
    · rfl
    · rfl
  · rcases b
    · rfl
    · rfl

/-- Only division can have no result. -/
theorem exists_arith? {op : ArithOp} (hop : op ≠ .div) (v v' : Value) :
    ∃ r, arith? op v v' = some r := by
  rw [arith?]
  rcases integerResult? op v v' with _ | k
  · cases op with
    | add => exact ⟨_, rfl⟩
    | sub => exact ⟨_, rfl⟩
    | mul => exact ⟨_, rfl⟩
    | div => exact absurd rfl hop
  · exact ⟨.int k, rfl⟩

end Value

namespace AggregateOp

/-- How an aggregate takes one more boolean into account. -/
def tally : AggregateOp → Value → Bool → ForInStep Value
  | .exists, acc, b => if b then .done (.bool true) else .yield acc
  | .forall, acc, b => if b then .yield acc else .done (.bool false)
  | .sum, acc, b => .yield ((Value.arith? .add acc (.bool b)).getD acc)
  | .prod, acc, b => .yield ((Value.arith? .mul acc (.bool b)).getD acc)

/-- The aggregate of so many booleans in total, of which so many are true. -/
def counted : AggregateOp → (count total : Nat) → Value
  | .exists, count, _ => .bool (decide (0 < count))
  | .forall, count, total => .bool (decide (count = total))
  | .sum, count, _ => .int (Int64.ofNat count)
  | .prod, count, total => .int (if count = total then 1 else 0)

variable {κ : Type} (p : κ → Bool)

theorem goThrough_tally_exists (ks : List κ) :
    (goThrough (fun acc k => tally .exists acc (p k)) ks (.bool false)).value =
      counted .exists (ks.countP p) ks.length := by
  induction ks with
  | nil => rfl
  | cons k ks ih =>
      rw [goThrough, List.countP_cons]
      by_cases hk : p k = true
      · simp [tally, counted, hk]
      · have hgo : tally .exists (.bool false) (p k) = .yield (.bool false) := by simp [tally, hk]
        rw [hgo, if_neg hk]
        exact ih

theorem goThrough_tally_forall (ks : List κ) :
    (goThrough (fun acc k => tally .forall acc (p k)) ks (.bool true)).value =
      counted .forall (ks.countP p) ks.length := by
  induction ks with
  | nil => rfl
  | cons k ks ih =>
      rw [goThrough, List.countP_cons]
      by_cases hk : p k = true
      · have hgo : tally .forall (.bool true) (p k) = .yield (.bool true) := by simp [tally, hk]
        rw [hgo]
        simpa only [counted, if_pos hk, List.length_cons, Nat.add_right_cancel_iff] using ih
      · have hle := List.countP_le_length (p := p) (l := ks)
        have hne : ks.countP p ≠ ks.length + 1 := by omega
        simp [tally, counted, hk, hne]

/-- A sum that starts from a number goes on counting from there, as long as the
numbers have 64 bits. -/
theorem goThrough_tally_sum (ks : List κ) (j : Nat) (h : j + ks.length < 2 ^ 63) :
    goThrough (fun acc k => tally .sum acc (p k)) ks (.int (Int64.ofNat j)) =
      .yield (.int (Int64.ofNat (j + ks.countP p))) := by
  induction ks generalizing j with
  | nil => rfl
  | cons k ks ih =>
      rw [List.length_cons] at h
      have hle : j + (if p k then 1 else 0) ≤ j + 1 := by split <;> omega
      rw [goThrough, tally, Value.arith?_add_bool (by omega), Option.getD_some, List.countP_cons]
      dsimp only
      rw [ih _ (by omega), Nat.add_assoc, Nat.add_comm (ks.countP p)]

theorem goThrough_tally_prod (ks : List κ) {m : Int64} (hm : m = 0 ∨ m = 1) :
    goThrough (fun acc k => tally .prod acc (p k)) ks (.int m) =
      .yield (.int (if ks.countP p = ks.length then m else 0)) := by
  induction ks generalizing m with
  | nil => rfl
  | cons k ks ih =>
      rw [goThrough, tally, Value.arith?_mul_bool hm, Option.getD_some, List.countP_cons]
      dsimp only
      by_cases hk : p k = true
      · rw [if_pos hk, if_pos hk, ih hm, List.length_cons]
        simp only [Nat.add_right_cancel_iff]
      · have hle := List.countP_le_length (p := p) (l := ks)
        have hne : ks.countP p + 0 ≠ (k :: ks).length := by rw [List.length_cons]; omega
        rw [if_neg hk, if_neg hk, ih (.inl rfl), if_neg hne, ite_self]

/-- An aggregate of booleans is decided by how many of them are true.  Sums and
products do not stop early. -/
theorem goThrough_tally (op : AggregateOp) (ks : List κ) (h : ks.length < 2 ^ 63) :
    let r := goThrough (fun acc k => op.tally acc (p k)) ks (Context.start op)
    r.value = op.counted (ks.countP p) ks.length ∧
      (op = .sum ∨ op = .prod → ∃ v, r = .yield v) := by
  intro r
  cases op with
  | «exists» => exact ⟨goThrough_tally_exists p ks, fun hop => by simp at hop⟩
  | «forall» => exact ⟨goThrough_tally_forall p ks, fun hop => by simp at hop⟩
  | sum =>
      have hr : r = .yield (.int (Int64.ofNat (0 + ks.countP p))) :=
        goThrough_tally_sum p ks 0 (by omega)
      rw [hr, Nat.zero_add]
      exact ⟨rfl, fun _ => ⟨_, rfl⟩⟩
  | prod =>
      have hr : r = .yield (.int (if ks.countP p = ks.length then 1 else 0)) :=
        goThrough_tally_prod p ks (.inr rfl)
      rw [hr]
      exact ⟨rfl, fun _ => ⟨_, rfl⟩⟩

end AggregateOp

namespace Eval.ComesTo

variable {c : Context} {ordinals : List Nat} {limit : Nat} {body : Eval Value} {b : Bool}

theorem truth (h : ComesTo ordinals limit body (.bool b)) :
    ComesTo ordinals limit (c.truth body) b :=
  h.bind (value b)

theorem arith {op : ArithOp} (hop : op ≠ .div) (v v' : Value) :
    ComesTo ordinals limit (c.arith op v v') ((Value.arith? op v v').getD v) := by
  obtain ⟨r, hr⟩ := Value.exists_arith? hop v v'
  rw [Context.arith, hr]
  exact value r

theorem combine (h : ComesTo ordinals limit body (.bool b)) (op : AggregateOp) (acc : Value) :
    ComesTo ordinals limit (c.combine body op acc) (op.tally acc b) := by
  cases op with
  | «exists» =>
      refine h.truth.bind ?_
      rcases b
      · exact value _
      · exact value _
  | «forall» =>
      refine h.truth.bind ?_
      rcases b
      · exact value _
      · exact value _
  | sum => exact h.bind ((arith (by decide) acc _).bind (value _))
  | prod => exact h.bind ((arith (by decide) acc _).bind (value _))

end Eval.ComesTo

/-! ## Aggregates -/

/-- The loop of an aggregate, which notes the bindings that it evaluates its
body for. -/
def Context.noted (c : Context) (op : AggregateOp) (vars : List Binder) (body : Eval Value) :
    Eval (ForInStep (Value × List (List Nat))) :=
  c.overBindings (Eval.noting vars (c.combine body op)) vars (start op, [])

/-- An aggregate is its loop without the notes. -/
theorem Context.aggregate_eq_noted (c : Context) (op : AggregateOp) (vars : List Binder)
    (body : Eval Value) :
    c.aggregate op vars body = (fun r => r.value.1) <$> c.noted op vars body := by
  have hvalue : c.aggregate op vars body =
      ForInStep.value <$> c.overBindings (c.combine body op) vars (start op) := by
    rw [aggregate, map_eq_pure_bind]
    apply bind_congr
    intro r
    rcases r with v | v
    · rfl
    · rfl
  rw [hvalue, ← c.fst_overBindings_noting vars (c.combine body op) vars (start op, []),
    Functor.map_map, noted]
  congr 1
  funext r
  exact value_mapStep Prod.fst r

/-- Where a body without distributions is a boolean for each binding, the loop of an
aggregate comes to what its operator makes of these booleans, with the bindings
noted. -/
theorem Lowers.noted_comesTo {c : Compiler} {limit : Nat} {bound bound' : List Binding} {e : Expr}
    {n : Node} {vars : List TypedVar} {binders : List Binder}
    (hbinds : Binds c.scope bound vars binders bound') (hlimit : bound'.length ≤ limit)
    (hlowers : Lowers c limit bound' e n) (hsteady : e.Steady) {context : Context}
    (htypes : context.types = c.scope.types) {ordinals : List Nat}
    (hlen : ordinals.length = bound.length) {p : List Nat → Bool}
    (hbody : ∀ ks ∈ context.bindings binders, ∃ u, Stands (ks.reverse ++ ordinals) limit u ∧
      ((n.value context).run u).1 = .ok (.bool (p ks))) (op : AggregateOp) :
    Eval.ComesTo ordinals limit (context.noted op binders (n.value context))
      (goThrough (fun q ks => mapStep (·, q.2 ++ [ks]) (op.tally q.1 (p ks)))
        (context.bindings binders) (Context.start op, [])) := by
  refine Eval.ComesTo.overBindings htypes hbinds hlimit hlen (fun ks hks q => ?_) _
  obtain ⟨u, hu, hvalue⟩ := hbody ks hks
  have hks : ks.length = binders.length :=
    ((context.mem_bindings_iff.mp hks).length_eq).trans (List.length_map _)
  have hinner : (ks.reverse ++ ordinals).length = bound'.length := by
    rw [hbinds.length_eq, List.length_append, List.length_reverse, hks, hlen, Nat.add_comm]
  exact .noting hbinds hlen hks ((hlowers.comesTo hsteady hinner hu hvalue).combine op q.1)

/-- What an operator makes of some booleans with their bindings noted: it counts,
and has noted the first bindings, or all of them if it is a sum or a product. -/
theorem AggregateOp.goThrough_tally_noted {κ : Type} (op : AggregateOp) (p : κ → Bool) (ks : List κ)
    (h : ks.length < 2 ^ 63) :
    ∃ visited, visited <+: ks ∧
      (goThrough (fun q k => mapStep (·, q.2 ++ [k]) (op.tally q.1 (p k))) ks
        (Context.start op, [])).value = (op.counted (ks.countP p) ks.length, visited) ∧
      (op = .sum ∨ op = .prod → visited = ks) := by
  obtain ⟨visited, hprefix, hnoted, hall⟩ :=
    goThrough_noted (fun acc k => op.tally acc (p k)) ks (Context.start op) []
  obtain ⟨hvalue, hyield⟩ := op.goThrough_tally p ks h
  refine ⟨visited, hprefix, ?_, fun hop => ?_⟩
  · rw [hnoted, value_mapStep, hvalue, List.nil_append]
  · obtain ⟨v, hv⟩ := hyield hop
    exact hall v hv

namespace Compiler

/-- The aggregates agree with counting.  If the body of an aggregate has no
distributions and is a boolean for each binding of the variables, and there are
fewer than 2⁶³ bindings, then the number of bindings that make it true decides
the aggregate.  The bindings are all the tuples of ordinals below the sizes of
the types of the variables.  Sums and products visit each of them once, in this
order, and quantifiers some of the first ones; the ordinals of the variables
around the aggregate and the random stream stay as they are. -/
theorem aggregates_count {c : Compiler} {bound : List Binding} {f f' : Footprint}
    {op : AggregateOp} {vars : List TypedVar} {e : Expr} {binders : List Binder} {n : Node}
    {context : Context} {ordinals : List Nat} {w : Walk} {p : List Nat → Bool}
    (hlower : (c.lower bound (.aggregate op vars e)).run f = .ok (.aggregate op binders n, f'))
    (hpure : e.hasDistribution = false) (htypes : context.types = c.scope.types)
    (hlen : ordinals.length = bound.length) (hstands : Stands ordinals f'.slots w)
    (hbody : ∀ ks ∈ context.bindings binders, ∃ u, Stands (ks.reverse ++ ordinals) f'.slots u ∧
      ((n.value context).run u).1 = .ok (.bool (p ks)))
    (hsmall : tupleCount (context.sizes binders) < 2 ^ 63) :
    let bindings := context.bindings binders
    let total := tupleCount (context.sizes binders)
    let count := bindings.countP p
    List.Forall₂ (fun v b => c.scope.type? v.typeName = some b.type) vars binders ∧
      (∀ ks, ks ∈ bindings ↔ FluentBlock.InRange ks (context.sizes binders)) ∧
      bindings.Nodup ∧ bindings.length = total ∧ (Int64.ofNat count).toInt = count ∧
      (Node.aggregate op binders n).value context =
        (fun r => r.value.1) <$> context.noted op binders (n.value context) ∧
      ∃ r visited w', (context.noted op binders (n.value context)).run w = (.ok r, w') ∧
        ((Node.aggregate op binders n).value context).run w =
          (.ok (op.counted count total), w') ∧
        r.value = (op.counted count total, visited) ∧ visited <+: bindings ∧
        (op = .sum ∨ op = .prod → visited = bindings) ∧
        Stands ordinals f'.slots w' ∧ w'.sampler = w.sampler := by
  intro bindings total count
  have htotal : bindings.length = total := context.length_bindings binders
  have hcount : count < 2 ^ 63 := Nat.lt_of_le_of_lt (List.countP_le_length.trans_eq htotal) hsmall
  have hsteady := Expr.steady_of_hasDistribution hpure
  cases (lower_spec _ hlower).2 f'.slots (Nat.le_refl _) with
  | @aggregate _ bound' _ _ _ _ _ _ binds within body =>
      obtain ⟨w', hrun, hstands', hsampler⟩ :=
        body.noted_comesTo binds within hsteady htypes hlen hbody op w hstands
      obtain ⟨visited, hprefix, hr, hall⟩ := op.goThrough_tally_noted p bindings (htotal ▸ hsmall)
      rw [htotal] at hr
      have haggregate : (Node.aggregate op binders n).value context =
          (fun r => r.value.1) <$> context.noted op binders (n.value context) := by
        rw [Node.value, context.aggregate_eq_noted]
      refine ⟨binds.forall₂, fun ks => context.mem_bindings_iff, context.nodup_bindings binders,
        htotal, Int64.toInt_ofNat_of_lt hcount, haggregate, _, visited, w', hrun, ?_, hr, hprefix,
        hall, hstands', hsampler⟩
      rw [haggregate, map_eq_pure_bind, run_bind_of_ok hrun, hr]
      rfl

/-- Two of the six pairs of a lamp and a room have the room of the second lamp. -/
theorem aggregates_count_lamps :
    let c : Compiler := { scope := Lamps.scope, site := .reward, label := "pairs" }
    let context := Lamps.model.context (.current Lamps.model.nonFluents Lamps.model.initialState
      Lamps.model.defaultAction) "pairs"
    let vars : List TypedVar :=
      [{ var := "x", typeName := "lamp" }, { var := "x", typeName := "room" }]
    let body : Expr := .fluent "IN" [.object "l1", .var "x"] false
    let binders : List Binder := [{ slot := 0, type := 0 }, { slot := 1, type := 1 }]
    let n : Node := .read 1 .nonFluent .current [.object 1, .slot 1]
    let w : Walk := { slots := #[0, 0], sampler := .ofSeed 0 }
    ∀ op : AggregateOp,
      (c.lower [] (.aggregate op vars body)).run { slots := 0, reads := [] } =
          .ok (.aggregate op binders n, { slots := 2, reads := [] }) ∧
        body.hasDistribution = false ∧ context.types = c.scope.types ∧ Stands [] 2 w ∧
        (∀ ks ∈ context.bindings binders, ∃ u, Stands (ks.reverse ++ []) 2 u ∧
          ((n.value context).run u).1 = .ok (.bool (ks[1]? == some 2))) ∧
        tupleCount (context.sizes binders) = 6 ∧
        ∃ w', ((Node.aggregate op binders n).value context).run w =
          (.ok (op.counted 2 6), w') := by
  intro c context vars body binders n w op
  have hlower : (c.lower [] (.aggregate op vars body)).run { slots := 0, reads := [] } =
      .ok (.aggregate op binders n, { slots := 2, reads := [] }) := by
    have hlamp : Lamps.scope.type? "lamp" = some 0 := by decide +kernel
    have hroom : Lamps.scope.type? "room" = some 1 := by decide +kernel
    have hfluent : Lamps.scope.fluent? "IN" = some 1 := by decide +kernel
    obtain ⟨b, hblock, hfields⟩ := Option.map_eq_some_iff.mp (by decide +kernel :
      Lamps.scope.blocks[1]?.map (fun b => (b.kind, b.params)) = some (.nonFluent, [0, 1]))
    obtain ⟨hkind, hparams⟩ := Prod.mk.inj hfields
    have hobject : Lamps.scope.ordinal? 0 "l1" = some 1 := by decide +kernel
    simp [c, vars, body, binders, n, lower, bind, read, checkRead, arguments, argument, lookup,
      Binding.find?, Footprint.useSlots, hlamp, hroom, hfluent, hblock, hkind, hparams, hobject]
  have hbindings : context.bindings binders =
      [[0, 0], [0, 1], [0, 2], [1, 0], [1, 1], [1, 2]] := by decide +kernel
  have hbody : ∀ ks ∈ context.bindings binders, ∃ u, Stands (ks.reverse ++ []) 2 u ∧
      ((n.value context).run u).1 = .ok (.bool (ks[1]? == some 2)) := by
    have hvalues : ∀ ks ∈ context.bindings binders, ks.length = 2 ∧
        ((n.value context).run { slots := ks.toArray, sampler := .ofSeed 0 }).1 =
          .ok (.bool (ks[1]? == some 2)) := by
      rw [hbindings]
      decide +kernel
    intro ks hks
    obtain ⟨htwo, hvalue⟩ := hvalues ks hks
    exact ⟨_, ⟨by simp, by simp [htwo]⟩, hvalue⟩
  have hpure : body.hasDistribution = false := by decide +kernel
  have hstands : Stands [] 2 w := ⟨List.nil_prefix, Nat.le_refl 2⟩
  have hsix : tupleCount (context.sizes binders) = 6 := by decide +kernel
  obtain ⟨_, _, _, _, _, _, _, _, w', _, hrun, _⟩ :=
    aggregates_count hlower hpure rfl rfl hstands hbody (by omega)
  refine ⟨hlower, hpure, rfl, hstands, hbody, hsix, w', ?_⟩
  rw [hrun, hsix, hbindings]
  rfl

end Compiler
end LiftedPomdp
