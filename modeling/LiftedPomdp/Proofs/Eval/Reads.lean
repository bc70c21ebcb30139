import LiftedPomdp.Proofs.Eval.Visits

/-!
# What an evaluation depends on

Blocks have a part in an evaluation through the fluents that it reads.  When
every fluent that is visited has the same value with other blocks, so has the
whole evaluation, and it leaves the same walk behind.

Where nothing visited is out of bounds, every read finds an entry in its table,
so the defaults of the fluents have no part in the evaluation.
-/

namespace LiftedPomdp

open Effects

/-! ## Loops -/

namespace Eval

variable {α : Type} {s : Nat}

theorem overOrdinals_append (step : α → Eval (ForInStep α)) (xs ys : List Nat) (a : α) :
    overOrdinals s step (xs ++ ys) a = overOrdinals s step xs a >>= fun
      | .done a => pure (.done a)
      | .yield a => overOrdinals s step ys a := by
  induction xs generalizing a with
  | nil => rfl
  | cons o os ih =>
      rw [List.cons_append, overOrdinals, overOrdinals, bind_assoc]
      congr 1
      funext _
      rw [bind_assoc]
      congr 1
      funext r
      cases r with
      | done a => rfl
      | yield a => exact ih a

/-- Two loops over the same ordinals run alike when their steps do, wherever the
first loop takes them. -/
theorem run_overOrdinals_congr {step step' : α → Eval (ForInStep α)} {n : Nat} {a : α} {w : Walk}
    (h : ∀ k < n, ∀ a' w' w'',
      (overOrdinals s step (List.range k) a).run w = (.ok (.yield a'), w') →
        (setSlot s k).run w' = (.ok (), w'') → (step a').run w'' = (step' a').run w'') :
    (overOrdinals s step (List.range n) a).run w =
      (overOrdinals s step' (List.range n) a).run w := by
  induction n with
  | zero => rfl
  | succ n ih =>
      rw [List.range_succ, overOrdinals_append, overOrdinals_append]
      refine run_bind_congr (ih fun k hk => h k (Nat.lt_succ_of_lt hk)) fun r u hrun => ?_
      cases r with
      | done a => rfl
      | yield a' =>
          refine run_bind_congr rfl fun _ u' hwrite => ?_
          have hlast := h n (Nat.lt_succ_self n) a' u u' hrun hwrite
          refine run_bind_congr hlast fun r _ _ => ?_
          cases r with
          | done a => rfl
          | yield a => rfl

end Eval

/-- A block with another default. -/
def FluentBlock.withDefault (b : FluentBlock) (default : Value) : FluentBlock :=
  { b with default }

namespace Context

variable (c : Context) (blocks : Array FluentBlock)

/-- A context with other blocks. -/
def withBlocks : Context :=
  { c with blocks }

@[simp] theorem withBlocks_types : (c.withBlocks blocks).types = c.types := rfl

@[simp] theorem withBlocks_blocks : (c.withBlocks blocks).blocks = blocks := rfl

@[simp] theorem withBlocks_snapshot : (c.withBlocks blocks).snapshot = c.snapshot := rfl

/-- A context where the fluents have other defaults. -/
def withDefaults (default : FluentBlock → Value) : Context :=
  c.withBlocks (c.blocks.map fun b => b.withDefault (default b))

theorem run_overBindings_congr {α : Type} {step step' : α → Eval (ForInStep α)}
    {vars : List Binder} {a : α} {w : Walk}
    (h : ∀ q, c.Iterates step vars (a, w) q → (step q.1).run q.2 = (step' q.1).run q.2) :
    (c.overBindings step vars a).run w =
      ((c.withBlocks blocks).overBindings step' vars a).run w := by
  induction vars generalizing a w with
  | nil => exact h _ (.here _)
  | cons b bs ih =>
      rw [overBindings, overBindings, withBlocks_types]
      rcases htype : c.types[b.type]? with _ | t
      · rfl
      · refine Eval.run_overOrdinals_congr fun k hk a' w' w'' hearlier hwrite => ?_
        exact ih fun q hq => h q (.inner htype hk hearlier hwrite hq)

theorem run_combine_congr {body body' : Eval Value} {op : AggregateOp} {acc : Value} {w : Walk}
    (h : body.run w = body'.run w) :
    (c.combine body op acc).run w = ((c.withBlocks blocks).combine body' op acc).run w := by
  cases op with
  | «exists» => exact run_bind_congr (run_bind_congr h fun _ _ _ => rfl) fun _ _ _ => rfl
  | «forall» => exact run_bind_congr (run_bind_congr h fun _ _ _ => rfl) fun _ _ _ => rfl
  | sum => exact run_bind_congr h fun _ _ _ => rfl
  | prod => exact run_bind_congr h fun _ _ _ => rfl

end Context

/-! ## Nodes -/

namespace Node

variable {c : Context} {blocks : Array FluentBlock}

/-- Every fluent that the evaluation of a node reads has the same value with
other blocks. -/
def ReadsAlike (c : Context) (blocks : Array FluentBlock) (p : Node × Walk) : Prop :=
  ∀ fluent kind layer args w, Visits c p (.read fluent kind layer args, w) →
    (c.read fluent kind layer args).run w =
      ((c.withBlocks blocks).read fluent kind layer args).run w

theorem ReadsAlike.enter {p q : Node × Walk} (h : ReadsAlike c blocks p) (hq : Enters c p q) :
    ReadsAlike c blocks q :=
  fun _ _ _ _ _ hvisits => h _ _ _ _ _ (.head hq hvisits)

theorem run_truth_congr {x y : Eval Value} {w : Walk} (h : x.run w = y.run w) :
    (c.truth x).run w = ((c.withBlocks blocks).truth y).run w :=
  run_bind_congr h fun _ _ _ => rfl

theorem run_real_congr {x y : Eval Value} {w : Walk} (h : x.run w = y.run w) :
    (c.real x).run w = ((c.withBlocks blocks).real y).run w :=
  run_bind_congr h fun _ _ _ => rfl

mutual

/-- A node has the same value with other blocks when every fluent that it reads
has. -/
theorem run_value_congr (n : Node) (w : Walk) (h : ReadsAlike c blocks (n, w)) :
    (n.value c).run w = (n.value (c.withBlocks blocks)).run w := by
  cases n with
  | const v => rfl
  | read fluent kind layer args => exact h _ _ _ _ _ .refl
  | sameObject l r negate => rfl
  | not a =>
      rw [value, value]
      exact run_bind_congr (run_truth_congr (run_value_congr a w (h.enter .not))) fun _ _ _ => rfl
  | and as =>
      rw [value, value]
      refine run_bind_congr ?_ fun _ _ _ => rfl
      refine run_allTrue_congr as w fun before a after u hsplit hearlier => h.enter ?_
      exact hsplit ▸ .and hearlier
  | or as =>
      rw [value, value]
      refine run_bind_congr ?_ fun _ _ _ => rfl
      refine run_someTrue_congr as w fun before a after u hsplit hearlier => h.enter ?_
      exact hsplit ▸ .or hearlier
  | implies l r =>
      rw [value, value]
      refine run_bind_congr (run_truth_congr (run_value_congr l w (h.enter .impliesLeft)))
        fun b u hl => ?_
      cases b with
      | true =>
          exact run_bind_congr (run_truth_congr (run_value_congr r u (h.enter (.impliesRight hl))))
            fun _ _ _ => rfl
      | false => rfl
  | equiv l r =>
      rw [value, value]
      refine run_bind_congr (run_truth_congr (run_value_congr l w (h.enter .equivLeft)))
        fun b u hl => ?_
      exact run_bind_congr (run_truth_congr (run_value_congr r u (h.enter (.equivRight hl))))
        fun _ _ _ => rfl
  | compare op l r =>
      rw [value, value]
      refine run_bind_congr (run_value_congr l w (h.enter .compareLeft)) fun v u hl => ?_
      exact run_bind_congr (run_value_congr r u (h.enter (.compareRight hl))) fun _ _ _ => rfl
  | arith op l r =>
      rw [value, value]
      refine run_bind_congr (run_value_congr l w (h.enter .arithLeft)) fun v u hl => ?_
      exact run_bind_congr (run_value_congr r u (h.enter (.arithRight hl))) fun _ _ _ => rfl
  | neg a =>
      rw [value, value]
      exact run_bind_congr (run_value_congr a w (h.enter .neg)) fun _ _ _ => rfl
  | ite cond t e =>
      rw [value, value]
      refine run_bind_congr (run_truth_congr (run_value_congr cond w (h.enter .condition)))
        fun b u hcond => ?_
      cases b with
      | true => exact run_value_congr t u (h.enter (.thenBranch hcond))
      | false => exact run_value_congr e u (h.enter (.elseBranch hcond))
  | aggregate op vars body =>
      rw [value, value]
      refine run_bind_congr ?_ fun _ _ _ => rfl
      refine c.run_overBindings_congr blocks fun q hq => ?_
      exact c.run_combine_congr blocks (run_value_congr body q.2 (h.enter (.body hq)))
  | kronDelta a =>
      rw [value, value]
      exact run_bind_congr (run_value_congr a w (h.enter .kronDelta)) fun _ _ _ => rfl
  | diracDelta a =>
      rw [value, value]
      exact run_bind_congr (run_real_congr (run_value_congr a w (h.enter .diracDelta)))
        fun _ _ _ => rfl
  | bernoulli p =>
      rw [value, value]
      exact run_bind_congr (run_real_congr (run_value_congr p w (h.enter .bernoulli)))
        fun _ _ _ => rfl
  | uniform l u =>
      rw [value, value]
      refine run_bind_congr (run_real_congr (run_value_congr l w (h.enter .low)))
        fun x v hl => ?_
      exact run_bind_congr (run_real_congr (run_value_congr u v (h.enter (.high hl))))
        fun _ _ _ => rfl

theorem run_allTrue_congr (as : List Node) (w : Walk)
    (h : ∀ before a after u, as = before ++ a :: after →
      (allTrue c before).run w = (.ok true, u) → ReadsAlike c blocks (a, u)) :
    (allTrue c as).run w = (allTrue (c.withBlocks blocks) as).run w := by
  cases as with
  | nil => rfl
  | cons a as =>
      rw [allTrue, allTrue]
      refine run_bind_congr (run_truth_congr (run_value_congr a w (h [] a as w rfl rfl)))
        fun b u hfirst => ?_
      cases b with
      | true =>
          -- seen from the whole list, the operands before `a'` begin with the one just evaluated
          refine run_allTrue_congr as u fun before a' after v hsplit hearlier => ?_
          refine h (a :: before) a' after v (by rw [hsplit]; rfl) ?_
          rw [allTrue]
          exact (run_bind_of_ok hfirst).trans hearlier
      | false => rfl

theorem run_someTrue_congr (as : List Node) (w : Walk)
    (h : ∀ before a after u, as = before ++ a :: after →
      (someTrue c before).run w = (.ok false, u) → ReadsAlike c blocks (a, u)) :
    (someTrue c as).run w = (someTrue (c.withBlocks blocks) as).run w := by
  cases as with
  | nil => rfl
  | cons a as =>
      rw [someTrue, someTrue]
      refine run_bind_congr (run_truth_congr (run_value_congr a w (h [] a as w rfl rfl)))
        fun b u hfirst => ?_
      cases b with
      | true => rfl
      | false =>
          refine run_someTrue_congr as u fun before a' after v hsplit hearlier => ?_
          refine h (a :: before) a' after v (by rw [hsplit]; rfl) ?_
          rw [someTrue]
          exact (run_bind_of_ok hfirst).trans hearlier

end

/-- So has its distribution. -/
theorem run_distribution_congr (n : Node) (w : Walk) (h : ReadsAlike c blocks (n, w)) :
    (n.distribution c).run w = (n.distribution (c.withBlocks blocks)).run w := by
  cases n with
  | ite cond t e =>
      rw [distribution, distribution]
      refine run_bind_congr (run_truth_congr (run_value_congr cond w (h.enter .condition)))
        fun b u hcond => ?_
      cases b with
      | true => exact run_distribution_congr t u (h.enter (.thenBranch hcond))
      | false => exact run_distribution_congr e u (h.enter (.elseBranch hcond))
  | kronDelta a => exact run_bind_congr (run_value_congr a w (h.enter .kronDelta)) fun _ _ _ => rfl
  | diracDelta a =>
      exact run_bind_congr (run_real_congr (run_value_congr a w (h.enter .diracDelta)))
        fun _ _ _ => rfl
  | bernoulli p =>
      exact run_bind_congr (run_real_congr (run_value_congr p w (h.enter .bernoulli)))
        fun _ _ _ => rfl
  | uniform l u =>
      refine run_bind_congr (run_real_congr (run_value_congr l w (h.enter .low)))
        fun x v hl => ?_
      exact run_bind_congr (run_real_congr (run_value_congr u v (h.enter (.high hl))))
        fun _ _ _ => rfl
  | _ => exact run_bind_congr (run_value_congr _ w h) fun _ _ _ => rfl

/-! ## Defaults -/

/-- Where no read is out of bounds, the defaults of the fluents have no part in
it. -/
theorem readsAlike_of_inBounds {p : Node × Walk} (default : FluentBlock → Value)
    (h : ∀ q, Visits c p q → c.InBounds q.2 q.1) :
    ReadsAlike c (c.blocks.map fun b => b.withDefault (default b)) p := by
  intro fluent kind layer args w hvisits
  obtain ⟨b, hb, _, _, o, hoffset, _, v, hentry, _⟩ := h _ hvisits
  have hb' : (c.blocks.map fun b => b.withDefault (default b))[fluent]? =
      some (b.withDefault (default b)) := by
    rw [Array.getElem?_map, hb]
    rfl
  unfold Context.read
  rw [Context.withBlocks_blocks, hb, hb']
  refine run_bind_congr rfl fun k u hk => ?_
  obtain ⟨rfl, rfl⟩ : k = o ∧ u = w := by
    have hpair := Prod.mk.inj (hk.symm.trans hoffset)
    exact ⟨Except.ok.inj hpair.1, hpair.2⟩
  simp only [Context.withBlocks_snapshot, FluentBlock.withDefault, hentry, Option.getD_some]

end Node
end LiftedPomdp
