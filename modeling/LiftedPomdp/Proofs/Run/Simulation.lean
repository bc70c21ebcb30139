import LiftedPomdp.Proofs.Eval.Slots
import LiftedPomdp.Proofs.Run.Typing

/-!
# Steps do not see what earlier steps left in the scratch space

Two workspaces run alongside up to a place when they agree on the observations
computed so far, on the sampler, and on the next state below that place.  A
step starts with nothing written.  The functions of the state fill the next
state from its start to its end, without a gap, before anything reads it, and
every evaluation binds the slots that it reads.  So two steps from the same
state end in the same way, whatever the scratch space held before.
-/

namespace LiftedPomdp

open Effects Grounding

/-- A workspace with a place for each ground state fluent and with enough slots
for every expression. -/
structure Roomy (m : Model) (w : Workspace) : Prop where
  next : w.next.size = m.groundCount .state
  slots : m.maxSlots ≤ w.slots.size

/-- Two workspaces that differ at most in the next state from a place on and in
the slots. -/
structure Alongside (m : Model) (place : Nat) (w w' : Workspace) : Prop where
  left : Roomy m w
  right : Roomy m w'
  observed : w.observed = w'.observed
  sampler : w.sampler = w'.sampler
  written : ∀ n < place, w.next[n]? = w'.next[n]?

/-- A part of a step that leads from workspaces alongside up to a place to
workspaces alongside up to another, with the same result. -/
abbrev Advances {α : Type} (m : Model) (x : Work α) (place place' : Nat) : Prop :=
  Parallel (Alongside m place) x x (Alongside m place') fun w w' => Roomy m w ∧ Roomy m w'

namespace Alongside

variable {m : Model} {place : Nat} {w w' : Workspace}

theorem roomy (h : Alongside m place w w') : Roomy m w ∧ Roomy m w' :=
  ⟨h.left, h.right⟩

/-- A next state that has been written to its end is the same on both sides. -/
theorem next_eq (h : Alongside m (m.groundCount .state) w w') : w.next = w'.next := by
  apply Array.ext_getElem?
  intro n
  by_cases hn : n < m.groundCount .state
  · exact h.written n hn
  · have hleft : w.next.size ≤ n := by
      rw [h.left.next]
      omega
    have hright : w'.next.size ≤ n := by
      rw [h.right.next]
      omega
    rw [Array.getElem?_eq_none hleft, Array.getElem?_eq_none hright]

/-- Then only the slots may differ. -/
theorem eq_with_slots (h : Alongside m (m.groundCount .state) w w') :
    w' = { w with slots := w'.slots } := by
  rw [h.next_eq, h.observed, h.sampler]

end Alongside

namespace Advances

variable {m : Model} {place place' place'' : Nat} {α β : Type}

theorem value (a : α) : Advances m (pure a) place place :=
  Parallel.value a fun _ _ halong => halong

theorem error (e : Fault SimError) : Advances m (throw e : Work α) place place' :=
  Parallel.error e fun _ _ halong => halong.roomy

theorem bind {x : Work α} {f : α → Work β} (hx : Advances m x place place')
    (hf : ∀ a, Advances m (f a) place' place'') : Advances m (x >>= f) place place'' :=
  Parallel.bind hx hf

/-- An evaluation that sees nothing but some leading slots, once they are the
same. -/
theorem eval (place : Nat) {x : Eval α} {ordinals : List Nat}
    (hx : Local ordinals m.maxSlots x) :
    Parallel (fun w w' => Alongside m place w w' ∧ ordinals.reverse <+: w.slots.toList ∧
        ordinals.reverse <+: w'.slots.toList) (Work.eval x) (Work.eval x)
      (Alongside m place) fun w w' => Roomy m w ∧ Roomy m w' := by
  rintro w w' ⟨halong, hleft, hright⟩
  have hbeside : Beside ordinals m.maxSlots w.walk w'.walk :=
    ⟨⟨hleft, halong.left.slots⟩, ⟨hright, halong.right.slots⟩, halong.sampler⟩
  obtain ⟨r, u, u', hu, hu', hend⟩ := hx w.walk w'.walk hbeside
  have hafter : Beside ordinals m.maxSlots u u' := hend.of_same
  refine ⟨_, _, _, Work.run_eval hu, Work.run_eval hu', ?_⟩
  have hleft' : Roomy m { w with slots := u.slots, sampler := u.sampler } :=
    ⟨halong.left.next, hafter.left.room⟩
  have hright' : Roomy m { w' with slots := u'.slots, sampler := u'.sampler } :=
    ⟨halong.right.next, hafter.right.room⟩
  cases r with
  | error e => exact ⟨hleft', hright'⟩
  | ok a => exact ⟨hleft', hright', halong.observed, hafter.sampler, halong.written⟩

/-- An evaluation without parameters. -/
theorem eval_closed {x : Eval α} (hx : Local [] m.maxSlots x) :
    Advances m (Work.eval x) place place :=
  (eval place hx).mono (fun _ _ halong => ⟨halong, List.nil_prefix, List.nil_prefix⟩)
    (fun _ _ halong => halong) fun _ _ hroomy => hroomy

end Advances

/-! ## Bodies -/

theorem Model.slots_le_maxSlots {m : Model} {body : Compiled} (h : body ∈ m.expressions) :
    body.slots ≤ m.maxSlots := by
  unfold Model.maxSlots
  generalize m.expressions = bodies at h
  induction bodies with
  | nil => cases h
  | cons other bodies ih =>
      rw [List.map_cons, List.foldr_cons]
      rcases List.mem_cons.mp h with rfl | hmem
      · exact Nat.le_max_left _ _
      · exact Nat.le_trans (ih hmem) (Nat.le_max_right _ _)

theorem Model.slots_cpf_le_maxSlots {m : Model} {cpf : Cpf}
    (h : cpf ∈ m.stateCpfs ++ m.observationCpfs) : cpf.body.slots ≤ m.maxSlots := by
  apply slots_le_maxSlots
  unfold expressions
  rw [← List.map_append]
  exact List.mem_append_left _ (List.mem_map_of_mem h)

theorem FluentBlock.length_rowStrides (sizes : List Nat) :
    (rowStrides sizes).length = sizes.length := by
  induction sizes with
  | nil => rfl
  | cons n sizes ih => rw [rowStrides, List.length_cons, ih, List.length_cons]

theorem FluentBlock.length_ordinalsAt (strides : List Nat) (place : Nat) :
    (FluentBlock.ordinalsAt strides place).length = strides.length := by
  induction strides generalizing place with
  | nil => rfl
  | cons s strides ih => rw [FluentBlock.ordinalsAt, List.length_cons, ih, List.length_cons]

namespace Grounded

variable {d : Domain} {i : Instance} {m : Model}

theorem length_ordinals (h : Grounded d i m) {b : FluentBlock} (hb : b ∈ m.blocks)
    (place : Nat) : (b.ordinals place).length = b.params.length := by
  rw [h.ordinals_eq hb, FluentBlock.length_ordinalsAt, FluentBlock.length_rowStrides,
    List.length_map]

/-- The body of a function sees nothing but the ordinals of its parameters. -/
theorem local_cpf (h : Grounded d i m) {cpf : Cpf}
    (hcpf : cpf ∈ m.stateCpfs ++ m.observationCpfs) {b : FluentBlock}
    (hb : m.blocks[cpf.target]? = some b) {ordinals : List Nat}
    (hlen : ordinals.length = b.params.length) (s : Snapshot) :
    ordinals.length ≤ m.maxSlots ∧ Local ordinals m.maxSlots (m.value s cpf.body) := by
  obtain ⟨c, _, b', e, hcompiled, rfl⟩ := h.exists_decl hcpf
  obtain rfl := Option.some.inj (hb.symm.trans hcompiled.block)
  obtain ⟨site, _, label, hbody⟩ := hcompiled.body
  obtain ⟨hle, hlowers⟩ := Compiler.compile_spec hbody
  have hslots := Model.slots_cpf_le_maxSlots hcpf
  have hparams : (List.zipWith Binding.mk c.params b.params).length = b.params.length := by
    rw [List.length_zipWith, hcompiled.arity, Nat.min_self]
  refine ⟨by omega, (hlowers m.maxSlots hslots).local _ ?_⟩
  rw [List.length_reverse, hparams, hlen]

theorem local_reward (h : Grounded d i m) (s : Snapshot) :
    Local [] m.maxSlots (m.value s m.reward) := by
  obtain ⟨reads, hreward⟩ := h.reward
  have hslots : m.reward.slots ≤ m.maxSlots :=
    Model.slots_le_maxSlots (List.mem_append_right _ List.mem_cons_self)
  exact ((Compiler.compile_spec hreward).2 m.maxSlots hslots).local _ rfl

theorem local_constraint (h : Grounded d i m) {body : Compiled} (hbody : body ∈ m.constraints)
    (s : Snapshot) : Local [] m.maxSlots (m.value s body) := by
  obtain ⟨e, _, label, reads, hcompile⟩ :=
    exists_of_mem_of_forall₂ (compileConstraints_eq_ok h.constraints).flip hbody
  have hslots : body.slots ≤ m.maxSlots :=
    Model.slots_le_maxSlots (List.mem_append_right _ (List.mem_cons_of_mem _ hbody))
  exact ((Compiler.compile_spec hcompile).2 m.maxSlots hslots).local _ rfl

end Grounded

/-! ## Parts of a step -/

namespace Work

variable {d : Domain} {i : Instance} {m : Model} {place : Nat}

theorem take_succ_set {α : Type} {xs : List α} {n : Nat} (hn : n < xs.length) (a : α) :
    (xs.set n a).take (n + 1) = xs.take n ++ [a] := by
  rw [List.take_add_one, List.take_set_of_le (Nat.le_refl _), List.getElem?_set_self hn]
  rfl

/-- Binding some ordinals changes nothing but the slots from the first one
on. -/
theorem run_bind (s : Nat) (ordinals : List Nat) (w : Workspace) :
    ∃ slots, (bind s ordinals).run w = (.ok (), { w with slots }) ∧
      slots.size = w.slots.size ∧
        (s + ordinals.length ≤ w.slots.size →
          slots.toList.take (s + ordinals.length) = w.slots.toList.take s ++ ordinals) := by
  induction ordinals generalizing s w with
  | nil => exact ⟨w.slots, rfl, rfl, fun _ => by simp⟩
  | cons o ordinals ih =>
      obtain ⟨slots, hrun, hsize, htake⟩ :=
        ih (s + 1) { w with slots := w.slots.setIfInBounds s o }
      dsimp only at hrun hsize htake
      rw [Array.size_setIfInBounds] at hsize htake
      refine ⟨slots, hrun, hsize, ?_⟩
      intro hle
      rw [List.length_cons] at hle
      have hs : s < w.slots.toList.length := by
        rw [Array.length_toList]
        omega
      have hfirst : (w.slots.setIfInBounds s o).toList.take (s + 1) =
          w.slots.toList.take s ++ [o] := by
        rw [Array.toList_setIfInBounds, take_succ_set hs]
      have hrest := htake (by omega)
      rw [hfirst, List.append_assoc, List.singleton_append] at hrest
      rw [List.length_cons, ← hrest]
      congr 1
      omega

theorem leading_of_take {ordinals : List Nat} {w : Workspace} {slots : Array Nat}
    (hroom : ordinals.length ≤ w.slots.size)
    (htake : 0 + ordinals.length ≤ w.slots.size →
      slots.toList.take (0 + ordinals.length) = w.slots.toList.take 0 ++ ordinals) :
    ordinals <+: slots.toList := by
  have heq := htake (by omega)
  rw [Nat.zero_add, List.take_zero, List.nil_append] at heq
  rw [← heq]
  exact List.take_prefix _ _

/-- Once some ordinals have been bound, the leading slots are the same. -/
theorem parallel_bind {ordinals : List Nat} (hroom : ordinals.length ≤ m.maxSlots) :
    Parallel (Alongside m place) (bind 0 ordinals) (bind 0 ordinals)
      (fun w w' => Alongside m place w w' ∧ ordinals <+: w.slots.toList ∧
        ordinals <+: w'.slots.toList) fun w w' => Roomy m w ∧ Roomy m w' := by
  intro w w' halong
  obtain ⟨slots, hrun, hsize, htake⟩ := run_bind 0 ordinals w
  obtain ⟨slots', hrun', hsize', htake'⟩ := run_bind 0 ordinals w'
  have hleft := halong.left.slots
  have hright := halong.right.slots
  refine ⟨_, _, _, hrun, hrun', ⟨⟨?_, ?_, halong.observed, halong.sampler, halong.written⟩,
    leading_of_take (by omega) htake, leading_of_take (by omega) htake'⟩⟩
  · exact ⟨halong.left.next, by rw [hsize]; exact hleft⟩
  · exact ⟨halong.right.next, by rw [hsize']; exact hright⟩

theorem advances_checked (b : FluentBlock) (label : String) (v : Value) :
    Advances m (checked b label v) place place := by
  unfold checked
  split
  · exact Advances.value _
  · exact Advances.error _

/-- Drawing the value of a ground fluent sees nothing of the scratch space. -/
theorem advances_sampleGround (h : Grounded d i m) {cpf : Cpf}
    (hcpf : cpf ∈ m.stateCpfs ++ m.observationCpfs) {b : FluentBlock}
    (hb : m.blocks[cpf.target]? = some b) (s : Snapshot) (j : Nat) :
    Advances m (sampleGround m s b cpf.body j) place place := by
  have hlen : (b.ordinals j).reverse.length = b.params.length := by
    rw [List.length_reverse, h.length_ordinals (Array.mem_of_getElem? hb)]
  obtain ⟨hroom, hlocal⟩ := h.local_cpf hcpf hb hlen s
  have hdraw : m.distribution s cpf.body >>= Eval.draw = m.value s cpf.body :=
    Node.distribution_bind_draw _ _
  have heval := Advances.eval place hlocal
  rw [List.reverse_reverse, ← hdraw] at heval
  rw [List.length_reverse] at hroom
  exact Parallel.bind (parallel_bind hroom) fun _ => Parallel.bind heval fun v =>
    advances_checked b cpf.body.label v

/-- Writing a value of the next state fills it up to the next place. -/
theorem advances_writeNext (v : Value) :
    Advances m (writeNext place v) place (place + 1) := by
  intro w w' halong
  refine ⟨.ok (), _, _, rfl, rfl, ⟨?_, ?_, halong.observed, halong.sampler, ?_⟩⟩
  · exact ⟨by rw [Array.size_setIfInBounds, halong.left.next], halong.left.slots⟩
  · exact ⟨by rw [Array.size_setIfInBounds, halong.right.next], halong.right.slots⟩
  · intro n hn
    dsimp only
    rw [Array.getElem?_setIfInBounds, Array.getElem?_setIfInBounds, halong.left.next,
      halong.right.next]
    by_cases heq : place = n
    · rw [if_pos heq, if_pos heq]
    · rw [if_neg heq, if_neg heq]
      exact halong.written n (by omega)

theorem advances_writeObserved (n : Nat) (v : Value) :
    Advances m (writeObserved n v) place place := by
  intro w w' halong
  exact ⟨.ok (), _, _, rfl, rfl, ⟨⟨halong.left.next, halong.left.slots⟩,
    ⟨halong.right.next, halong.right.slots⟩,
    congrArg (fun observed => observed.setIfInBounds n v) halong.observed, halong.sampler,
    halong.written⟩⟩

theorem advances_stepObservation (h : Grounded d i m) {cpf : Cpf}
    (hcpf : cpf ∈ m.observationCpfs) {b : FluentBlock} (hb : m.blocks[cpf.target]? = some b)
    (nextState action : Table) (j : Nat) :
    Advances m (stepObservation m nextState action b cpf.body j) place place := by
  refine Parallel.get_bind fun w w' halong => ?_
  rw [halong.observed]
  exact (advances_sampleGround h (List.mem_append_right _ hcpf) hb _ j).bind fun v =>
    advances_writeObserved _ v

/-- The function of a state fluent fills the next state from the start to the
end of its block. -/
theorem advances_stepBlock (h : Grounded d i m) {cpf : Cpf} (hcpf : cpf ∈ m.stateCpfs)
    {b : FluentBlock} (hb : m.blocks[cpf.target]? = some b) (s : Snapshot) :
    Advances m (stepBlock m (stepState m s) cpf) b.offset (b.offset + b.size) := by
  unfold stepBlock
  rw [hb]
  refine Parallel.forM_range (R := fun j => Alongside m (b.offset + j)) fun j _ => ?_
  exact (advances_sampleGround h (List.mem_append_left _ hcpf) hb s j).bind fun v =>
    advances_writeNext v

/-- Functions of blocks without a gap fill the next state without a gap. -/
theorem advances_stepBlocks (h : Grounded d i m) {cpfs : List Cpf} {bs : List FluentBlock}
    (hblocks : List.Forall₂ (fun cpf b => m.blocks[cpf.target]? = some b) cpfs bs)
    (hcpfs : ∀ cpf ∈ cpfs, cpf ∈ m.stateCpfs) {start : Nat} (hbs : Contiguous start bs)
    (s : Snapshot) :
    Advances m (cpfs.forM (stepBlock m (stepState m s))) start
      (start + total (bs.map (·.size))) := by
  induction hblocks generalizing start with
  | nil => exact Advances.value ()
  | @cons cpf b cpfs bs hb _ ih =>
      obtain ⟨rfl, hrest⟩ := hbs
      rw [List.forall_mem_cons] at hcpfs
      rw [List.map_cons, total_cons, ← Nat.add_assoc]
      exact (advances_stepBlock h hcpfs.1 hb s).bind fun _ => ih hcpfs.2 hrest

theorem advances_enforce (h : Grounded d i m) (s : Snapshot) (n : Nat)
    {constraints : List Compiled} (hconstraints : ∀ body ∈ constraints, body ∈ m.constraints) :
    Advances m (enforce m s n constraints) place place := by
  induction constraints generalizing n with
  | nil => exact Advances.value ()
  | cons body constraints ih =>
      rw [List.forall_mem_cons] at hconstraints
      refine (Advances.eval_closed (h.local_constraint hconstraints.1 s).truth).bind
        fun holds => ?_
      cases holds with
      | true => exact ih (n + 1) hconstraints.2
      | false => exact Advances.error _

/-- Two steps from the same state end in the same way. -/
theorem advances_step (h : Grounded d i m) (check : Bool) (state action : Table) :
    Advances m (step m check state action) 0 (m.groundCount .state) := by
  have hadvance : Advances m (advance m state action) 0 (m.groundCount .state) := by
    have hstates := advances_stepBlocks h h.stateCpfs_blocks (fun _ hcpf => hcpf)
      (h.contiguous .state) (Snapshot.current m.nonFluents state action)
    rw [Nat.zero_add] at hstates
    refine hstates.bind fun _ => Parallel.get_bind fun w w' halong => ?_
    -- The observations read the next state only now that it is written to its end.
    rw [halong.next_eq]
    refine Advances.bind (Parallel.forM fun cpf hcpf => ?_) fun _ =>
      Advances.eval_closed (h.local_reward _).real
    unfold stepBlock
    split
    · exact Advances.error _
    next b hb =>
      exact Parallel.forM fun j _ => advances_stepObservation h hcpf hb _ action j
  unfold step
  cases check with
  | false => exact hadvance
  | true => exact (advances_enforce h _ 0 fun _ hbody => hbody).bind fun _ => hadvance

end Work
end LiftedPomdp
