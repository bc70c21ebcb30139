import LiftedPomdp.Proofs.Eval.Distribution
import LiftedPomdp.Proofs.Eval.Steady
import LiftedPomdp.Proofs.Run.StatePhase

/-!
# No observation sees a placeholder

The table of the observations is filled with values that stand for nothing yet.
The functions of the observations are drawn in dependency order, so where one
of them reads an observation, all ground fluents of that observation have been
drawn already, and none of them is drawn again.  So it makes no difference
whether a function is evaluated on the table as far as it has been filled or on
the table that the step returns.
-/

namespace LiftedPomdp

open Effects Grounding

/-! ## Reads of the observation functions -/

/-- The draw of an observation after some others.  The domain declares a
function for it, and what that reads of the observations has been drawn. -/
structure Ready (d : Domain) (m : Model) (before : List Drawing) (x : Drawing) (c : CpfDecl)
    (e : CpfEntry) : Prop where
  declared : c ∈ d.cpfs
  compiled : CompiledCpf m c x.block e
  cpf : e.cpf = x.cpf
  drawing : x ∈ m.drawings m.observationCpfs
  kind : x.block.kind = .observation
  reads : ∀ k ∈ e.reads, k ≠ x.cpf.target → ∀ b, m.blocks[k]? = some b →
    b.kind = .observation → ∀ j < b.size, ∃ y ∈ before, y.index = b.offset + j

theorem Grounded.exists_ready {d : Domain} {i : Instance} {m : Model} (h : Grounded d i m)
    {before after : List Drawing} {x : Drawing}
    (hsplit : m.drawings m.observationCpfs = before ++ x :: after) :
    ∃ c e, Ready d m before x c e := by
  obtain ⟨earlier, later, hcpfs, hbefore⟩ := Model.exists_split_of_drawings hsplit
  have hx : x ∈ m.drawings m.observationCpfs := by
    rw [hsplit]
    exact List.mem_append_right before List.mem_cons_self
  obtain ⟨hcpf, hb, _⟩ := Model.mem_drawings.mp hx
  obtain ⟨c, hc, b, e, hcompiled, hbody, hreads⟩ := h.exists_decl_of_split hcpfs
  obtain rfl : b = x.block := by
    have hblock := hcompiled.block
    rw [hbody] at hblock
    exact Option.some.inj (hblock.symm.trans hb)
  have hkind := (mem_blocksOf.mp (h.mem_blocksOf_of_observationCpf hcpf hb)).2
  refine ⟨c, e, hc, hcompiled, hbody, hx, hkind, ?_⟩
  intro k hk hne b hb' hkind' j hj
  have hearlier := hreads k hk hne (mem_numbersOf.mpr ⟨b, hb', hkind'⟩)
  obtain ⟨cpf, hcpf', rfl⟩ := List.mem_map.mp hearlier
  have hy : { cpf, block := b, place := j } ∈ m.drawings earlier :=
    Model.mem_drawings.mpr ⟨hcpf', hb', hj⟩
  exact ⟨_, hbefore hy, rfl⟩

/-- What is drawn for a place of the table of the observations is the ground
fluent that has this place. -/
theorem Grounded.getElem?_groundFluents_index {d : Domain} {i : Instance} {m : Model}
    (h : Grounded d i m) {x : Drawing} (hx : x ∈ m.drawings m.observationCpfs) :
    (m.groundFluents .observation)[x.index]? = some (x.key m) := by
  obtain ⟨hcpf, hb, hplace⟩ := Model.mem_drawings.mp hx
  exact h.getElem?_groundFluents (h.mem_blocksOf_of_observationCpf hcpf hb) hplace

namespace Ready

variable {d : Domain} {i : Instance} {m : Model} {before : List Drawing} {x : Drawing}
  {c : CpfDecl} {e : CpfEntry} {nextState action table table' : Table}

theorem mem_drawings (hready : Ready d m before x c e) :
    x ∈ m.drawings (m.stateCpfs ++ m.observationCpfs) := by
  obtain ⟨hcpf, hb, hplace⟩ := Model.mem_drawings.mp hready.drawing
  exact Model.mem_drawings.mpr ⟨List.mem_append_right _ hcpf, hb, hplace⟩

/-- Tables that agree on what has been drawn agree on all that the function
names. -/
theorem agreesAt (hready : Ready d m before x c e) (h : Grounded d i m)
    (hagree : ∀ y ∈ before, table[y.index]? = table'[y.index]?) (label : String) :
    ∀ p ∈ c.expr.parts, (m.world (.observing m.nonFluents nextState action table) label).AgreesAt
      (m.world (.observing m.nonFluents nextState action table') label) p := by
  obtain ⟨site, hsite, _, hcompile⟩ := hready.compiled.body
  refine h.agreesAt_parts rfl hcompile ?_ label
  intro fluent b next layer hb hread hnoted j hj
  have hdrawn : ∀ target, site = .observationCpf target → target ≠ fluent →
      b.kind = .observation → table[b.offset + j]? = table'[b.offset + j]? := by
    intro target htarget hne hkind
    have hother : fluent ≠ x.cpf.target := by
      rcases hsite with ⟨_, rfl⟩ | ⟨_, rfl⟩
      · cases htarget
      · cases htarget
        rw [← hready.cpf]
        exact hne.symm
    obtain ⟨y, hy, hindex⟩ := hready.reads fluent (hnoted hkind) hother b hb hkind j hj
    rw [← hindex]
    exact hagree y hy
  generalize b.kind = kind at hread hdrawn ⊢
  -- The snapshots have all other tables in common.
  cases hread with
  | nonFluent => rfl
  | action => rfl
  | state => rfl
  | nextState _ => rfl
  | observation htarget hne => exact hdrawn _ htarget hne rfl

theorem declared_eq (hready : Ready d m before x c e) (h : Grounded d i m)
    (hagree : ∀ y ∈ before, table[y.index]? = table'[y.index]?) :
    m.declared d (.observing m.nonFluents nextState action table) (x.key m) =
      m.declared d (.observing m.nonFluents nextState action table') (x.key m) :=
  h.declared_congr hready.declared hready.compiled (hready.agreesAt h hagree _) x.place

/-- The function denotes the same distribution on such tables. -/
theorem concur_distribution (hready : Ready d m before x c e) (h : Grounded d i m)
    (hnext : nextState.size = m.groundCount .state) (haction : action.size = m.groundCount .action)
    (hsize : table.size = m.groundCount .observation)
    (hsize' : table'.size = m.groundCount .observation)
    (hagree : ∀ y ∈ before, table[y.index]? = table'[y.index]?) :
    Concur (x.block.ordinals x.place).reverse m.maxSlots
      (m.distribution (.observing m.nonFluents nextState action table) x.cpf.body)
      (m.distribution (.observing m.nonFluents nextState action table') x.cpf.body) := by
  obtain ⟨hcpf, _, hplace⟩ := Model.mem_drawings.mp hready.mem_drawings
  rw [← hready.cpf] at hcpf ⊢
  obtain ⟨compiler, bound, hscope, _, hlowers, henv⟩ :=
    h.exists_lowers hready.compiled hcpf hplace
  have hfits : ∀ {table : Table}, table.size = m.groundCount .observation →
      (Snapshot.observing m.nonFluents nextState action table).FitsSite m compiler.site := by
    intro table hsize
    exact { h.fits_observing hnext haction table with observations := fun _ _ => hsize }
  exact hlowers.concur_distribution h hscope (hfits hsize) (hfits hsize') henv
    (hready.agreesAt h hagree _)

end Ready

/-! ## The observation phase -/

namespace Drawing

/-- With the slots bound for a draw, and with the sampler that it starts with,
the function denotes one distribution on two snapshots and leaves one
sampler. -/
def SameOn (m : Model) (x : Drawing) (w : Workspace) (s s' : Snapshot) : Prop :=
  ∃ slots distribution walk walk',
    (Work.bind 0 (x.block.ordinals x.place)).run w = (.ok (), { w with slots }) ∧
      (m.distribution s x.cpf.body).run { slots, sampler := w.sampler } =
        (.ok distribution, walk) ∧
      (m.distribution s' x.cpf.body).run { slots, sampler := w.sampler } =
        (.ok distribution, walk') ∧
      walk.sampler = walk'.sampler

/-- On a snapshot a draw gives one value wherever it is made, and takes nothing
from the random stream. -/
def Always (m : Model) (x : Drawing) (s : Snapshot) (v : Value) : Prop :=
  ∀ w, m.maxSlots ≤ w.slots.size → ∃ slots,
    (Work.sampleGround m s x.block x.cpf.body x.place).run w = (.ok v, { w with slots })

end Drawing

/-- Two workspaces with the same next state and the same sampler, and with the
same observations where some draws have been made. -/
structure Abreast (m : Model) (drawn : List Drawing) (w w' : Workspace) : Prop where
  left : Roomy m w
  right : Roomy m w'
  leftSize : w.observed.size = m.groundCount .observation
  rightSize : w'.observed.size = m.groundCount .observation
  next : w.next = w'.next
  sampler : w.sampler = w'.sampler
  observed : ∀ y ∈ drawn, w.observed[y.index]? = w'.observed[y.index]?

theorem Abreast.refl {m : Model} {w : Workspace} (hw : Roomy m w)
    (hsize : w.observed.size = m.groundCount .observation) (drawn : List Drawing) :
    Abreast m drawn w w :=
  ⟨hw, hw, hsize, hsize, rfl, rfl, fun _ _ => rfl⟩

/-- Once all draws have been made the observations are the same. -/
theorem Abreast.observed_eq {d : Domain} {i : Instance} {m : Model} (h : Grounded d i m)
    {w w' : Workspace} (habreast : Abreast m (m.drawings m.observationCpfs) w w') :
    w.observed = w'.observed := by
  apply Array.ext_getElem?
  intro n
  by_cases hn : n < m.groundCount .observation
  · have hindex := h.map_index_observationDrawings.mem_iff.mpr (List.mem_range.mpr hn)
    obtain ⟨y, hy, rfl⟩ := List.mem_map.mp hindex
    exact habreast.observed y hy
  · rw [Array.getElem?_eq_none (by rw [habreast.leftSize]; omega),
      Array.getElem?_eq_none (by rw [habreast.rightSize]; omega)]

namespace Work

/-- Draws an observation, which may read those drawn before. -/
def observe (m : Model) (nextState action : Table) (x : Drawing) : Work Unit :=
  stepObservation m nextState action x.block x.cpf.body x.place

variable {d : Domain} {i : Instance} {m : Model} {before after : List Drawing} {x : Drawing}
  {c : CpfDecl} {e : CpfEntry} {nextState action : Table} {w w' : Workspace}

theorem keeps_observations {P : Workspace → Prop} (hP : Blind P) {xs : List Drawing}
    (hwrite : ∀ y ∈ xs, ∀ (v : Value) (w : Workspace), P w →
      P { w with observed := w.observed.setIfInBounds y.index v }) (hw : P w)
    (hrun : (xs.forM (observe m nextState action)).run w = (.ok (), w')) : P w' := by
  have hkeeps : Keeps P (xs.forM (observe m nextState action)) fun _ => True :=
    Keeps.forM fun y hy =>
      keeps_stepObservation hP nextState action y.cpf.body fun v _ w hw => hwrite y hy v w hw
  exact hkeeps.after hw hrun

/-- Draws leave the places of others alone. -/
theorem observed_of_observations {xs : List Drawing} {n : Nat}
    (hrun : (xs.forM (observe m nextState action)).run w = (.ok (), w'))
    (hne : ∀ y ∈ xs, y.index ≠ n) : w'.observed[n]? = w.observed[n]? := by
  refine keeps_observations (P := fun u => u.observed[n]? = w.observed[n]?)
    (fun _ _ _ hu => hu) ?_ rfl hrun
  intro y hy v u hu
  exact (Array.getElem?_setIfInBounds_ne (hne y hy)).trans hu

theorem size_observed_of_observations {xs : List Drawing}
    (hrun : (xs.forM (observe m nextState action)).run w = (.ok (), w')) :
    w'.observed.size = w.observed.size := by
  refine keeps_observations (P := fun u => u.observed.size = w.observed.size)
    (fun _ _ _ hu => hu) ?_ rfl hrun
  intro y _ v u hu
  rw [Array.size_setIfInBounds, hu]

section Draws

variable (h : Grounded d i m) (hnext : nextState.size = m.groundCount .state)
  (haction : action.size = m.groundCount .action)

include h hnext haction

theorem run_observe (hready : Ready d m before x c e)
    (hsize : w.observed.size = m.groundCount .observation)
    (hroom : m.maxSlots ≤ w.slots.size) :
    ∃ (r : Except (Fault DomainError) Value) (slots : Array Nat) (sampler : Sampler),
      (m.declared d (.observing m.nonFluents nextState action w.observed) (x.key m)).run
          w.sampler = (r, sampler) ∧
        (∀ v, r = .ok v → m.maxSlots ≤ slots.size) ∧
          (observe m nextState action x).run w =
            match r with
            | .ok v =>
              (.ok (), { w with observed := w.observed.setIfInBounds x.index v, slots, sampler })
            | .error f => (.error (f.map SimError.domain), { w with slots, sampler }) := by
  have hfits := h.fits_observing hnext haction w.observed
  obtain ⟨r, slots, sampler, hsample, hdeclared, hslots⟩ :=
    run_sampleGround h hready.mem_drawings hfits (fun _ => hsize) hroom
  refine ⟨r, slots, sampler, hdeclared, hslots, ?_⟩
  have hget : (get : Work Workspace).run w = (.ok w, w) := rfl
  unfold observe stepObservation
  rw [run_bind_of_ok hget]
  cases r with
  | error f => exact run_bind_of_error hsample
  | ok v => exact run_bind_of_ok hsample

/-- Two draws that see the same of what has been drawn write the same. -/
theorem parallel_observe (hready : Ready d m before x c e) :
    Parallel (Abreast m before) (observe m nextState action x) (observe m nextState action x)
      (Abreast m (before ++ [x])) fun _ _ => True := by
  intro w w' habreast
  obtain ⟨r, slots, sampler, hdeclared, hroom, hrun⟩ :=
    run_observe h hnext haction hready habreast.leftSize habreast.left.slots
  obtain ⟨r', slots', sampler', hdeclared', hroom', hrun'⟩ :=
    run_observe h hnext haction hready habreast.rightSize habreast.right.slots
  -- The observations differ at most in places that the function does not read.
  rw [hready.declared_eq h habreast.observed, habreast.sampler] at hdeclared
  obtain ⟨rfl, rfl⟩ := Prod.mk.inj (hdeclared.symm.trans hdeclared')
  cases r with
  | error f => exact ⟨_, _, _, hrun, hrun', trivial⟩
  | ok v =>
      refine ⟨_, _, _, hrun, hrun', ⟨habreast.left.next, hroom v rfl⟩,
        ⟨habreast.right.next, hroom' v rfl⟩, ?_, ?_, habreast.next, rfl, ?_⟩
      · rw [Array.size_setIfInBounds, habreast.leftSize]
      · rw [Array.size_setIfInBounds, habreast.rightSize]
      · intro y hy
        dsimp only
        rw [Array.getElem?_setIfInBounds, Array.getElem?_setIfInBounds, habreast.leftSize,
          habreast.rightSize]
        by_cases heq : x.index = y.index
        · rw [if_pos heq, if_pos heq]
        · have hmem : y ∈ before := by
            rcases List.mem_append.mp hy with hmem | hlast
            · exact hmem
            · rw [List.mem_singleton] at hlast
              exact absurd (by rw [hlast]) heq
          rw [if_neg heq, if_neg heq]
          exact habreast.observed y hmem

/-- Consecutive draws that see the same of what has been drawn before write the
same. -/
theorem parallel_observations {now rest : List Drawing}
    (hsplit : m.drawings m.observationCpfs = before ++ (now ++ rest)) :
    Parallel (Abreast m before) (now.forM (observe m nextState action))
      (now.forM (observe m nextState action)) (Abreast m (before ++ now)) fun _ _ => True := by
  induction now generalizing before with
  | nil =>
      rw [List.append_nil]
      exact Parallel.value () fun _ _ habreast => habreast
  | cons x now ih =>
      obtain ⟨c, e, hready⟩ := h.exists_ready hsplit
      have hsplit' : m.drawings m.observationCpfs = before ++ [x] ++ (now ++ rest) := by
        rw [hsplit, List.append_assoc, List.singleton_append, List.cons_append]
      have hrest := ih hsplit'
      rw [List.append_assoc, List.singleton_append] at hrest
      exact Parallel.bind (parallel_observe h hnext haction hready) fun _ => hrest

/-- What the observation phase has come to when it makes a draw.  All that has
been drawn by then, and what is drawn now, is there when the phase ends. -/
theorem exists_moment (hw : Roomy m w) (hsize : w.observed.size = m.groundCount .observation)
    (hrun : ((m.drawings m.observationCpfs).forM (observe m nextState action)).run w =
      (.ok (), w'))
    (hsplit : m.drawings m.observationCpfs = before ++ x :: after) :
    ∃ u u', (before.forM (observe m nextState action)).run w = (.ok (), u) ∧
      (observe m nextState action x).run u = (.ok (), u') ∧
        Roomy m u ∧ u.observed.size = m.groundCount .observation ∧
          w'.observed[x.index]? = u'.observed[x.index]? ∧
            ∀ y ∈ before, u.observed[y.index]? = w'.observed[y.index]? := by
  have hnodup : ((before ++ x :: after).map (·.index)).Nodup := by
    rw [← hsplit]
    exact h.map_index_observationDrawings.nodup_iff.mpr List.nodup_range
  rw [List.map_append, List.map_cons, List.nodup_append] at hnodup
  obtain ⟨_, hlater, hapart⟩ := hnodup
  rw [hsplit, List.forM_eq_forM, List.forM_append] at hrun
  obtain ⟨_, u, hbefore, hrest⟩ := run_of_bind_eq_ok hrun
  have hlast := hrest
  rw [List.forM_cons] at hlast
  obtain ⟨_, u', hnow, hafter⟩ := run_of_bind_eq_ok hlast
  have hstart : m.drawings m.observationCpfs = [] ++ (before ++ x :: after) := hsplit
  obtain ⟨_, _, hend⟩ := (parallel_observations h hnext haction hstart).run_ok
    (Abreast.refl hw hsize []) hbefore
  refine ⟨u, u', hbefore, hnow, hend.left, hend.leftSize, ?_, ?_⟩
  -- No place is drawn twice, so the later draws leave alone what is there by now.
  · refine observed_of_observations hafter fun y hy heq => ?_
    rw [List.nodup_cons, ← heq] at hlater
    exact hlater.1 (List.mem_map_of_mem hy)
  · intro y hy
    refine (observed_of_observations hrest fun z hz heq => ?_).symm
    have hz' : z.index ∈ x.index :: after.map (·.index) := List.mem_map_of_mem hz
    exact hapart _ (List.mem_map_of_mem hy) _ hz' heq.symm

/-- Every observation that is there when the phase ends was drawn as the domain
declares on the table as it is then. -/
theorem exists_drawn_of_observations (hw : Roomy m w)
    (hsize : w.observed.size = m.groundCount .observation)
    (hrun : ((m.drawings m.observationCpfs).forM (observe m nextState action)).run w =
      (.ok (), w')) (hx : x ∈ m.drawings m.observationCpfs) :
    ∃ v, w'.observed[x.index]? = some v ∧ ∃ r t : Sampler,
      (m.declared d (.observing m.nonFluents nextState action w'.observed) (x.key m)).run r =
        (.ok v, t) := by
  obtain ⟨before, after, hsplit⟩ := List.append_of_mem hx
  obtain ⟨c, e, hready⟩ := h.exists_ready hsplit
  obtain ⟨u, u', _, hnow, hu, husize, hentry, hagree⟩ :=
    exists_moment h hnext haction hw hsize hrun hsplit
  obtain ⟨r, slots, sampler, hdeclared, _, hdraw⟩ :=
    run_observe h hnext haction hready husize hu.slots
  rw [hready.declared_eq h hagree] at hdeclared
  rw [hdraw] at hnow
  cases r with
  | error f => cases hnow
  | ok v =>
      cases hnow
      have hindex := h.map_index_observationDrawings.mem_iff.mp (List.mem_map_of_mem hx)
      rw [List.mem_range, ← husize] at hindex
      exact ⟨v, hentry.trans (Array.getElem?_setIfInBounds_self_of_lt hindex), _, _, hdeclared⟩

/-- The distribution that is drawn from is the one that the function denotes on
any table that agrees on what has been drawn. -/
theorem distribution_of_observe (hready : Ready d m before x c e) (hw : Roomy m w)
    (hsize : w.observed.size = m.groundCount .observation)
    (hrun : (observe m nextState action x).run w = (.ok (), w')) {table : Table}
    (hsize' : table.size = m.groundCount .observation)
    (hagree : ∀ y ∈ before, w.observed[y.index]? = table[y.index]?) :
    x.SameOn m w (.observing m.nonFluents nextState action w.observed)
      (.observing m.nonFluents nextState action table) := by
  obtain ⟨slots, hbind, hstands⟩ := exists_bound h hready.mem_drawings hw.slots
  have hget : (get : Work Workspace).run w = (.ok w, w) := rfl
  unfold observe stepObservation at hrun
  rw [run_bind_of_ok hget] at hrun
  obtain ⟨_, _, hsample, _⟩ := run_of_bind_eq_ok hrun
  unfold sampleGround at hsample
  rw [run_bind_of_ok hbind] at hsample
  obtain ⟨_, _, heval, _⟩ := run_of_bind_eq_ok hsample
  obtain ⟨_, hdraw⟩ := exists_of_eval_eq_ok heval
  obtain ⟨distribution, walk, hwalk, _⟩ := run_of_bind_eq_ok hdraw
  obtain ⟨walk', hwalk', hend⟩ :=
    (hready.concur_distribution h hnext haction hsize hsize' hagree).run_ok
      ⟨hstands, hstands, rfl⟩ hwalk
  exact ⟨slots, distribution, walk, walk', hbind, hwalk, hwalk', hend.sampler⟩

end Draws

/-! ## Other placeholders -/

/-- A part of a step that does the same whatever the observations are, and
leaves them as they are. -/
abbrev Unobserving {α : Type} (table : Table) (x : Work α) : Prop :=
  Parallel (fun w w' => w' = { w with observed := table }) x x
    (fun w w' => w' = { w with observed := table }) fun w w' => w' = { w with observed := table }

theorem unobserving_modify {f : Workspace → Workspace} {table : Table}
    (hf : ∀ w, f { w with observed := table } = { f w with observed := table }) :
    Unobserving table (modify f : Work Unit) := by
  rintro w _ rfl
  exact ⟨.ok (), _, _, rfl, rfl, hf w⟩

theorem unobserving_eval {α : Type} (table : Table) (e : Eval α) :
    Unobserving table (eval e) := by
  rintro w _ rfl
  rcases hrun : e.run w.walk with ⟨r, u⟩
  have hrun' : e.run { w with observed := table }.walk = (r, u) := hrun
  refine ⟨_, _, _, run_eval hrun, run_eval hrun', ?_⟩
  cases r with
  | error f => rfl
  | ok a => rfl

theorem unobserving_bind (table : Table) (s : Nat) (ordinals : List Nat) :
    Unobserving table (bind s ordinals) := by
  induction ordinals generalizing s with
  | nil => exact Parallel.value () fun _ _ hw => hw
  | cons o ordinals ih => exact Parallel.bind (unobserving_modify fun _ => rfl) fun _ => ih (s + 1)

theorem unobserving_stepState (table : Table) (s : Snapshot) (b : FluentBlock) (body : Compiled)
    (place : Nat) : Unobserving table (stepState m s b body place) := by
  refine Parallel.bind (Parallel.bind (unobserving_bind table 0 _) fun _ =>
    Parallel.bind (unobserving_eval table _) fun v => ?_) fun v => unobserving_modify fun _ => rfl
  unfold checked
  split
  · exact Parallel.value _ fun _ _ hw => hw
  · exact Parallel.error _ fun _ _ hw => hw

theorem unobserving_statePhase (table : Table) (s : Snapshot) :
    Unobserving table (m.stateCpfs.forM (stepBlock m (stepState m s))) := by
  refine Parallel.forM fun cpf _ => ?_
  unfold stepBlock
  split
  · exact Parallel.error _ fun _ _ hw => hw
  · exact Parallel.forM fun place _ => unobserving_stepState table s _ _ place

/-- The state phase leaves the observations as they are, and enough slots. -/
theorem roomy_of_statePhase (h : Grounded d i m) {s : Snapshot} (hw : Roomy m w)
    (hrun : (m.stateCpfs.forM (stepBlock m (stepState m s))).run w = (.ok (), w')) :
    Roomy m w' ∧ w'.observed = w.observed := by
  have halong : Alongside m 0 w w := ⟨hw, hw, rfl, rfl, fun _ _ => rfl⟩
  have hadvances := advances_stepBlocks h h.stateCpfs_blocks (fun _ hcpf => hcpf)
    (h.contiguous .state) s
  obtain ⟨_, _, hend⟩ := hadvances.run_ok halong hrun
  obtain ⟨u, hrun', hsame⟩ := (unobserving_statePhase w.observed s).run_ok rfl hrun
  obtain rfl : w' = u := (Prod.mk.inj (hrun.symm.trans hrun')).2
  exact ⟨hend.left, by rw [hsame]⟩

/-- The values that stand for nothing yet have no part in a step. -/
theorem advance_reobserved (h : Grounded d i m) {state : Table} {reward : Float}
    (haction : action.size = m.groundCount .action) (hw : Roomy m w)
    (hsize : w.observed.size = m.groundCount .observation)
    (hrun : (advance m state action).run w = (.ok reward, w')) {table : Table}
    (htable : table.size = m.groundCount .observation) :
    ∃ slots, (advance m state action).run { w with observed := table } =
      (.ok reward, { w' with slots }) := by
  obtain ⟨w₁, w₂, hstates, hobservations, hreward, _, _⟩ := exists_phases hrun
  obtain ⟨hroomy, hobserved⟩ := roomy_of_statePhase h hw hstates
  obtain ⟨_, hstates', rfl⟩ := (unobserving_statePhase table _).run_ok rfl hstates
  have habreast : Abreast m [] w₁ { w₁ with observed := table } :=
    { left := hroomy, right := ⟨hroomy.next, hroomy.slots⟩, leftSize := hobserved ▸ hsize
      rightSize := htable, next := rfl, sampler := rfl, observed := nofun }
  have hall : m.drawings m.observationCpfs = [] ++ (m.drawings m.observationCpfs ++ []) := by
    rw [List.append_nil, List.nil_append]
  have hphase : m.observationCpfs.forM (stepBlock m (stepObservation m w₁.next action)) =
      (m.drawings m.observationCpfs).forM (observe m w₁.next action) :=
    h.forM_drawings (List.subset_append_right m.stateCpfs m.observationCpfs)
  rw [hphase] at hobservations
  obtain ⟨v, hobservations', hend⟩ :=
    (parallel_observations h hroomy.next haction hall).run_ok habreast hobservations
  -- Now every place has been drawn, and the two workspaces differ in their slots only.
  have halong : Alongside m (m.groundCount .state) w₂ v :=
    { left := hend.left, right := hend.right, observed := hend.observed_eq h
      sampler := hend.sampler, written := fun n _ => by rw [hend.next] }
  have hlocal : Advances m (eval (m.real (Snapshot.current m.nonFluents state action) m.reward))
      (m.groundCount .state) (m.groundCount .state) :=
    Advances.eval_closed (h.local_reward _).real
  obtain ⟨u, hreward', hlast⟩ := hlocal.run_ok halong hreward
  have hget : (get : Work Workspace).run { w₁ with observed := table } = (.ok _, _) := rfl
  refine ⟨u.slots, ?_⟩
  unfold advance
  rw [run_bind_of_ok hstates', run_bind_of_ok hget, hphase, run_bind_of_ok hobservations']
  exact hreward'.trans (congrArg (Prod.mk _) hlast.eq_with_slots)

end Work

/-! ## Steady observations -/

theorem Model.coerced_steady (b : FluentBlock) (v : Value) : (Model.coerced b v).Steady := by
  unfold Model.coerced
  cases v.coerce b.range with
  | some v => exact .value v
  | none => exact .error _

/-- Without coins and uniform reals the draw of an observation gives the same
from everywhere in the random stream. -/
theorem Ready.declared_steady {d : Domain} {i : Instance} {m : Model} {before : List Drawing}
    {x : Drawing} {c : CpfDecl} {e : CpfEntry} (hready : Ready d m before x c e)
    (h : Grounded d i m) (hsteady : c.expr.Steady) (s : Snapshot) :
    (m.declared d s (x.key m)).Steady := by
  rw [Drawing.key, h.declared_groundFluent hready.declared hready.compiled]
  exact (Expr.meaning_steady _ _ c.expr hsteady).bind fun v => Model.coerced_steady x.block v

theorem Drawing.always_of_observe {d : Domain} {i : Instance} {m : Model} {before : List Drawing}
    {x : Drawing} {c : CpfDecl} {e : CpfEntry} {nextState action table : Table}
    {w w' : Workspace} (h : Grounded d i m) (hready : Ready d m before x c e)
    (hsteady : c.expr.Steady) (hnext : nextState.size = m.groundCount .state)
    (haction : action.size = m.groundCount .action) (hw : Roomy m w)
    (hsize : w.observed.size = m.groundCount .observation)
    (hrun : (Work.observe m nextState action x).run w = (.ok (), w'))
    (hsize' : table.size = m.groundCount .observation)
    (hagree : ∀ y ∈ before, w.observed[y.index]? = table[y.index]?) :
    ∃ v, w'.observed[x.index]? = some v ∧
      x.Always m (.observing m.nonFluents nextState action table) v := by
  obtain ⟨r, slots, sampler, hdeclared, _, hdraw⟩ :=
    Work.run_observe h hnext haction hready hsize hw.slots
  rw [hready.declared_eq h hagree] at hdeclared
  rw [hdraw] at hrun
  cases r with
  | error f => cases hrun
  | ok v =>
      cases hrun
      obtain ⟨r', hr'⟩ := hready.declared_steady h hsteady
        (.observing m.nonFluents nextState action table)
      obtain rfl : r' = .ok v := (Prod.mk.inj ((hr' _).symm.trans hdeclared)).1
      refine ⟨v, ?_, ?_⟩
      · have hindex := h.map_index_observationDrawings.mem_iff.mp
          (List.mem_map_of_mem hready.drawing)
        rw [List.mem_range, ← hsize] at hindex
        exact Array.getElem?_setIfInBounds_self_of_lt hindex
      · intro u hu
        have hfits := h.fits_observing hnext haction table
        obtain ⟨r, slots, sampler, hsample, hagain, _⟩ :=
          Work.run_sampleGround h hready.mem_drawings hfits (fun _ => hsize') hu
        obtain ⟨rfl, rfl⟩ := Prod.mk.inj ((hr' _).symm.trans hagain)
        exact ⟨slots, hsample⟩

/-! ## Observations and the table that is returned -/

namespace Model

variable {d : Domain} {i : Instance} {m : Model} {state action : Table}

/-- The observation phase makes one draw for every place of the table of the
observations.  When a step succeeds, every draw was made from the distribution
that its function denotes on the table that the step returns, and took the
sampler as far.  So the values that the table was filled with have no part in
the step.  Where no function of an observation has a coin or a uniform real in
it, every entry of the returned table is what a draw on that table gives. -/
theorem observations_see_no_placeholder (h : Model.ground d i = .ok m)
    (haction : action.size = m.groundCount .action) :
    let s := Snapshot.current m.nonFluents state action
    let xs := m.drawings m.observationCpfs
    Work.advance m state action = (do
        m.stateCpfs.forM (Work.stepBlock m (Work.stepState m s))
        let w ← get
        xs.forM (Work.observe m w.next action)
        Work.eval (m.real s m.reward)) ∧
      (xs.map (·.index)).Perm (List.range (m.groundCount .observation)) ∧
      ∀ (w w' : Workspace) (reward : Float), Roomy m w →
        w.observed.size = m.groundCount .observation →
        (Work.advance m state action).run w = (.ok reward, w') →
          let final := Snapshot.observing m.nonFluents w'.next action w'.observed
          (∃ w₁, (m.stateCpfs.forM (Work.stepBlock m (Work.stepState m s))).run w = (.ok (), w₁) ∧
            w₁.next = w'.next ∧
              ∀ before x after, xs = before ++ x :: after →
                ∃ u, (before.forM (Work.observe m w₁.next action)).run w₁ = (.ok (), u) ∧
                  x.SameOn m u (.observing m.nonFluents w₁.next action u.observed) final) ∧
          (∀ table : Table, table.size = m.groundCount .observation →
            ∃ slots, (Work.advance m state action).run { w with observed := table } =
              (.ok reward, { w' with slots })) ∧
          ((∀ c ∈ d.cpfs, ∀ f ∈ d.fluents, f.name = c.fluent → f.kind = .observation →
              c.expr.Steady) →
            ∀ x ∈ xs, ∃ v, w'.observed[x.index]? = some v ∧ x.Always m final v) := by
  intro s xs
  have hg := grounded_of_ground h
  have hphase : ∀ next : Table,
      m.observationCpfs.forM (Work.stepBlock m (Work.stepObservation m next action)) =
        xs.forM (Work.observe m next action) :=
    fun next => hg.forM_drawings (List.subset_append_right m.stateCpfs m.observationCpfs)
  refine ⟨?_, hg.map_index_observationDrawings, ?_⟩
  · unfold Work.advance
    simp only [hphase]
    rfl
  intro w w' reward hw hsize hrun final
  obtain ⟨w₁, w₂, hstates, hobservations, _, hnext, hobserved⟩ := Work.exists_phases hrun
  obtain ⟨hw₁, hkept⟩ := Work.roomy_of_statePhase hg hw hstates
  rw [hphase] at hobservations
  have hsize₁ : w₁.observed.size = m.groundCount .observation := by rw [hkept, hsize]
  have hsize₂ : w₂.observed.size = m.groundCount .observation := by
    rw [Work.size_observed_of_observations hobservations, hsize₁]
  have hfinal : final = .observing m.nonFluents w₁.next action w₂.observed := by
    rw [← hnext, ← hobserved]
  refine ⟨⟨w₁, hstates, hnext.symm, ?_⟩, ?_, ?_⟩
  · intro before x after hsplit
    obtain ⟨c, e, hready⟩ := hg.exists_ready hsplit
    obtain ⟨u, u', hbefore, hnow, hu, husize, _, hagree⟩ :=
      Work.exists_moment hg hw₁.next haction hw₁ hsize₁ hobservations hsplit
    rw [hfinal]
    exact ⟨u, hbefore, Work.distribution_of_observe hg hw₁.next haction hready hu husize hnow
      hsize₂ hagree⟩
  · intro table htable
    exact Work.advance_reobserved hg haction hw hsize hrun htable
  · intro hsteady x hx
    obtain ⟨before, after, hsplit⟩ := List.append_of_mem hx
    obtain ⟨c, e, hready⟩ := hg.exists_ready hsplit
    obtain ⟨u, u', hbefore, hnow, hu, husize, hentry, hagree⟩ :=
      Work.exists_moment hg hw₁.next haction hw₁ hsize₁ hobservations hsplit
    have hbody : c.expr.Steady := by
      obtain ⟨f, hf, place, hplaced⟩ := hg.exists_placed
        (Array.mem_of_getElem? hready.compiled.block)
      refine hsteady c hready.declared f hf ?_ ?_
      · rw [← hplaced.name, hready.compiled.name]
      · rw [← hplaced.kind, hready.kind]
    obtain ⟨v, hv, halways⟩ := Drawing.always_of_observe hg hready hbody hw₁.next haction hu
      husize hnow hsize₂ hagree
    rw [hfinal, hobserved, hentry]
    exact ⟨v, hv, halways⟩

/-- The rooms of the lamps are seen before the house is, and nothing in what is
seen is left to chance. -/
theorem observations_see_no_placeholder_lamps :
    let m := Lamps.model
    let w := Lamps.workspace
    let xs := m.drawings m.observationCpfs
    m.defaultAction.size = m.groundCount .action ∧ Roomy m w ∧
      w.observed.size = m.groundCount .observation ∧
        (∀ c ∈ Lamps.domain.cpfs, ∀ f ∈ Lamps.domain.fluents, f.name = c.fluent →
          f.kind = .observation → c.expr.Steady) ∧
          ∃ reward w' before x, (Work.advance m m.initialState m.defaultAction).run w =
              (.ok reward, w') ∧
            xs = before ++ [x] ∧ before.length = 3 ∧
              (∃ u, x.SameOn m u
                (.observing m.nonFluents w'.next m.defaultAction u.observed)
                (.observing m.nonFluents w'.next m.defaultAction w'.observed)) ∧
              (∃ v, w'.observed[x.index]? = some v ∧
                x.Always m (.observing m.nonFluents w'.next m.defaultAction w'.observed) v) ∧
              ∃ slots, (Work.advance m m.initialState m.defaultAction).run
                  { w with observed := Array.replicate 4 (.bool true) } =
                (.ok reward, { w' with slots }) := by
  intro m w xs
  have haction : m.defaultAction.size = m.groundCount .action := by decide +kernel
  have hsize : w.observed.size = m.groundCount .observation := by decide +kernel
  have hfilled : (Array.replicate 4 (Value.bool true)).size = m.groundCount .observation := by
    decide +kernel
  have hsteady : ∀ c ∈ Lamps.domain.cpfs, ∀ f ∈ Lamps.domain.fluents, f.name = c.fluent →
      f.kind = .observation → c.expr.Steady := by
    unfold Expr.Steady
    decide +kernel
  have hlength : xs.length = 4 := by decide +kernel
  have hsplit : xs = xs.take 3 ++ xs[3] :: [] := by
    have hlast : xs.drop 4 = [] := List.drop_eq_nil_of_le (Nat.le_of_eq hlength)
    rw [← hlast, List.getElem_cons_drop, List.take_append_drop]
  obtain ⟨_, _, hsteps⟩ := observations_see_no_placeholder Lamps.ground_eq haction
  obtain ⟨reward, w', hrun⟩ := Lamps.exists_advance
  obtain ⟨⟨w₁, _, hnext, hmoments⟩, hother, hentries⟩ :=
    hsteps w w' reward Lamps.roomy_workspace hsize hrun
  obtain ⟨u, _, hsame⟩ := hmoments _ _ _ hsplit
  have hmem : xs[3] ∈ xs := List.getElem_mem _
  have hbefore : (xs.take 3).length = 3 := by
    rw [List.length_take, hlength]
    rfl
  rw [hnext] at hsame
  exact ⟨haction, Lamps.roomy_workspace, hsize, hsteady, reward, w', _, _, hrun, hsplit, hbefore,
    ⟨u, hsame⟩, hentries hsteady _ hmem, hother _ hfilled⟩

end Model
end LiftedPomdp
