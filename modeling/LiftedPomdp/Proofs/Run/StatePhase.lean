import LiftedPomdp.Proofs.Run.Drawing
import LiftedPomdp.Proofs.Run.Sampling

/-!
# The next state is computed at once and in order

The draws of the state fill the table of the next state from its start to its
end.  No function of the state may read the next state or an observation, so
all of them see the tables as they were before the step, and one draw has no
effect on another but through the sampler.
-/

namespace LiftedPomdp

open Effects Grounding

/-! ## Reads of the state functions -/

namespace Grounded

variable {d : Domain} {i : Instance} {m : Model}

/-- The function of a state fluent sees nothing but the state before the step,
the action and the non-fluents. -/
theorem declared_state_congr (h : Grounded d i m) {s s' : Snapshot}
    (hnonFluents : s.nonFluents = s'.nonFluents) (hstate : s.state = s'.state)
    (haction : s.action = s'.action) {g : GroundFluent} (hg : g ∈ m.groundFluents .state) :
    m.declared d s g = m.declared d s' g := by
  rw [← h.map_key_stateDrawings] at hg
  obtain ⟨x, hx, rfl⟩ := List.mem_map.mp hg
  obtain ⟨hcpf, hb, _⟩ := Model.mem_drawings.mp hx
  obtain ⟨c, hc, b, e, hcompiled, hbody⟩ :=
    h.exists_decl (List.mem_append_left m.observationCpfs hcpf)
  have hkind := (mem_blocksOf.mp (h.mem_blocksOf_of_stateCpf hcpf hb)).2
  rw [← hbody] at hb
  obtain rfl := Option.some.inj (hb.symm.trans hcompiled.block)
  obtain ⟨site, hsite, label, hcompile⟩ := hcompiled.body
  have hagree : ∀ fluent b next layer, m.blocks[fluent]? = some b →
      ReadAt site fluent b.kind next layer → (b.kind = .observation → fluent ∈ e.reads) →
        ∀ j < b.size, (Model.readTable s b.kind next)[b.offset + j]? =
          (Model.readTable s' b.kind next)[b.offset + j]? := by
    intro fluent b next layer _ hread _ j _
    rcases hsite with ⟨_, rfl⟩ | ⟨hobservation, _⟩
    · generalize b.kind = kind at hread ⊢
      cases hread with
      | nonFluent => exact congrArg (fun table : Table => table[b.offset + j]?) hnonFluents
      | action => exact congrArg (fun table : Table => table[b.offset + j]?) haction
      | state => exact congrArg (fun table : Table => table[b.offset + j]?) hstate
      | nextState hsite => cases hsite
      | observation hsite _ => cases hsite
    · rw [hkind] at hobservation
      cases hobservation
  exact h.declared_congr hc hcompiled (h.agreesAt_parts rfl hcompile hagree _) x.place

theorem fits_current (h : Grounded d i m) {state action : Table}
    (hstate : state.size = m.groundCount .state) (haction : action.size = m.groundCount .action) :
    (Snapshot.current m.nonFluents state action).Fits m :=
  ⟨h.typed_nonFluents.size_eq, hstate, hstate, haction⟩

theorem fits_observing (h : Grounded d i m) {nextState action : Table}
    (hnext : nextState.size = m.groundCount .state) (haction : action.size = m.groundCount .action)
    (table : Table) : (Snapshot.observing m.nonFluents nextState action table).Fits m :=
  ⟨h.typed_nonFluents.size_eq, hnext, hnext, haction⟩

end Grounded

/-! ## The state phase -/

namespace Work

variable {d : Domain} {i : Instance} {m : Model} {s : Snapshot} {w w' : Workspace}

/-- A draw of the state that succeeds writes what the domain declares to its
place. -/
theorem run_stepState (h : Grounded d i m) (hfits : s.Fits m) {x : Drawing}
    (hx : x ∈ m.drawings m.stateCpfs) (hroom : m.maxSlots ≤ w.slots.size)
    (hrun : (stepState m s x.block x.cpf.body x.place).run w = (.ok (), w')) :
    ∃ v slots, (m.declared d s (x.key m)).run w.sampler = (.ok v, w'.sampler) ∧
      m.maxSlots ≤ slots.size ∧
        w' = { w with next := w.next.setIfInBounds x.index v, slots, sampler := w'.sampler } := by
  obtain ⟨hcpf, hb, hplace⟩ := Model.mem_drawings.mp hx
  have hmem : x ∈ m.drawings (m.stateCpfs ++ m.observationCpfs) :=
    Model.mem_drawings.mpr ⟨List.mem_append_left _ hcpf, hb, hplace⟩
  have hkind : x.block.kind ≠ .observation := by
    rw [(Grounded.mem_blocksOf.mp (h.mem_blocksOf_of_stateCpf hcpf hb)).2]
    exact nofun
  obtain ⟨r, slots, sampler, hsample, hdeclared, hslots⟩ :=
    run_sampleGround h hmem hfits (fun hobservation => absurd hobservation hkind) hroom
  obtain ⟨v, w₁, hdrawn, hwrite⟩ := run_of_bind_eq_ok hrun
  rw [hsample] at hdrawn
  cases r with
  | error f => cases hdrawn
  | ok v' =>
      cases hdrawn
      cases hwrite
      exact ⟨v, slots, hdeclared, hslots v rfl, rfl⟩

/-- Consecutive draws of the state write what the domain declares, each with
the sampler that the one before has left. -/
theorem run_stateDrawings (h : Grounded d i m) (hfits : s.Fits m) {xs : List Drawing}
    (hxs : ∀ x ∈ xs, x ∈ m.drawings m.stateCpfs) {start : Nat}
    (hindex : xs.map (·.index) = List.range' start xs.length)
    (hroom : m.maxSlots ≤ w.slots.size) (hend : start + xs.length ≤ w.next.size)
    (hrun : (xs.forM fun x => stepState m s x.block x.cpf.body x.place).run w = (.ok (), w')) :
    ∃ vs, ((xs.map (·.key m)).mapM (m.declared d s)).run w.sampler = (.ok vs, w'.sampler) ∧
      w'.next.toList =
        w.next.toList.take start ++ (vs ++ w.next.toList.drop (start + xs.length)) := by
  induction xs generalizing w start with
  | nil =>
      cases hrun
      exact ⟨[], rfl, by simp⟩
  | cons x xs ih =>
      rw [List.forall_mem_cons] at hxs
      obtain ⟨_, w₁, hfirst, hrest⟩ := run_of_bind_eq_ok hrun
      obtain ⟨v, slots, hdeclared, hslots, hw₁⟩ := run_stepState h hfits hxs.1 hroom hfirst
      have hnext₁ : w₁.next = w.next.setIfInBounds x.index v := by rw [hw₁]
      rw [List.map_cons, List.length_cons, List.range'_succ, List.cons.injEq] at hindex
      rw [List.length_cons] at hend ⊢
      obtain ⟨rfl, hindex⟩ := hindex
      have hroom₁ : m.maxSlots ≤ w₁.slots.size := by
        rw [hw₁]
        exact hslots
      have hend₁ : x.index + 1 + xs.length ≤ w₁.next.size := by
        rw [hnext₁, Array.size_setIfInBounds]
        omega
      obtain ⟨vs, hvs, hnext⟩ := ih hxs.2 hindex hroom₁ hend₁ hrest
      refine ⟨v :: vs, ?_, ?_⟩
      · rw [List.map_cons, List.mapM_cons]
        exact (run_bind_of_ok hdeclared).trans (run_bind_of_ok hvs)
      · have hsize : x.index < w.next.toList.length := by
          rw [Array.length_toList]
          omega
        have hlt : x.index < x.index + 1 + xs.length := by omega
        have hplaces : x.index + (xs.length + 1) = x.index + 1 + xs.length := by omega
        rw [hnext, hnext₁, Array.toList_setIfInBounds, take_succ_set hsize, List.drop_set,
          if_pos hlt, hplaces, List.append_assoc]
        rfl

/-- The state phase makes the next state what the domain declares. -/
theorem run_statePhase (h : Grounded d i m) (hfits : s.Fits m) (hw : Roomy m w)
    (hrun : (m.stateCpfs.forM (stepBlock m (stepState m s))).run w = (.ok (), w')) :
    ((m.groundFluents .state).mapM (m.declared d s)).run w.sampler =
      (.ok w'.next.toList, w'.sampler) := by
  have hlength : (m.drawings m.stateCpfs).length = m.groundCount .state := by
    rw [← Grounded.length_groundFluents, ← h.map_key_stateDrawings, List.length_map]
  have hindex : (m.drawings m.stateCpfs).map (·.index) =
      List.range' 0 (m.drawings m.stateCpfs).length := by
    rw [h.map_index_stateDrawings, hlength, List.range_eq_range']
  rw [h.forM_drawings (List.subset_append_left _ _)] at hrun
  obtain ⟨vs, hvs, hnext⟩ := run_stateDrawings h hfits (fun x hx => hx) hindex hw.slots
    (by rw [hw.next, hlength, Nat.zero_add]) hrun
  have hrest : w.next.toList.drop (m.groundCount .state) = [] := by
    rw [List.drop_eq_nil_iff, Array.length_toList, hw.next]
  rw [hlength, Nat.zero_add, List.take_zero, List.nil_append, hrest, List.append_nil] at hnext
  rw [← h.map_key_stateDrawings, hvs, hnext]

/-- A step that succeeds has gone through the state phase, the observation
phase and the reward.  The next state is settled after the first, and the
observations after the second. -/
theorem exists_phases {state action : Table} {reward : Float}
    (hrun : (advance m state action).run w = (.ok reward, w')) :
    ∃ w₁ w₂, (m.stateCpfs.forM (stepBlock m (stepState m
        (Snapshot.current m.nonFluents state action)))).run w = (.ok (), w₁) ∧
      (m.observationCpfs.forM (stepBlock m (stepObservation m w₁.next action))).run w₁ =
        (.ok (), w₂) ∧
      (eval (m.real (Snapshot.current m.nonFluents state action) m.reward)).run w₂ =
        (.ok reward, w') ∧
      w'.next = w₁.next ∧ w'.observed = w₂.observed := by
  obtain ⟨_, w₁, hstates, hrest⟩ := run_of_bind_eq_ok hrun
  obtain ⟨_, _, hget, hrest⟩ := run_of_bind_eq_ok hrest
  cases hget
  obtain ⟨_, w₂, hobservations, hreward⟩ := run_of_bind_eq_ok hrest
  have hphase : Keeps (fun w => w.next = w₁.next)
      (m.observationCpfs.forM (stepBlock m (stepObservation m w₁.next action)))
      fun _ => True := by
    refine Keeps.forM fun cpf _ => keeps_stepBlock fun b _ place _ => ?_
    exact keeps_stepObservation (fun _ _ _ hw => hw) _ _ _ fun _ _ _ hw => hw
  have hlast : Keeps (fun w => w.next = w₂.next ∧ w.observed = w₂.observed)
      (eval (m.real (Snapshot.current m.nonFluents state action) m.reward)) fun _ => True :=
    keeps_eval (fun _ _ _ hw => hw) _
  have hnext := hphase.after rfl hobservations
  have hend := hlast.after ⟨rfl, rfl⟩ hreward
  exact ⟨w₁, w₂, hstates, hobservations, hreward, hend.1.trans hnext, hend.2⟩

end Work

/-! ## Simultaneous update -/

/-- A workspace for a first step of the lamps. -/
def Lamps.workspace : Workspace where
  next := model.initialState
  observed := model.defaultObservation
  slots := Array.replicate model.maxSlots 0
  sampler := Sampler.ofSeed 7

theorem Lamps.roomy_workspace : Roomy model workspace :=
  ⟨by decide +kernel, by decide +kernel⟩

theorem Lamps.exists_advance :
    ∃ reward w', (Work.advance model model.initialState model.defaultAction).run workspace =
      (.ok reward, w') := by
  have hok : ((Work.advance model model.initialState model.defaultAction).run
      workspace).1.isOk = true := by decide +kernel
  rcases hrun : (Work.advance model model.initialState model.defaultAction).run workspace
    with ⟨f | reward, w'⟩
  · rw [hrun] at hok
    cases hok
  · exact ⟨reward, w', rfl⟩

namespace Model

variable {d : Domain} {i : Instance} {m : Model} {state action : Table}

/-- The state phase makes the drawings of the state fluents in their order, and
writes the value of each to its place, every place once.  When a step succeeds,
the next state lists what the domain declares for the state fluents, each drawn
with the sampler that the one before has left and from the state before the
step, the action and the non-fluents only.  What the next state and the slots
held before has no part in it. -/
theorem state_phase_simultaneous (h : Model.ground d i = .ok m)
    (hstate : state.size = m.groundCount .state) (haction : action.size = m.groundCount .action) :
    let s := Snapshot.current m.nonFluents state action
    m.stateCpfs.forM (Work.stepBlock m (Work.stepState m s)) =
        ((m.drawings m.stateCpfs).forM fun x => do
          let v ← Work.sampleGround m s x.block x.cpf.body x.place
          Work.writeNext x.index v) ∧
      (m.drawings m.stateCpfs).map (·.index) = List.range (m.groundCount .state) ∧
      (m.drawings m.stateCpfs).map (·.key m) = m.groundFluents .state ∧
      ∀ (w w' : Workspace) (reward : Float), Roomy m w →
        (Work.advance m state action).run w = (.ok reward, w') →
          (∃ sampler, ∀ s' : Snapshot, s'.nonFluents = m.nonFluents → s'.state = state →
            s'.action = action →
              ((m.groundFluents .state).mapM (m.declared d s')).run w.sampler =
                (.ok w'.next.toList, sampler)) ∧
          ∀ next slots, Roomy m { w with next, slots } →
            ∃ slots', (Work.advance m state action).run { w with next, slots } =
              (.ok reward, { w' with slots := slots' }) := by
  intro s
  have hg := grounded_of_ground h
  have hfits : s.Fits m := hg.fits_current hstate haction
  refine ⟨hg.forM_drawings (List.subset_append_left _ _), hg.map_index_stateDrawings,
    hg.map_key_stateDrawings, ?_⟩
  intro w w' reward hw hrun
  constructor
  · obtain ⟨w₁, _, hphase, _, _, hnext, _⟩ := Work.exists_phases hrun
    have hdrawn := Work.run_statePhase hg hfits hw hphase
    refine ⟨w₁.sampler, ?_⟩
    intro s' hnonFluents' hstate' haction'
    have hsame : (m.groundFluents .state).mapM (m.declared d s') =
        (m.groundFluents .state).mapM (m.declared d s) :=
      mapM_congr fun g hmem => hg.declared_state_congr hnonFluents' hstate' haction' hmem
    rw [hsame, hdrawn, hnext]
  · intro next slots hw'
    have halong : Alongside m 0 w { w with next, slots } :=
      { left := hw, right := hw', observed := rfl, sampler := rfl
        written := fun n hn => absurd hn (Nat.not_lt_zero n) }
    have hadvances : Advances m (Work.advance m state action) 0 (m.groundCount .state) :=
      Work.advances_step hg false state action
    obtain ⟨u, hu, hend⟩ := hadvances.run_ok halong hrun
    exact ⟨u.slots, hu.trans (congrArg (Prod.mk _) hend.eq_with_slots)⟩

/-- A step that leaves the lamps alone: the first one goes out or not by a coin,
whatever the table of the next state was filled with. -/
theorem state_phase_simultaneous_lamps :
    let m := Lamps.model
    let w := Lamps.workspace
    let filled : Workspace := { w with next := #[.int 9, .bool false, .bool true] }
    m.initialState.size = m.groundCount .state ∧ m.defaultAction.size = m.groundCount .action ∧
      Roomy m w ∧ Roomy m filled ∧
        ∃ reward w' slots sampler,
          (Work.advance m m.initialState m.defaultAction).run w = (.ok reward, w') ∧
            (Work.advance m m.initialState m.defaultAction).run filled =
              (.ok reward, { w' with slots }) ∧
              ((m.groundFluents .state).mapM (m.declared Lamps.domain
                  (Snapshot.current m.nonFluents m.initialState m.defaultAction))).run w.sampler =
                (.ok w'.next.toList, sampler) := by
  intro m w filled
  have hstate : m.initialState.size = m.groundCount .state := by decide +kernel
  have haction : m.defaultAction.size = m.groundCount .action := by decide +kernel
  have hfilled : Roomy m filled := ⟨by decide +kernel, Lamps.roomy_workspace.slots⟩
  obtain ⟨_, _, _, hphase⟩ := state_phase_simultaneous Lamps.ground_eq hstate haction
  obtain ⟨reward, w', hrun⟩ := Lamps.exists_advance
  obtain ⟨⟨sampler, hdrawn⟩, hother⟩ := hphase w w' reward Lamps.roomy_workspace hrun
  obtain ⟨slots, hrun'⟩ := hother filled.next filled.slots hfilled
  exact ⟨hstate, haction, Lamps.roomy_workspace, hfilled, reward, w', slots, sampler, hrun, hrun',
    hdrawn _ rfl rfl rfl⟩

end Model
end LiftedPomdp
