import LiftedPomdp.Proofs.Ground.Grounded

/-!
# The functions of a model

Grounding keeps exactly one function for each state fluent and each
observation fluent, and every function that the domain declares is kept.  The
functions of the state come in the order of their blocks, those of the
observations in dependency order.
-/

namespace LiftedPomdp

open Effects Grounding

namespace Grounding

theorem mem_numbersOf {blocks : Array FluentBlock} {kind : FluentKind} {n : Nat} :
    n ∈ numbersOf blocks kind ↔ ∃ b, blocks[n]? = some b ∧ b.kind = kind := by
  rw [numbersOf, List.mem_filter, List.mem_range]
  cases hb : blocks[n]? with
  | none => simp
  | some b =>
      have hn : n < blocks.size := (Array.getElem?_eq_some_iff.mp hb).1
      simp [hn]

theorem nodup_numbersOf (blocks : Array FluentBlock) (kind : FluentKind) :
    (numbersOf blocks kind).Nodup :=
  List.nodup_range.filter _

theorem entryFor_eq_some {entries : List CpfEntry} {n : Nat} {e : CpfEntry}
    (h : entryFor entries n = some e) : e ∈ entries ∧ e.cpf.target = n :=
  ⟨List.mem_of_find?_eq_some h, by simpa using List.find?_some h⟩

theorem entryFor_eq_some_iff {entries : List CpfEntry}
    (htargets : (entries.map (·.cpf.target)).Nodup) {n : Nat} {e : CpfEntry} :
    entryFor entries n = some e ↔ e ∈ entries ∧ e.cpf.target = n := by
  constructor
  · exact entryFor_eq_some
  · rintro ⟨he, rfl⟩
    obtain ⟨e', he'⟩ : ∃ e', entryFor entries e.cpf.target = some e' := by
      rw [← Option.isSome_iff_exists, entryFor, List.find?_isSome]
      exact ⟨e, he, beq_self_eq_true _⟩
    obtain ⟨hmem, htarget⟩ := entryFor_eq_some he'
    rw [he', List.inj_on_of_nodup_map htargets hmem he htarget]

/-- The observations that the function of a fluent reads. -/
def readsOf (entries : List CpfEntry) (n : Nat) : List Nat :=
  match entryFor entries n with
  | some e => e.reads
  | none => []

/-- The functions of some fluents that have one. -/
theorem map_target_filterMap {entries : List CpfEntry} {ns : List Nat}
    (h : ∀ n ∈ ns, ∃ e, entryFor entries n = some e) :
    (ns.filterMap fun n => (entryFor entries n).map (·.cpf)).map (·.target) = ns := by
  induction ns with
  | nil => rfl
  | cons n ns ih =>
      obtain ⟨e, he⟩ := h n List.mem_cons_self
      have hrest := ih fun k hk => h k (List.mem_cons_of_mem n hk)
      rw [List.filterMap_cons_some (b := e.cpf) (by rw [he, Option.map_some]), List.map_cons,
        hrest, (entryFor_eq_some he).2]

/-- What errors call the function of a fluent. -/
def functionLabel (b : FluentBlock) : String :=
  if b.kind = .state then b.name ++ "'" else b.name

/-- What compiling a function establishes of its entry. -/
structure CompiledCpf (m : Model) (c : CpfDecl) (b : FluentBlock) (e : CpfEntry) : Prop where
  block : m.blocks[e.cpf.target]? = some b
  name : b.name = c.fluent
  arity : c.params.length = b.params.length
  body : ∃ site,
    (b.kind = .state ∧ site = Site.stateCpf e.cpf.target ∨
      b.kind = .observation ∧ site = Site.observationCpf e.cpf.target) ∧
    ∃ label, Compiler.compile { scope := m.scope, site, label }
      (List.zipWith Binding.mk c.params b.params) c.expr = .ok (e.cpf.body, e.reads)
  label : e.cpf.body.label = functionLabel b

theorem label_of_compile {c : Compiler} {params : List Binding} {e : Expr} {body : Compiled}
    {reads : List Nat} (h : c.compile params e = .ok (body, reads)) : body.label = c.label := by
  unfold Compiler.compile at h
  split at h
  · cases h
  · cases h
    rfl

theorem compiledCpf_of_compileCpf {m : Model} {c : CpfDecl} {e : CpfEntry}
    (h : compileCpf m.scope c = .ok e) : ∃ b, CompiledCpf m c b e := by
  unfold compileCpf at h
  split at h
  · cases h
  next target htarget =>
    split at h
    · cases h
    next b hb =>
      have hname : b.name = c.fluent := by
        obtain ⟨hlt, hfound, _⟩ := Array.findIdx?_eq_some_iff_getElem.mp htarget
        obtain ⟨_, rfl⟩ := Array.getElem?_eq_some_iff.mp hb
        simpa using hfound
      by_cases harity : c.params.length = b.params.length
      · cases hkind : b.kind with
        | state =>
            simp only [hkind, bind_eq_ok_iff, pure_eq_ok_iff, exists_eq_left',
              if_neg (not_not_intro harity)] at h
            obtain ⟨⟨body, reads⟩, hcompile, rfl⟩ := h
            have hlabel := label_of_compile hcompile
            exact ⟨b, hb, hname, harity, ⟨_, .inl ⟨hkind, rfl⟩, _, hcompile⟩,
              by rw [hlabel, functionLabel, hkind, if_pos rfl]⟩
        | observation =>
            simp only [hkind, bind_eq_ok_iff, pure_eq_ok_iff, exists_eq_left',
              if_neg (not_not_intro harity)] at h
            obtain ⟨⟨body, reads⟩, hcompile, rfl⟩ := h
            have hlabel := label_of_compile hcompile
            exact ⟨b, hb, hname, harity, ⟨_, .inr ⟨hkind, rfl⟩, _, hcompile⟩,
              by rw [hlabel, functionLabel, hkind, if_neg (by decide)]⟩
        | nonFluent => simp [hkind, bind_eq_ok_iff] at h
        | action => simp [hkind, bind_eq_ok_iff] at h
      · cases hkind : b.kind <;> simp [hkind, harity, bind_eq_ok_iff] at h

theorem compileConstraints_eq_ok {scope : Scope} {n : Nat} {es : List Expr}
    {bodies : List Compiled} (h : compileConstraints scope n es = .ok bodies) :
    List.Forall₂ (fun e body => ∃ label reads,
      Compiler.compile { scope, site := .constraint, label } [] e = .ok (body, reads))
      es bodies := by
  induction es generalizing n bodies with
  | nil =>
      cases h
      exact .nil
  | cons e es ih =>
      simp only [compileConstraints, bind_eq_ok_iff, pure_eq_ok_iff] at h
      obtain ⟨⟨body, reads⟩, hbody, rest, hrest, rfl⟩ := h
      exact .cons ⟨_, reads, hbody⟩ (ih hrest)

end Grounding

namespace Grounded

variable {d : Domain} {i : Instance} {m : Model} {entries : List CpfEntry}

theorem exists_entry (hf : CompiledFunctions d m entries) {kind : FluentKind}
    (hkind : kind.isComputed = true) {n : Nat} (hn : n ∈ numbersOf m.blocks kind) :
    ∃ e, entryFor entries n = some e := by
  obtain ⟨b, hb, rfl⟩ := mem_numbersOf.mp hn
  have hlt : n < m.blocks.size := (Array.getElem?_eq_some_iff.mp hb).1
  have hcheck := forM_eq_ok_iff.mp hf.complete n (List.mem_range.mpr hlt)
  cases he : entryFor entries n with
  | none => simp [hb, hkind, he] at hcheck
  | some e => exact ⟨e, rfl⟩

/-- The functions of the state are those of all state fluents, in the order of
their blocks. -/
theorem stateCpfs_targets (h : Grounded d i m) :
    m.stateCpfs.map (·.target) = numbersOf m.blocks .state := by
  obtain ⟨entries, hf⟩ := h.functions
  rw [hf.states]
  exact map_target_filterMap fun n hn => exists_entry hf rfl hn

theorem observationCpfs_eq (hf : CompiledFunctions d m entries) :
    ∃ order : List Nat,
      Dependency.order (readsOf entries) (numbersOf m.blocks .observation) = .ok order ∧
        order.Perm (numbersOf m.blocks .observation) ∧
          m.observationCpfs = order.filterMap fun n => (entryFor entries n).map (·.cpf) := by
  have hobservations := hf.observations
  unfold orderObservations at hobservations
  dsimp only at hobservations
  split at hobservations
  next order horder =>
    exact ⟨order, horder, Dependency.order_perm (nodup_numbersOf m.blocks .observation) horder,
      (Except.ok.inj hobservations).symm⟩
  · cases hobservations

/-- The functions of the observations are those of all observation fluents. -/
theorem observationCpfs_targets (h : Grounded d i m) :
    (m.observationCpfs.map (·.target)).Perm (numbersOf m.blocks .observation) := by
  obtain ⟨entries, hf⟩ := h.functions
  obtain ⟨order, _, hperm, heq⟩ := observationCpfs_eq hf
  rw [heq, map_target_filterMap]
  · exact hperm
  · intro n hn
    exact exists_entry hf rfl (hperm.mem_iff.mp hn)

theorem map_fluentName_entries (hf : CompiledFunctions d m entries) :
    entries.map (fun e => m.fluentName e.cpf.target) = d.cpfs.map (·.fluent) := by
  rw [← List.forall₂_eq_eq_eq, List.forall₂_map_left_iff, List.forall₂_map_right_iff]
  refine (hf.compiled.imp fun c e hce => ?_).flip
  obtain ⟨b, hcompiled⟩ := compiledCpf_of_compileCpf hce
  change m.fluentName e.cpf.target = c.fluent
  simp only [Model.fluentName, hcompiled.block, hcompiled.name]

/-- No two functions of a model are for the same fluent. -/
theorem targets_nodup (h : Grounded d i m) (hf : CompiledFunctions d m entries) :
    (entries.map (·.cpf.target)).Nodup := by
  have hnodup := (Domain.nodup_of_validate h.domainValid).2.2
  rw [← map_fluentName_entries hf] at hnodup
  apply List.Nodup.of_map m.fluentName
  rwa [List.map_map]

/-- The entry of a function is found under the number of its fluent. -/
theorem entryFor_target (h : Grounded d i m) (hf : CompiledFunctions d m entries)
    {e : CpfEntry} (he : e ∈ entries) : entryFor entries e.cpf.target = some e :=
  (entryFor_eq_some_iff (targets_nodup h hf)).mpr ⟨he, rfl⟩

/-- Every declared function is kept. -/
theorem exists_cpf (h : Grounded d i m) {c : CpfDecl} (hc : c ∈ d.cpfs) :
    ∃ e b, CompiledCpf m c b e ∧ e.cpf ∈ m.stateCpfs ++ m.observationCpfs := by
  obtain ⟨entries, hf⟩ := h.functions
  obtain ⟨e, he, hce⟩ := exists_of_mem_of_forall₂ hf.compiled hc
  obtain ⟨b, hcompiled⟩ := compiledCpf_of_compileCpf hce
  have hentry := entryFor_target h hf he
  refine ⟨e, b, hcompiled, List.mem_append.mpr ?_⟩
  obtain ⟨site, hsite, _⟩ := hcompiled.body
  rcases hsite with ⟨hkind, _⟩ | ⟨hkind, _⟩
  · left
    rw [hf.states, List.mem_filterMap]
    exact ⟨e.cpf.target, mem_numbersOf.mpr ⟨b, hcompiled.block, hkind⟩, by rw [hentry]; rfl⟩
  · right
    obtain ⟨order, _, hperm, heq⟩ := observationCpfs_eq hf
    rw [heq, List.mem_filterMap]
    exact ⟨e.cpf.target, hperm.mem_iff.mpr (mem_numbersOf.mpr ⟨b, hcompiled.block, hkind⟩),
      by rw [hentry]; rfl⟩

theorem mem_entries_of_mem_filterMap {ns : List Nat} {cpf : Cpf}
    (h : cpf ∈ ns.filterMap fun n => (entryFor entries n).map (·.cpf)) :
    ∃ e ∈ entries, e.cpf = cpf := by
  obtain ⟨n, _, hn⟩ := List.mem_filterMap.mp h
  obtain ⟨e, he, rfl⟩ := Option.map_eq_some_iff.mp hn
  exact ⟨e, (entryFor_eq_some he).1, rfl⟩

/-- Every function of a model was declared. -/
theorem exists_decl (h : Grounded d i m) {cpf : Cpf}
    (hcpf : cpf ∈ m.stateCpfs ++ m.observationCpfs) :
    ∃ c ∈ d.cpfs, ∃ b e, CompiledCpf m c b e ∧ e.cpf = cpf := by
  obtain ⟨entries, hf⟩ := h.functions
  obtain ⟨e, he, rfl⟩ : ∃ e ∈ entries, e.cpf = cpf := by
    rcases List.mem_append.mp hcpf with hstate | hobservation
    · rw [hf.states] at hstate
      exact mem_entries_of_mem_filterMap hstate
    · obtain ⟨order, _, _, heq⟩ := observationCpfs_eq hf
      rw [heq] at hobservation
      exact mem_entries_of_mem_filterMap hobservation
  obtain ⟨c, hc, hce⟩ := exists_of_mem_of_forall₂ hf.compiled.flip he
  obtain ⟨b, hcompiled⟩ := compiledCpf_of_compileCpf hce
  exact ⟨c, hc, b, e, hcompiled, rfl⟩

/-- A function of an observation fluent comes after those of all other
observation fluents that it reads. -/
theorem exists_decl_of_split (h : Grounded d i m) {before after : List Cpf} {cpf : Cpf}
    (hsplit : m.observationCpfs = before ++ cpf :: after) :
    ∃ c ∈ d.cpfs, ∃ b e, CompiledCpf m c b e ∧ e.cpf = cpf ∧
      ∀ k ∈ e.reads, k ≠ cpf.target → k ∈ numbersOf m.blocks .observation →
        k ∈ before.map (·.target) := by
  obtain ⟨entries, hf⟩ := h.functions
  obtain ⟨order, horder, hperm, heq⟩ := observationCpfs_eq hf
  have htargets : m.observationCpfs.map (·.target) = order := by
    rw [heq, map_target_filterMap]
    intro n hn
    exact exists_entry hf rfl (hperm.mem_iff.mp hn)
  rw [hsplit, List.map_append, List.map_cons] at htargets
  rw [← htargets] at horder
  have hmem : cpf ∈ m.observationCpfs := by
    rw [hsplit]
    exact List.mem_append_right before List.mem_cons_self
  rw [heq] at hmem
  obtain ⟨e, he, rfl⟩ := mem_entries_of_mem_filterMap hmem
  obtain ⟨c, hc, hce⟩ := exists_of_mem_of_forall₂ hf.compiled.flip he
  obtain ⟨b, hcompiled⟩ := compiledCpf_of_compileCpf hce
  have hreads : readsOf entries e.cpf.target = e.reads := by
    rw [readsOf, entryFor_target h hf he]
  refine ⟨c, hc, b, e, hcompiled, rfl, ?_⟩
  intro k hk hne hnumber
  rw [← hreads] at hk
  exact Dependency.mem_before_of_order (nodup_numbersOf m.blocks .observation) horder hk hne
    hnumber

theorem forall₂_numbersOf (m : Model) (kind : FluentKind) :
    List.Forall₂ (fun n b => m.blocks[n]? = some b) (numbersOf m.blocks kind)
      (m.blocksOf kind) := by
  have hall : List.Forall₂ (fun n b => m.blocks[n]? = some b) (List.range m.blocks.size)
      m.blocks.toList := by
    refine List.forall₂_iff_get.mpr ⟨by simp, fun n hn hn' => ?_⟩
    rw [List.get_eq_getElem, List.get_eq_getElem, List.getElem_range, ← Array.getElem?_toList]
    exact List.getElem?_eq_getElem hn'
  refine List.rel_filter (fun n b hb => ?_) hall
  simp only [hb]

/-- The functions of the state compute its blocks from the first to the
last. -/
theorem stateCpfs_blocks (h : Grounded d i m) :
    List.Forall₂ (fun cpf b => m.blocks[cpf.target]? = some b) m.stateCpfs
      (m.blocksOf .state) := by
  have hstates := forall₂_numbersOf m .state
  rw [← h.stateCpfs_targets] at hstates
  exact List.forall₂_map_left_iff.mp hstates

end Grounded
end LiftedPomdp
