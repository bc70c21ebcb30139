import LiftedPomdp.Proofs.Ground.Functions
import LiftedPomdp.Proofs.Ground.Tables

/-!
# The order of declarations

Fluents are sorted by name, functions are kept by the number of their fluent, and
assignments to different ground fluents write to different places.  So the order in
which a domain declares fluents and functions, and the order in which an instance
assigns values to different ground fluents, leave no trace in the model but its
fingerprint.
-/

namespace LiftedPomdp

open Effects Grounding

/-! ## Fluents -/

namespace Domain

variable {d : Domain} {fluents : List FluentDecl} {cpfs : List CpfDecl}

/-- What validation demands of the fluents and functions of a domain, it demands of each of them
and of their names. -/
theorem validate_of_perm (hfluents : fluents.Perm d.fluents) (hcpfs : cpfs.Perm d.cpfs)
    (h : d.validate = .ok ()) : validate { d with fluents, cpfs } = .ok () := by
  simp only [validate, seq_eq_ok_iff, forM_eq_ok_iff, checkDistinct_eq_ok_iff, hfluents.mem_iff,
    hcpfs.mem_iff, (hfluents.map _).nodup_iff, (hcpfs.map _).nodup_iff] at h ⊢
  exact h

end Domain

namespace Grounding

variable {d : Domain} {fluents : List FluentDecl} {cpfs : List CpfDecl}

/-- The order by name does not depend on the order of the declarations. -/
theorem sortedFluents_of_perm (hfluents : fluents.Perm d.fluents)
    (hnames : (d.fluents.map (·.name)).Nodup) (cpfs : List CpfDecl) :
    sortedFluents { d with fluents, cpfs } = sortedFluents d :=
  (Grounded.sortedFluents_eq ((Grounding.sortedFluents_perm _).trans hfluents) hnames
    (Grounded.sortedFluents_sorted _)).symm

theorem usedTypes_of_perm (hfluents : fluents.Perm d.fluents) (hcpfs : cpfs.Perm d.cpfs) :
    (usedTypes { d with fluents, cpfs }).Perm (usedTypes d) := by
  have hexprs : (Domain.exprs { d with fluents, cpfs }).Perm d.exprs :=
    (hcpfs.map _).append_right _
  exact (hfluents.flatMap_right _).append (hexprs.flatMap_right _)

theorem checkInhabited_of_perm (hfluents : fluents.Perm d.fluents) (hcpfs : cpfs.Perm d.cpfs)
    (types : Array ObjectType) :
    checkInhabited { d with fluents, cpfs } types = checkInhabited d types := by
  simp only [checkInhabited, (usedTypes_of_perm hfluents hcpfs).contains_eq]

end Grounding

/-! ## Assignments -/

namespace Assignment

/-- The ground fluent that an assignment gives a value. -/
def target (a : Assignment) : GroundFluent :=
  { name := a.fluent, args := a.args }

/-- The same assignments, in another order at most where no ground fluent is assigned
twice. -/
structure Reordered (assignments assignments' : List Assignment) : Prop where
  perm : assignments'.Perm assignments
  once : assignments' ≠ assignments → (assignments.map target).Nodup

end Assignment

namespace Grounded

variable {d : Domain} {i : Instance} {m : Model} {kind : FluentKind} {context : String}

/-- Assignments to different ground fluents can be exchanged. -/
theorem assign_swap (h : Grounded d i m) {table table' : Table} {a a' : Assignment}
    (hne : a.target ≠ a'.target)
    (hassign : (assign m.types m.blocks kind context table a >>= fun t =>
      assign m.types m.blocks kind context t a') = .ok table') :
    (assign m.types m.blocks kind context table a' >>= fun t =>
      assign m.types m.blocks kind context t a) = .ok table' := by
  obtain ⟨t, hfirst, hsecond⟩ := bind_eq_ok_iff.mp hassign
  obtain ⟨b, -, -, j, -, v, -, hplace, hlt, hwrite⟩ := h.exists_write hfirst
  obtain ⟨b', -, -, j', -, v', -, hplace', hlt', hwrite'⟩ := h.exists_write hsecond
  have happart : b.offset + j ≠ b'.offset + j' := by
    intro hsame
    rw [← hsame] at hplace'
    have hread := (h.locate?_iff_getElem?.mp hplace).symm.trans (h.locate?_iff_getElem?.mp hplace')
    exact hne (Option.some.inj hread)
  obtain rfl := Except.ok.inj ((hwrite table hlt).symm.trans hfirst)
  rw [hwrite' _ hlt'] at hsecond
  rw [Array.size_setIfInBounds] at hlt'
  refine bind_eq_ok_iff.mpr ⟨_, hwrite' table hlt', ?_⟩
  rw [hwrite _ (by rwa [Array.size_setIfInBounds]), ← Array.setIfInBounds_comm _ _ happart]
  exact hsecond

theorem assignAll_of_reordered (h : Grounded d i m) {assignments assignments' : List Assignment}
    {table : Table} (hreordered : Assignment.Reordered assignments assignments')
    (hassign : assignAll m.types m.blocks kind context assignments = .ok table) :
    assignAll m.types m.blocks kind context assignments' = .ok table := by
  by_cases hsame : assignments' = assignments
  · rwa [hsame]
  have happart : assignments.Pairwise fun a a' => a.target ≠ a'.target :=
    List.pairwise_map.mp (hreordered.once hsame)
  rw [assignAll, seq_eq_ok_iff] at hassign ⊢
  refine ⟨hassign.1, foldlM_eq_ok_of_perm (fun hne => hne.symm) ?_ hreordered.perm.symm happart
    hassign.2⟩
  intro a a' t t' hne hswap
  exact h.assign_swap hne hswap

end Grounded

/-! ## Functions -/

/-- A function is found under the number of its fluent, in whatever order the functions were
compiled. -/
theorem Grounding.entryFor_of_perm {entries entries' : List CpfEntry}
    (htargets : (entries.map (·.cpf.target)).Nodup) (hperm : entries'.Perm entries) :
    entryFor entries' = entryFor entries := by
  have htargets' : (entries'.map (·.cpf.target)).Nodup := (hperm.map _).nodup_iff.mpr htargets
  funext n
  ext e
  rw [entryFor_eq_some_iff htargets, entryFor_eq_some_iff htargets', hperm.mem_iff]

namespace Grounded

variable {d : Domain} {i : Instance} {m : Model}

/-- Functions declared in another order are compiled and ordered alike. -/
theorem functions_of_perm (h : Grounded d i m) {cpfs : List CpfDecl} (hcpfs : cpfs.Perm d.cpfs)
    (fluents : List FluentDecl) :
    ∃ entries, CompiledFunctions { d with fluents, cpfs } m entries := by
  obtain ⟨entries, hf⟩ := h.functions
  obtain ⟨entries', hcompiled, hperm⟩ := List.perm_comp_forall₂ hcpfs hf.compiled
  have hentry := entryFor_of_perm (targets_nodup h hf) hperm
  refine ⟨entries', hcompiled, ?_, ?_, ?_⟩
  · simpa only [checkComplete, hentry] using hf.complete
  · simpa only [orderObservations, hentry] using hf.observations
  · simpa only [hentry] using hf.states

/-- Declarations in another order ground to the same model, the fingerprint apart. -/
theorem reorder (h : Grounded d i m) {fluents : List FluentDecl} {cpfs : List CpfDecl}
    {nonFluents initState : List Assignment} {fingerprint : List UInt8}
    (hfluents : fluents.Perm d.fluents) (hcpfs : cpfs.Perm d.cpfs)
    (hnonFluents : Assignment.Reordered i.nonFluents nonFluents)
    (hinitState : Assignment.Reordered i.initState initState)
    (hfingerprint : fingerprint =
      Grounding.fingerprint { d with fluents, cpfs } { i with nonFluents, initState }) :
    Grounded { d with fluents, cpfs } { i with nonFluents, initState }
      { m with fingerprint } := by
  have hnames := (Domain.nodup_of_validate h.domainValid).2.1
  have hsorted := sortedFluents_of_perm hfluents hnames cpfs
  obtain ⟨entries, hf⟩ := h.functions_of_perm hcpfs fluents
  exact { h with
    domainValid := Domain.validate_of_perm hfluents hcpfs h.domainValid
    blocks := hsorted ▸ h.blocks
    inhabited := (checkInhabited_of_perm hfluents hcpfs m.types).trans h.inhabited
    nonFluents := h.assignAll_of_reordered hnonFluents h.nonFluents
    initialState := h.assignAll_of_reordered hinitState h.initialState
    functions := ⟨entries, hf.compiled, hf.complete, hf.observations, hf.states⟩
    fingerprint := hfingerprint }

end Grounded
end LiftedPomdp
