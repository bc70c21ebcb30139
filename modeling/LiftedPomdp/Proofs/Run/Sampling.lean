import LiftedPomdp.Proofs.Eval.Reading
import LiftedPomdp.Proofs.Eval.Refinement
import LiftedPomdp.Proofs.Run.Drawing
import LiftedPomdp.Proofs.Run.Simulation

/-!
# Drawing ground fluents

The function that a domain declares for a fluent tells how the value of each of
its ground fluents is drawn: the parameters stand for the objects that the
fluent is applied to, and the value is brought into the range of the fluent.  A
step draws ground fluents from compiled functions, with slots, ordinals and
places, and this comes to the same.
-/

namespace LiftedPomdp

open Effects Grounding FluentBlock

namespace Model

/-- A value brought into the range of its fluent. -/
def coerced (b : FluentBlock) (v : Value) : Meaning Value :=
  match v.coerce b.range with
  | some v => pure v
  | none => Meaning.fail (.typeMismatch b.range v.range (functionLabel b))

/-- The value of a ground fluent, drawn as the domain declares it. -/
def declared (m : Model) (d : Domain) (s : Snapshot) (g : GroundFluent) : Meaning Value :=
  match d.cpfs.find? (fun c => c.fluent == g.name), m.block? g.name with
  | some c, some b => do
    let v ← c.expr.meaning (m.world s (functionLabel b)) (c.params.zip g.args).reverse
    coerced b v
  | _, _ => throw (.abort (.unknownName g.name))

end Model

namespace Grounded

variable {d : Domain} {i : Instance} {m : Model} {c : CpfDecl} {b : FluentBlock} {e : CpfEntry}
  {s : Snapshot} {j : Nat}

/-- The objects that a ground fluent is applied to have the ordinals of its
place. -/
theorem ordinals?_groundFluent (h : Grounded d i m) (hb : b ∈ m.blocks) (hj : j < b.size) :
    m.ordinals? b.params (m.groundFluent b j).args = some (b.ordinals j) := by
  rw [Model.ordinals?_eq_some_iff h.namedApart, h.ordinals_eq hb]
  rw [h.size_eq hb] at hj
  refine ⟨ordinalsAt_inRange hj, ?_⟩
  rw [Model.groundFluent, h.ordinals_eq hb]

theorem declared_groundFluent (h : Grounded d i m) (hc : c ∈ d.cpfs)
    (hcompiled : CompiledCpf m c b e) (s : Snapshot) (j : Nat) :
    m.declared d s (m.groundFluent b j) = (do
      let v ← c.expr.meaning (m.world s (functionLabel b))
        (c.params.zip (m.groundFluent b j).args).reverse
      Model.coerced b v) := by
  have hnodup : (d.cpfs.toArray.toList.map (·.fluent)).Nodup :=
    (Domain.nodup_of_validate h.domainValid).2.2
  have hfind : d.cpfs.find? (fun c => c.fluent == b.name) = some c := by
    rw [← List.find?_toArray]
    exact (find?_key_eq_some_iff hnodup).mpr ⟨List.mem_toArray.mpr hc, hcompiled.name.symm⟩
  have hblock : m.block? b.name = some b :=
    h.block?_eq_some_iff.mpr ⟨Array.mem_of_getElem? hcompiled.block, rfl⟩
  unfold Model.declared
  rw [show (m.groundFluent b j).name = b.name from rfl, hfind, hblock]

/-- A draw does not see in which of two snapshots it is made, if they agree on
all that the function names. -/
theorem declared_congr (h : Grounded d i m) (hc : c ∈ d.cpfs) (hcompiled : CompiledCpf m c b e)
    {s s' : Snapshot}
    (hagree : ∀ p ∈ c.expr.parts,
      (m.world s (functionLabel b)).AgreesAt (m.world s' (functionLabel b)) p) (j : Nat) :
    m.declared d s (m.groundFluent b j) = m.declared d s' (m.groundFluent b j) := by
  rw [h.declared_groundFluent hc hcompiled, h.declared_groundFluent hc hcompiled,
    Expr.meaning_congr (m.akin_world s s' _) _ c.expr hagree]

/-- At a place of its block, the parameters of a declared function stand for the
objects whose ordinals the compiled one finds in its slots. -/
theorem exists_lowers (h : Grounded d i m) (hcompiled : CompiledCpf m c b e)
    (hcpf : e.cpf ∈ m.stateCpfs ++ m.observationCpfs) (hj : j < b.size) :
    ∃ (compiler : Compiler) (bound : List Binding), compiler.scope = m.scope ∧
      (∀ target, compiler.site = .observationCpf target → b.kind = .observation) ∧
        Lowers compiler m.maxSlots bound c.expr e.cpf.body.node ∧
          Denotes m.types bound (b.ordinals j).reverse
            (c.params.zip (m.groundFluent b j).args).reverse := by
  obtain ⟨site, hsite, label, hbody⟩ := hcompiled.body
  have hslots := Model.slots_cpf_le_maxSlots hcpf
  have hordinals := h.ordinals?_groundFluent (Array.mem_of_getElem? hcompiled.block) hj
  have henv := Denotes.params hcompiled.arity hordinals (Denotes.nil : Denotes m.types [] [] [])
  rw [List.append_nil, List.append_nil, List.append_nil] at henv
  refine ⟨_, _, rfl, ?_, (Compiler.compile_spec hbody).2 m.maxSlots hslots, henv⟩
  intro target htarget
  rcases hsite with ⟨_, rfl⟩ | ⟨hkind, _⟩
  · cases htarget
  · exact hkind

/-- At a place of its block, a compiled function refines the declared one. -/
theorem refines_function (h : Grounded d i m) (hcompiled : CompiledCpf m c b e)
    (hcpf : e.cpf ∈ m.stateCpfs ++ m.observationCpfs) (hj : j < b.size) (hfits : s.Fits m)
    (hobservations : b.kind = .observation →
      s.observations.size = m.groundCount .observation) :
    Refines (b.ordinals j).reverse m.maxSlots (m.value s e.cpf.body)
      (c.expr.meaning (m.world s (functionLabel b))
        (c.params.zip (m.groundFluent b j).args).reverse) := by
  obtain ⟨compiler, bound, hscope, hsite, hlowers, henv⟩ := h.exists_lowers hcompiled hcpf hj
  have hfits' : s.FitsSite m compiler.site :=
    { hfits with observations := fun target htarget => hobservations (hsite target htarget) }
  rw [← hcompiled.label]
  exact hlowers.refines h hscope hfits' henv

end Grounded

/-! ## Steps -/

namespace Work

variable {d : Domain} {i : Instance} {m : Model} {s : Snapshot} {w : Workspace} {x : Drawing}

/-- Before a draw the leading slots are made to hold the ordinals of its
place. -/
theorem exists_bound (h : Grounded d i m)
    (hx : x ∈ m.drawings (m.stateCpfs ++ m.observationCpfs)) (hroom : m.maxSlots ≤ w.slots.size) :
    ∃ slots, (bind 0 (x.block.ordinals x.place)).run w = (.ok (), { w with slots }) ∧
      Stands (x.block.ordinals x.place).reverse m.maxSlots { slots, sampler := w.sampler } := by
  obtain ⟨hcpf, hb, _⟩ := Model.mem_drawings.mp hx
  have hlength := h.length_ordinals (Array.mem_of_getElem? hb) x.place
  have hfew : (x.block.ordinals x.place).length ≤ m.maxSlots :=
    (h.local_cpf hcpf hb hlength (.current m.nonFluents #[] #[])).1
  obtain ⟨slots, hbind, hsize, htake⟩ := run_bind 0 (x.block.ordinals x.place) w
  have hleading := leading_of_take (Nat.le_trans hfew hroom) htake
  exact ⟨slots, hbind, by rwa [List.reverse_reverse], by rwa [← hsize] at hroom⟩

/-- A draw gives what the domain declares for its ground fluent, and changes
nothing but the slots and the sampler. -/
theorem run_sampleGround (h : Grounded d i m)
    (hx : x ∈ m.drawings (m.stateCpfs ++ m.observationCpfs)) (hfits : s.Fits m)
    (hobservations : x.block.kind = .observation →
      s.observations.size = m.groundCount .observation) (hroom : m.maxSlots ≤ w.slots.size) :
    ∃ r slots sampler, (sampleGround m s x.block x.cpf.body x.place).run w =
        (r.mapError (·.map SimError.domain), { w with slots, sampler }) ∧
      (m.declared d s (x.key m)).run w.sampler = (r, sampler) ∧
        ∀ v, r = .ok v → m.maxSlots ≤ slots.size := by
  obtain ⟨hcpf, hb, hplace⟩ := Model.mem_drawings.mp hx
  obtain ⟨c, hc, b, e, hcompiled, hbody⟩ := h.exists_decl hcpf
  rw [← hbody] at hb hcpf
  obtain rfl := Option.some.inj (hb.symm.trans hcompiled.block)
  obtain ⟨slots, hbind, hstands⟩ := exists_bound h hx hroom
  obtain ⟨r, u, _, hvalue, hmeaning, hend⟩ :=
    h.refines_function hcompiled hcpf hplace hfits hobservations _ _ ⟨hstands, rfl⟩
  have hdraw : m.distribution s e.cpf.body >>= Eval.draw = m.value s e.cpf.body :=
    Node.distribution_bind_draw _ _
  rw [← hdraw] at hvalue
  have heval := run_eval (w := { w with slots }) hvalue
  rw [Drawing.key, h.declared_groundFluent hc hcompiled, ← hbody]
  unfold sampleGround
  rw [run_bind_of_ok hbind]
  cases r with
  | error f =>
      obtain rfl : u.sampler = _ := hend
      exact ⟨.error f, u.slots, u.sampler, run_bind_of_error heval, run_bind_of_error hmeaning,
        nofun⟩
  | ok v =>
      obtain ⟨hafter, rfl⟩ : At _ _ _ _ := hend
      rw [run_bind_of_ok heval, run_bind_of_ok hmeaning, checked, Model.coerced, hcompiled.label]
      cases v.coerce x.block.range with
      | none => exact ⟨_, u.slots, u.sampler, rfl, rfl, nofun⟩
      | some v => exact ⟨.ok v, u.slots, u.sampler, rfl, rfl, fun _ _ => hafter.room⟩

end Work
end LiftedPomdp
