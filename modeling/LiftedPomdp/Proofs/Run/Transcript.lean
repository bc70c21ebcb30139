import LiftedPomdp.Proofs.Bytes
import LiftedPomdp.Proofs.Run.Ledger

/-!
# What a transcript tells

The fields of a transcript stand one after the other, without separators.  It can
be taken apart all the same: over one model every step adds the same number of
bytes, and the values of the observations have nine bytes each, from which their
ranges and contents are read.  So a transcript tells the seed, how many steps were
committed, and the reward and all observations of each.
-/

namespace LiftedPomdp

open Effects Grounding

/-! ## The bytes of a step -/

/-- What the transcript tells of a step. -/
def Transition.told (t : Transition) : Float × Valuation :=
  (t.reward, t.observation)

/-- Whether the observations of a step are those of the given ground fluents. -/
def Transition.Covers (fluents : List GroundFluent) (t : Transition) : Prop :=
  t.observation.entries.map (·.1) = fluents

variable {fluents : List GroundFluent} {t t' : Transition}

/-- All steps with observations of the same ground fluents add equally many
bytes. -/
theorem length_stepBytes (h : t.Covers fluents) (i : Nat) :
    (stepBytes i t).length = 12 + 9 * fluents.length := by
  have hcount : t.observation.entries.length = fluents.length := by
    rw [← h, List.length_map]
  have hvalues : (t.observation.entries.flatMap fun entry => entry.2.bytes).length =
      9 * fluents.length := by
    rw [List.length_flatMap, ← hcount]
    simp [Nat.mul_comm]
  rw [stepBytes, List.length_append, List.length_append, hvalues, Bytes.length_littleEndian,
    Bytes.length_littleEndian, ← Nat.add_assoc]

/-- Of two steps with the same number the bytes tell which reward and which
observations they have. -/
theorem stepBytes_inj (h : t.Covers fluents) (h' : t'.Covers fluents) (i : Nat) :
    stepBytes i t = stepBytes i t' ↔ t.told = t'.told := by
  constructor
  · intro hbytes
    obtain ⟨hreward, hvalues⟩ :=
      List.append_inj (List.append_cancel_left hbytes) (by simp)
    rw [Bytes.littleEndian_uint64_inj, toBits_inj] at hreward
    have hcontents : t.observation.entries.map (·.2) = t'.observation.entries.map (·.2) := by
      apply Value.flatMap_bytes_inj.mp
      rwa [List.flatMap_map, List.flatMap_map]
    have hentries : t.observation.entries = t'.observation.entries := by
      rw [← List.zip_unzip t.observation.entries, ← List.zip_unzip t'.observation.entries,
        List.unzip_eq_map, List.unzip_eq_map, h, h', hcontents]
    exact Prod.ext hreward (congrArg Valuation.mk hentries)
  · intro htold
    obtain ⟨hreward, hobservation⟩ := Prod.mk.inj htold
    rw [stepBytes, stepBytes, hreward, hobservation]

/-! ## The bytes of all steps -/

/-- Where one place of a list is told from the others by `f` as it is by `g`, so is
the whole list. -/
theorem mapIdx_eq_mapIdx_iff_map_eq_map {α β γ : Type} {f : Nat → α → β} {g : α → γ}
    {as as' : List α} (h : ∀ i, ∀ a ∈ as, ∀ a' ∈ as', f i a = f i a' ↔ g a = g a') :
    as.mapIdx f = as'.mapIdx f ↔ as.map g = as'.map g := by
  induction as generalizing as' f with
  | nil => cases as' <;> simp
  | cons a as ih =>
      cases as' with
      | nil => simp
      | cons a' as' =>
          have hfirst := h 0 a List.mem_cons_self a' List.mem_cons_self
          have hrest := ih (f := fun i => f (i + 1)) fun i b hb b' hb' =>
            h (i + 1) b (List.mem_cons_of_mem a hb) b' (List.mem_cons_of_mem a' hb')
          simp only [List.mapIdx_cons, List.map_cons, List.cons.injEq, hfirst, hrest]

variable {steps steps' : List Transition}

/-- The bytes of all steps tell how many they are and what is told of each. -/
theorem flatten_stepBytes_inj (h : ∀ t ∈ steps, t.Covers fluents)
    (h' : ∀ t ∈ steps', t.Covers fluents) :
    (steps.mapIdx stepBytes).flatten = (steps'.mapIdx stepBytes).flatten ↔
      steps.map Transition.told = steps'.map Transition.told := by
  have hwidth : ∀ {ts : List Transition}, (∀ t ∈ ts, t.Covers fluents) →
      ∀ b ∈ ts.mapIdx stepBytes, b.length = 12 + 9 * fluents.length := by
    intro ts hts b hb
    obtain ⟨i, hi, rfl⟩ := List.mem_mapIdx.mp hb
    exact length_stepBytes (hts _ (List.getElem_mem hi)) i
  rw [Bytes.flatten_inj (by omega) (hwidth h) (hwidth h')]
  apply mapIdx_eq_mapIdx_iff_map_eq_map
  exact fun i t ht t' ht' => stepBytes_inj (h t ht) (h' t' ht') i

/-- A transcript tells the seed and the steps, given that there are no steps before
the first reset. -/
theorem transcriptOf_inj {fingerprint : List UInt8} {s s' : Option UInt64}
    (h : ∀ t ∈ steps, t.Covers fluents) (h' : ∀ t ∈ steps', t.Covers fluents)
    (hnone : s = none → steps = []) (hnone' : s' = none → steps' = []) :
    transcriptOf fingerprint s steps = transcriptOf fingerprint s' steps' ↔
      s = s' ∧ steps.map Transition.told = steps'.map Transition.told := by
  have hnonempty : ∀ (seed : UInt64) (bs : List UInt8),
      fingerprint ++ (Bytes.littleEndian 8 seed.toNat ++ bs) ≠ [] := by
    intro seed bs hempty
    have hlength := congrArg List.length hempty
    simp at hlength
  cases s with
  | none =>
      obtain rfl := hnone rfl
      cases s' with
      | none =>
          obtain rfl := hnone' rfl
          simp
      | some seed' => exact iff_of_false (hnonempty seed' _).symm (fun heq => nomatch heq.1)
  | some seed =>
      cases s' with
      | none => exact iff_of_false (hnonempty seed _) (fun heq => nomatch heq.1)
      | some seed' =>
          rw [transcriptOf, transcriptOf, List.append_cancel_left_eq, Option.some.injEq,
            ← flatten_stepBytes_inj h h', ← Bytes.littleEndian_uint64_inj]
          constructor
          · exact fun hbytes => List.append_inj hbytes (by simp)
          · rintro ⟨hseed, hsteps⟩
            rw [hseed, hsteps]

/-! ## The transcripts of episodes -/

namespace Episode

/-- What the transcript tells of a step of an episode. -/
def told (o : StepOutcome) : Float × Valuation :=
  (o.reward, o.observation)

variable {d : Domain} {i : Instance} {m : Model} {c : EngineConfig} {e₀ : Episode}

/-- What is told of the outcomes of an episode is told of the steps of its
engine. -/
theorem Booked.map_told {s : Option UInt64} {outcomes : List StepOutcome} {e : Episode}
    (h : Booked s steps outcomes e) : outcomes.map told = steps.map Transition.told := by
  apply List.ext_getElem?
  intro i
  rw [List.getElem?_map, List.getElem?_map, h.outcome i, Option.map_map]
  rfl

theorem seed_step (e : Episode) (a : Action) : (e.step a).2.seed = e.seed := by
  obtain hnone | ⟨seed, hseed⟩ := Option.eq_none_or_eq_some e.seed
  · rw [step_of_none hnone]
  · obtain ⟨⟨r, engine⟩, hstep⟩ : ∃ o, e.engine.step a = o := ⟨_, rfl⟩
    cases r with
    | error f => rw [step_of_error hseed hstep]
    | ok t =>
        rw [step_of_ok hseed hstep]
        rfl

/-- Nothing is committed before the first reset. -/
theorem committed_of_seed_none (e : Episode) (calls : List Call) :
    (outcome call e calls).seed = none → committed (history call e calls) = [] := by
  have hcall : ∀ (e : Episode) (k : Call) (steps : List StepOutcome),
      (e.seed = none → steps = []) →
        (e.call k).2.seed = none → (e.call k).1.enter steps = [] := by
    intro e k steps he
    cases k with
    | reset => exact fun _ => rfl
    | resetWithSeed seed => exact fun _ => rfl
    | step a =>
        intro hseed
        have hbefore : e.seed = none := (seed_step e a).symm.trans hseed
        rw [call, step_of_none hbefore]
        exact he hbefore
  exact committed_preserves (P := fun (e : Episode) steps => e.seed = none → steps = []) hcall
    (fun _ => rfl) calls

/-- After any calls the transcript of an episode is that of steps that carry the
observations of its model and of which the outcomes tell the same. -/
theorem told_of_calls (h : Grounded d i m) (he₀ : Episode.create m c = .ok e₀)
    (calls : List Call) :
    let e := outcome call e₀ calls
    ∃ steps : List Transition, (∀ t ∈ steps, t.Covers (m.groundFluents .observation)) ∧
      (committed (history call e₀ calls)).map told = steps.map Transition.told ∧
      (e.seed = none → steps = []) ∧ e.transcript = transcriptOf m.fingerprint e.seed steps := by
  intro e
  have hconfigured : Configured m c e :=
    configured_of_reachable h (reachable_outcome (.create he₀) calls)
  obtain ⟨hbooked, -⟩ := (Booked.create he₀).calls calls
  have htyped : Engine.Typed m e₀.engine := by
    obtain ⟨engine, hcreate, he⟩ := bind_eq_ok_iff.mp he₀
    cases he
    exact Engine.typed_create h hcreate
  have htold := hbooked.map_told
  refine ⟨_, Engine.observations_canonical h htyped (e₀.engineCalls calls), htold, ?_, ?_⟩
  · intro hnone
    have hempty := committed_of_seed_none e₀ calls hnone
    exact List.map_eq_nil_iff.mp (htold.symm.trans (congrArg (List.map told) hempty))
  · rw [← hconfigured.engine.fits.model, hbooked.seed]
    exact hbooked.transcript_eq

theorem covers_of_told {outcomes : List StepOutcome}
    (h : ∀ t ∈ steps, t.Covers fluents)
    (htold : outcomes.map told = steps.map Transition.told) :
    ∀ o ∈ outcomes, o.observation.entries.map (·.1) = fluents := by
  intro o ho
  obtain ⟨t, ht, hsame⟩ := List.mem_map.mp (htold ▸ List.mem_map_of_mem ho)
  have hobservation : t.observation = o.observation := congrArg Prod.snd hsame
  rw [← hobservation]
  exact h t ht

end Episode

namespace Model

variable {d : Domain} {i : Instance} {m : Model} {c c' : EngineConfig} {e₀ e₀' : Episode}

/-- A transcript tells the seed of the last reset and, for every step committed
since, its reward and the values of all ground observation fluents, bit for bit and
with their ranges: two episodes of a model have one transcript exactly where they
agree in all of this, whatever was called.  Every use of an episode comes down to
such calls. -/
theorem transcript_injective (h : Model.ground d i = .ok m)
    (he₀ : Episode.create m c = .ok e₀) (he₀' : Episode.create m c' = .ok e₀') :
    (∀ e, Episode.Reachable m c e → ∃ calls, e = outcome Episode.call e₀ calls) ∧
      (∀ e, Episode.Reachable m c' e → ∃ calls, e = outcome Episode.call e₀' calls) ∧
      ∀ calls calls' : List Episode.Call,
        let e := outcome Episode.call e₀ calls
        let e' := outcome Episode.call e₀' calls'
        let steps := committed (history Episode.call e₀ calls)
        let steps' := committed (history Episode.call e₀' calls')
        (∀ o ∈ steps ++ steps',
            o.observation.entries.map (·.1) = m.groundFluents .observation) ∧
          (e.transcript = e'.transcript ↔
            e.seed = e'.seed ∧
              steps.map (fun o => (o.reward, o.observation)) =
                steps'.map fun o => (o.reward, o.observation)) := by
  have hg := grounded_of_ground h
  refine ⟨fun e he => Episode.exists_calls he₀ he, fun e he => Episode.exists_calls he₀' he, ?_⟩
  intro calls calls' e e' outcomes outcomes'
  obtain ⟨steps, hcover, htold, hnone, htranscript⟩ := Episode.told_of_calls hg he₀ calls
  obtain ⟨steps', hcover', htold', hnone', htranscript'⟩ := Episode.told_of_calls hg he₀' calls'
  constructor
  · exact List.forall_mem_append.mpr
      ⟨Episode.covers_of_told hcover htold, Episode.covers_of_told hcover' htold'⟩
  · rw [htranscript, htranscript', transcriptOf_inj hcover hcover' hnone hnone', ← htold, ← htold']
    rfl

/-- A toggle of a lamp that does not exist is not told by the transcript of the
lamps, and the seed is. -/
theorem transcript_injective_lamps :
    let toggle := fun lamp => Episode.Call.step (Action.noop.set "toggle" [lamp] (.bool true))
    ∃ e₀, Episode.create Lamps.model .standard = .ok e₀ ∧
      let e := outcome Episode.call e₀ [.resetWithSeed 5, toggle "l0"]
      let e' := outcome Episode.call e₀ [.resetWithSeed 5, toggle "l7", toggle "l0"]
      let other := outcome Episode.call e₀ [.resetWithSeed 6, toggle "l0"]
      e.transcript = e'.transcript ∧ e.transcript ≠ other.transcript := by
  intro toggle
  have hc : EngineConfig.standard.validate = .ok () := by decide +kernel
  obtain ⟨e₀, he₀⟩ := Episode.exists_create Lamps.model hc
  obtain ⟨_, _, htold⟩ := transcript_injective Lamps.ground_eq he₀ he₀
  refine ⟨e₀, he₀, ?_, ?_⟩
  · apply (htold _ _).2.mpr
    cases he₀
    decide +kernel
  · intro heq
    obtain ⟨hseed, _⟩ := (htold _ _).2.mp heq
    cases he₀
    exact absurd hseed (by decide +kernel)

end Model
end LiftedPomdp
