import LiftedPomdp.Proofs.Run.Reset
import LiftedPomdp.Run.Batch

/-!
# Schedules of a batch

What a run of an episode comes to does not depend on what the episode was used
for before.  So it does not matter which worker takes an episode of a batch,
nor what the worker has played until then.  Reports of different indices may
be gathered in any order, so they may as well arrive in the order of their
indices, and the summary of the batch is read off the results that the
episodes have when each is played alone.  All of this is about hosts that
provide what a batch asks for; from others there is no answer, or an error.
-/

namespace LiftedPomdp

open Effects Grounding

/-! ## Runs -/

namespace Episode

variable {σ : Type} {p : Policy σ} {memory memory' : σ} {observation : Valuation}
  {d : Domain} {i : Instance} {m : Model} {c : EngineConfig} {e e' : Episode}

theorem playOn_of_none (hp : p.act memory observation e.engine.stepCount = none) :
    e.playOn p memory observation =
      { result := .error (.abort .policyFailed), memory, episode := e } := by
  rw [playOn, hp]

theorem playOn_of_some {a : Action} {r : Except (Fault SimError) StepOutcome}
    (hp : p.act memory observation e.engine.stepCount = some (a, memory'))
    (hstep : e.step a = (r, e')) :
    e.playOn p memory observation =
      match r with
      | .error f => { result := .error f, memory := memory', episode := e' }
      | .ok o =>
        if o.done = false then e'.playOn p memory' o.observation
        else { result := .ok o.cumulativeReturn, memory := memory', episode := e' } := by
  rw [playOn, hp]
  dsimp only
  split
  next h =>
    obtain ⟨rfl, rfl⟩ := Prod.mk.inj (hstep.symm.trans h)
    rfl
  next h =>
    obtain ⟨rfl, rfl⟩ := Prod.mk.inj (hstep.symm.trans h)
    rfl

/-- A policy comes to the same in kindred episodes. -/
theorem playOn_result_of_kindred (h : Grounded d i m) (hkindred : Kindred m e e') :
    (e.playOn p memory observation).result = (e'.playOn p memory observation).result := by
  have hcount : ∀ {e e'}, Kindred m e e' → e.engine.stepCount = e'.engine.stepCount :=
    fun hkindred => congrArg (fun s : Sight => s.stepCount) hkindred.sight_eq
  have hstep_other : ∀ {e e' after : Episode} {a : Action}
      {r : Except (Fault SimError) StepOutcome}, Kindred m e e' → e.step a = (r, after) →
        ∃ after', e'.step a = (r, after') ∧ Kindred m after after' := by
    intro e e' after a r hkindred hstep
    obtain ⟨hanswer, hafter⟩ := kindred_step h hkindred a
    rw [hstep] at hanswer hafter
    exact ⟨(e'.step a).2, Prod.ext hanswer.symm rfl, hafter⟩
  fun_induction playOn p memory observation e generalizing e' with
  | case1 memory observation e hp =>
      rw [hcount hkindred] at hp
      rw [playOn_of_none hp]
  | case2 memory observation e a memory' hp f after hstep =>
      obtain ⟨after', hstep', _⟩ := hstep_other hkindred hstep
      rw [hcount hkindred] at hp
      rw [playOn_of_some hp hstep']
  | case3 memory observation e a memory' hp o after hstep hmore ih =>
      obtain ⟨after', hstep', hafter⟩ := hstep_other hkindred hstep
      rw [hcount hkindred] at hp
      rw [playOn_of_some hp hstep']
      dsimp only
      rw [if_pos hmore]
      exact ih hafter
  | case4 memory observation e a memory' hp o after hstep hdone =>
      obtain ⟨after', hstep', _⟩ := hstep_other hkindred hstep
      rw [hcount hkindred] at hp
      rw [playOn_of_some hp hstep']
      dsimp only
      rw [if_neg hdone]

/-- What a run comes to does not depend on what the episode was used for
before. -/
theorem run_result_eq (h : Grounded d i m) (he : Configured m c e) (he' : Configured m c e')
    (p : Policy σ) (seed : UInt64) : (e.run p seed).result = (e'.run p seed).result := by
  have hkindred := kindred_resetWithSeed h he he' rfl rfl rfl seed
  have hobservation : (e.resetWithSeed seed).observation = (e'.resetWithSeed seed).observation :=
    congrArg (fun s : Sight => s.observation) hkindred.sight_eq
  rw [run, run, hobservation]
  exact playOn_result_of_kindred h hkindred

end Episode

/-! ## Turns -/

/-- The report of an episode, if it ends with an answer. -/
def Report.of? (index : Nat) : Except (Fault SimError) Float → Option Report
  | .ok x => some { index, result := .ok x }
  | .error (.error f) => some { index, result := .error f }
  | .error (.abort _) => none

theorem Report.index_of? {k : Nat} {x : Except (Fault SimError) Float} {r : Report}
    (h : Report.of? k x = some r) : r.index = k := by
  rcases x with ⟨f | a⟩ | x
  · cases h
    rfl
  · cases h
  · cases h
    rfl

/-- Why an episode has no answer, if it has none. -/
def Abort.of? : Except (Fault SimError) Float → Option Abort
  | .error (.abort a) => some a
  | _ => none

theorem Abort.of?_eq_some_iff {x : Except (Fault SimError) Float} {a : Abort} :
    Abort.of? x = some a ↔ x = .error (.abort a) := by
  rcases x with ⟨f | a'⟩ | x
  · exact ⟨nofun, nofun⟩
  · constructor
    · intro h
      rw [Option.some.inj h]
    · intro h
      cases h
      rfl
  · exact ⟨nofun, nofun⟩

theorem Abort.isSome_of? (x : Except (Fault SimError) Float) :
    (Abort.of? x).isSome = (x matches .error (.abort _)) := by
  rcases x with ⟨f | a⟩ | x
  · rfl
  · rfl
  · rfl

namespace Batch

/-- What an episode of a batch comes to when it is played alone. -/
def alone {σ : Type} (b : Batch) (p : Policy σ) (index : Nat) : Except (Fault SimError) Float :=
  (b.fresh.run p (episodeSeed b.config.baseSeed (UInt64.ofNat index))).result

/-- Every turn is taken by a worker that is not lost. -/
def Manned {σ : Type} (p : Policy σ) (base : UInt64) : List Turn → List Episode → Prop
  | [], _ => True
  | t :: ts, crew => t.worker < crew.length ∧ Manned p base ts (takeTurn p base crew t).crew

/-- A schedule by which every episode of a batch is played, and played once. -/
structure Covers {σ : Type} (b : Batch) (episodes : Nat) (p : Policy σ) (turns : List Turn) :
    Prop where
  indices : (turns.map (·.index)).Perm (List.range episodes)
  manned : Manned p b.config.baseSeed turns (b.crew episodes)

section Turns

variable {σ : Type} {d : Domain} {i : Instance} {m : Model} {c : EngineConfig} {b : Batch}
  {p : Policy σ} {crew : List Episode}

/-- The worker of a turn reports what the episode comes to when it is played
alone, or is lost. -/
theorem takeTurn_spec (h : Grounded d i m) (hb : Episode.Configured m c b.fresh)
    (hcrew : ∀ e ∈ crew, Episode.Configured m c e) {t : Turn} (ht : t.worker < crew.length) :
    let round := takeTurn p b.config.baseSeed crew t
    round.reports = (Report.of? t.index (b.alone p t.index)).toList ∧
      round.aborts = (Abort.of? (b.alone p t.index)).toList ∧
        (∀ e ∈ round.crew, Episode.Configured m c e) ∧
          round.crew.length + round.aborts.length = crew.length := by
  intro round
  have hworker := hcrew _ (List.getElem_mem ht)
  have hsame := Episode.run_result_eq h hworker hb p
    (episodeSeed b.config.baseSeed (UInt64.ofNat t.index))
  have hplayed := Episode.configured_run h hworker p
    (episodeSeed b.config.baseSeed (UInt64.ofNat t.index))
  have hkept : ∀ e ∈ crew.set t.worker
      (crew[t.worker].run p (episodeSeed b.config.baseSeed (UInt64.ofNat t.index))).episode,
      Episode.Configured m c e := by
    intro e he
    rcases List.mem_or_eq_of_mem_set he with hmem | rfl
    · exact hcrew e hmem
    · exact hplayed
  dsimp only [round]
  unfold takeTurn
  rw [List.getElem?_eq_getElem ht]
  dsimp only
  rw [alone, ← hsame]
  split
  next hresult =>
    rw [hresult]
    exact ⟨rfl, rfl, hkept, List.length_set⟩
  next hresult =>
    rw [hresult]
    exact ⟨rfl, rfl, hkept, List.length_set⟩
  next hresult =>
    rw [hresult]
    have hlength := List.length_eraseIdx_add_one ht
    exact ⟨rfl, rfl, fun e he => hcrew e (List.mem_of_mem_eraseIdx he), hlength⟩

/-- When no worker is missing, every episode is reported as if it were played
alone, and one worker is lost for every report that is missing. -/
theorem takeTurns_spec (h : Grounded d i m) (hb : Episode.Configured m c b.fresh)
    (hcrew : ∀ e ∈ crew, Episode.Configured m c e) {turns : List Turn}
    (hmanned : Manned p b.config.baseSeed turns crew) :
    let round := takeTurns p b.config.baseSeed turns crew
    round.reports = (turns.map (·.index)).filterMap (fun k => Report.of? k (b.alone p k)) ∧
      round.aborts = (turns.map (·.index)).filterMap (fun k => Abort.of? (b.alone p k)) ∧
        round.crew.length + round.aborts.length = crew.length := by
  induction turns generalizing crew with
  | nil => exact ⟨rfl, rfl, rfl⟩
  | cons t ts ih =>
      obtain ⟨ht, hrest⟩ := hmanned
      obtain ⟨hreport, habort, hleft, hlength⟩ := takeTurn_spec (p := p) h hb hcrew ht
      obtain ⟨hreports, haborts, hlength'⟩ := ih hleft hrest
      rw [List.map_cons, List.filterMap_cons, List.filterMap_cons]
      refine ⟨?_, ?_, ?_⟩
      · rw [takeTurns]
        dsimp only
        rw [hreport, hreports]
        cases Report.of? t.index (b.alone p t.index) with
        | none => rfl
        | some r => rfl
      · rw [takeTurns]
        dsimp only
        rw [habort, haborts]
        cases Abort.of? (b.alone p t.index) with
        | none => rfl
        | some a => rfl
      · rw [takeTurns]
        dsimp only
        rw [List.length_append]
        omega

/-- When every episode ends with an answer, nobody is lost, and any choice of
workers will do. -/
theorem manned_of_answered (h : Grounded d i m) (hb : Episode.Configured m c b.fresh)
    (hcrew : ∀ e ∈ crew, Episode.Configured m c e) {turns : List Turn}
    (hanswered : ∀ t ∈ turns, ∀ a, b.alone p t.index ≠ .error (.abort a))
    (hworkers : ∀ t ∈ turns, t.worker < crew.length) :
    Manned p b.config.baseSeed turns crew := by
  induction turns generalizing crew with
  | nil => trivial
  | cons t ts ih =>
      rw [List.forall_mem_cons] at hanswered hworkers
      obtain ⟨_, habort, hleft, hlength⟩ := takeTurn_spec (p := p) h hb hcrew hworkers.1
      have hstays : Abort.of? (b.alone p t.index) = none := by
        refine Option.eq_none_iff_forall_ne_some.mpr fun a ha => ?_
        exact hanswered.1 a (Abort.of?_eq_some_iff.mp ha)
      rw [habort, hstays, Option.toList_none, List.length_nil, Nat.add_zero] at hlength
      refine ⟨hworkers.1, ih hleft hanswered.2 ?_⟩
      rw [hlength]
      exact hworkers.2

end Turns

end Batch

/-! ## Reports -/

namespace Gathering

/-- The error of an episode that fails, with its index. -/
def failure? (index : Nat) : Except (Fault SimError) Float → Option (Nat × SimError)
  | .error (.error f) => some (index, f)
  | _ => none

/-- The one of two errors with the lower index. -/
def earlier (index : Nat) (f : SimError) (old : Option (Nat × SimError)) :
    Option (Nat × SimError) :=
  if comesFirst index old then some (index, f) else old

/-- What the reports of some episodes with known results amount to. -/
def ofResults (result : Nat → Except (Fault SimError) Float) (episodes : Nat) : Gathering where
  returns := ((List.range episodes).map fun k => (result k).toOption).toArray
  firstError := (List.range episodes).findSome? fun k => failure? k (result k)

variable {result : Nat → Except (Fault SimError) Float} {n : Nat}

theorem add_ok (g : Gathering) (k : Nat) (x : Float) :
    g.add { index := k, result := .ok x } =
      { g with returns := g.returns.setIfInBounds k (some x) } :=
  rfl

theorem add_error (g : Gathering) (k : Nat) (f : SimError) :
    g.add { index := k, result := .error f } =
      { g with firstError := earlier k f g.firstError } := by
  simp only [add, earlier]
  split
  · rfl
  · rfl

theorem earlier_comm {k k' : Nat} (hindex : k ≠ k') (f f' : SimError)
    (old : Option (Nat × SimError)) :
    earlier k' f' (earlier k f old) = earlier k f (earlier k' f' old) := by
  rcases old with _ | ⟨j, f₀⟩
  · grind [earlier, comesFirst]
  · by_cases hk : k < j
    · grind [earlier, comesFirst]
    · grind [earlier, comesFirst]

/-- Reports of different indices may be added in any order. -/
theorem add_comm {r r' : Report} (hindex : r.index ≠ r'.index) (g : Gathering) :
    (g.add r).add r' = (g.add r').add r := by
  obtain ⟨k, x | x⟩ := r
  · obtain ⟨k', x' | x'⟩ := r'
    · have hfirst := earlier_comm hindex x x' g.firstError
      simp only [add_error, hfirst]
    · simp only [add_error, add_ok]
  · obtain ⟨k', x' | x'⟩ := r'
    · simp only [add_error, add_ok]
    · simp only [add_ok]
      rw [Array.setIfInBounds_comm _ _ hindex]

/-- In the order of their indices, the first error that is reported stays. -/
theorem earlier_findSome? {k : Nat} {f : SimError} :
    earlier k f ((List.range k).findSome? fun j => failure? j (result j)) =
      ((List.range k).findSome? fun j => failure? j (result j)).or (some (k, f)) := by
  rcases hfirst : (List.range k).findSome? fun j => failure? j (result j) with _ | ⟨j, f'⟩
  · rfl
  · obtain ⟨j', hj', hfailure⟩ := List.exists_of_findSome?_eq_some hfirst
    have hindex : j = j' := by
      unfold failure? at hfailure
      split at hfailure
      · cases hfailure
        rfl
      · cases hfailure
    have hlt : ¬k < j := by
      rw [List.mem_range] at hj'
      omega
    simp only [earlier, comesFirst, decide_eq_true_eq, if_neg hlt, Option.some_or]

/-- Reports that arrive in the order of their indices. -/
theorem foldl_add_range {k : Nat} (hk : k ≤ n) :
    ((List.range k).filterMap fun j => Report.of? j (result j)).foldl add (empty n) =
      { returns := (((List.range k).map fun j => (result j).toOption) ++
          List.replicate (n - k) none).toArray
        firstError := (List.range k).findSome? fun j => failure? j (result j) } := by
  induction k with
  | zero => simp [empty]
  | succ k ih =>
      have hreplicate : List.replicate (n - k) (none : Option Float) =
          none :: List.replicate (n - (k + 1)) none := by
        rw [← List.replicate_succ]
        congr 1
        omega
      rw [List.range_succ, List.filterMap_append, List.foldl_append, ih (by omega),
        List.map_append, List.findSome?_append, List.append_assoc, hreplicate]
      rcases hresult : result k with ⟨f | a⟩ | x
      · simp only [List.filterMap_cons, List.filterMap_nil, Report.of?, hresult, List.foldl_cons,
          List.foldl_nil, add_error, earlier_findSome?]
        simp [failure?, hresult, Except.toOption]
      · simp [Report.of?, failure?, hresult, Except.toOption]
      · simp [Report.of?, failure?, hresult, Except.toOption, add_ok]

/-- Reports may arrive in any order. -/
theorem gather_eq_of_perm {reports : List Report}
    (hperm : reports.Perm ((List.range n).filterMap fun j => Report.of? j (result j))) :
    Batch.gather n reports = ofResults result n := by
  have hreport : ∀ r ∈ reports, Report.of? r.index (result r.index) = some r := by
    intro r hr
    obtain ⟨j, _, hj⟩ := List.mem_filterMap.mp (hperm.mem_iff.mp hr)
    rw [Report.index_of? hj]
    exact hj
  have hcomm : ∀ r ∈ reports, ∀ r' ∈ reports, ∀ g : Gathering,
      (g.add r).add r' = (g.add r').add r := by
    intro r hr r' hr' g
    by_cases hindex : r.index = r'.index
    · have hsame : some r = some r' := by
        rw [← hreport r hr, ← hreport r' hr', hindex]
      rw [Option.some.inj hsame]
    · exact add_comm hindex g
  have hinOrder := @foldl_add_range result n n (Nat.le_refl n)
  rw [Nat.sub_self, List.replicate_zero, List.append_nil] at hinOrder
  rw [Batch.gather, hperm.foldl_eq' hcomm, hinOrder, ofResults]

theorem firstError_ofResults (hnone : ∀ k < n, ∀ f, result k ≠ .error (.error f)) :
    (ofResults result n).firstError = none := by
  unfold ofResults
  rw [List.findSome?_eq_none_iff]
  intro k hk
  unfold failure?
  split
  next f hresult => exact absurd hresult (hnone k (List.mem_range.mp hk) f)
  · rfl

/-- The error of the first episode that fails is the answer of a batch. -/
theorem summary_of_failure {k : Nat} {f : SimError} (hk : k < n)
    (hfails : result k = .error (.error f))
    (hbefore : ∀ j < k, ∀ f', result j ≠ .error (.error f')) (lost : Nat) :
    (ofResults result n).summary lost = .error f := by
  have hsplit : List.range n =
      List.range k ++ k :: (List.range (n - (k + 1))).map fun j => k + 1 + j := by
    have hn : n = k + 1 + (n - (k + 1)) := by omega
    conv_lhs => rw [hn, List.range_add, List.range_succ]
    rw [List.append_assoc, List.singleton_append]
  have hnone := firstError_ofResults hbefore
  have herror : failure? k (result k) = some (k, f) := by
    rw [hfails]
    rfl
  have hfirst : (ofResults result n).firstError = some (k, f) := by
    unfold ofResults at hnone ⊢
    dsimp only at hnone ⊢
    rw [hsplit, List.findSome?_append, hnone, Option.none_or, List.findSome?_cons, herror]
  unfold summary
  rw [hfirst]

/-- Without errors, the answer of a batch is the number of workers that have
left, if there are any. -/
theorem summary_of_lost (hnone : ∀ k < n, ∀ f, result k ≠ .error (.error f)) {lost : Nat}
    (hlost : 0 < lost) :
    (ofResults result n).summary lost = .error (.internal (.workersLost lost)) := by
  unfold summary
  rw [firstError_ofResults hnone]
  exact if_pos hlost

theorem exists_returns {ks : List Nat} (hok : ∀ k ∈ ks, ∃ x, result k = .ok x) :
    ∃ returns, List.Forall₂ (fun k x => result k = .ok x) ks returns ∧
      (ks.map fun k => (result k).toOption) = returns.map some := by
  induction ks with
  | nil => exact ⟨[], .nil, rfl⟩
  | cons k ks ih =>
      rw [List.forall_mem_cons] at hok
      obtain ⟨x, hx⟩ := hok.1
      obtain ⟨xs, hxs, hmap⟩ := ih hok.2
      refine ⟨x :: xs, .cons hx hxs, ?_⟩
      rw [List.map_cons, List.map_cons, hmap, hx]
      rfl

/-- When every episode has a return, a batch has all of them in order. -/
theorem summary_of_returns (hok : ∀ k < n, ∃ x, result k = .ok x) :
    ∃ returns, List.Forall₂ (fun k x => result k = .ok x) (List.range n) returns ∧
      (ofResults result n).summary 0 = .ok (BatchSummary.ofReturns returns) := by
  have hnone : ∀ k < n, ∀ f, result k ≠ .error (.error f) := by
    intro k hk f hfails
    obtain ⟨x, hx⟩ := hok k hk
    rw [hx] at hfails
    cases hfails
  have hrange : ∀ k ∈ List.range n, ∃ x, result k = .ok x := by
    intro k hk
    exact hok k (List.mem_range.mp hk)
  obtain ⟨returns, hresults, hmap⟩ := exists_returns hrange
  refine ⟨returns, hresults, ?_⟩
  have hcomplete : (returns.map some).findIdx? Option.isNone = none := by
    rw [List.findIdx?_eq_none_iff]
    intro x hx
    obtain ⟨y, _, rfl⟩ := List.mem_map.mp hx
    rfl
  have hfilter : (returns.map some).filterMap id = returns := by
    rw [List.filterMap_map]
    exact List.filterMap_some
  unfold summary
  rw [firstError_ofResults hnone]
  dsimp only [ofResults]
  rw [if_neg (Nat.lt_irrefl 0), hmap, hcomplete, hfilter]

end Gathering

/-! ## Batches -/

namespace Batch

variable {d : Domain} {i : Instance} {m : Model} {engine : EngineConfig} {config : BatchConfig}

theorem exists_create (hengine : engine.validate = .ok ()) (hconfig : config.validate = .ok ()) :
    ∃ fresh, Episode.create m engine = .ok fresh ∧
      Batch.create m engine config = .ok { fresh, config } := by
  obtain ⟨fresh, hfresh⟩ := Episode.exists_create m hengine
  refine ⟨fresh, hfresh, ?_⟩
  unfold create
  rw [hfresh, hconfig]
  rfl

/-- The answer of a batch without an episode that goes on for ever. -/
def answer (result : Nat → Except (Fault SimError) Float) (episodes : Nat) :
    Except (Fault SimError) BatchSummary :=
  ((Gathering.ofResults result episodes).summary ((List.range episodes).countP fun k =>
    result k matches .error (.abort _))).mapError .error

/-- By any schedule, the answer of a batch is read off the results of its
episodes, each played alone. -/
theorem playBy_eq {σ : Type} {b : Batch} {p : Policy σ} {n : Nat} {turns : List Turn}
    {arrival : List Report → List Report} (h : Grounded d i m)
    (hb : Episode.Configured m engine b.fresh) (hturns : b.Covers n p turns)
    (harrival : ∀ reports, (arrival reports).Perm reports) :
    b.playBy n p turns arrival =
      match ((turns.map (·.index)).filterMap fun k => Abort.of? (b.alone p k)).find?
        Abort.isEndless with
      | some a => .error (.abort a)
      | none => answer (b.alone p) n := by
  have hcrew : ∀ e ∈ b.crew n, Episode.Configured m engine e := by
    intro e he
    rw [List.eq_of_mem_replicate he]
    exact hb
  obtain ⟨hreports, haborts, hlength⟩ := takeTurns_spec h hb hcrew hturns.manned
  have hperm := (harrival _).trans
    ((List.Perm.of_eq hreports).trans (hturns.indices.filterMap _))
  have hgather := Gathering.gather_eq_of_perm hperm
  have hcount : (takeTurns p b.config.baseSeed turns (b.crew n)).aborts.length =
      (List.range n).countP fun k => b.alone p k matches .error (.abort _) := by
    rw [haborts, List.length_filterMap_eq_countP, ← hturns.indices.countP_eq]
    simp only [Abort.isSome_of?]
  have hlost : b.workers n - (takeTurns p b.config.baseSeed turns (b.crew n)).crew.length =
      (List.range n).countP fun k => b.alone p k matches .error (.abort _) := by
    have hsize : (b.crew n).length = b.workers n := List.length_replicate
    omega
  unfold playBy
  dsimp only
  rw [haborts, hgather, hlost]
  rfl

/-- Every episode comes to an end. -/
def Ends (result : Nat → Except (Fault SimError) Float) (episodes : Nat) : Prop :=
  ∀ k < episodes, ∀ a, result k = .error (.abort a) → a.isEndless = false

/-- What a batch answers when its episodes come to certain results. -/
structure Answers (result : Nat → Except (Fault SimError) Float) (episodes : Nat)
    (answer : Except (Fault SimError) BatchSummary) : Prop where
  /-- All returns, in the order of their episodes. -/
  returns : (∀ k < episodes, ∃ x, result k = .ok x) →
    ∃ returns, List.Forall₂ (fun k x => result k = .ok x) (List.range episodes) returns ∧
      answer = .ok (BatchSummary.ofReturns returns)
  /-- The error of the first episode that fails. -/
  failure : Ends result episodes → ∀ k < episodes, ∀ f, result k = .error (.error f) →
    (∀ j < k, ∀ f', result j ≠ .error (.error f')) → answer = .error (.error f)
  /-- Otherwise, how many episodes have ended without an answer. -/
  lost : Ends result episodes → (∀ k < episodes, ∀ f, result k ≠ .error (.error f)) →
    (∃ k < episodes, ∃ a, result k = .error (.abort a)) →
      answer = .error (.error (.internal (.workersLost
        ((List.range episodes).countP fun k => result k matches .error (.abort _)))))
  /-- The batch goes on for ever with one of its episodes. -/
  endless : ¬Ends result episodes → ∃ k < episodes, ∃ a, result k = .error (.abort a) ∧
    a.isEndless = true ∧ answer = .error (.abort a)

section Answers

variable {result : Nat → Except (Fault SimError) Float} {n : Nat}

theorem answer_of_returns (hok : ∀ k < n, ∃ x, result k = .ok x) :
    ∃ returns, List.Forall₂ (fun k x => result k = .ok x) (List.range n) returns ∧
      answer result n = .ok (BatchSummary.ofReturns returns) := by
  have hlost : ((List.range n).countP fun k => result k matches .error (.abort _)) = 0 := by
    rw [List.countP_eq_zero]
    intro k hk
    obtain ⟨x, hx⟩ := hok k (List.mem_range.mp hk)
    rw [hx]
    exact Bool.false_ne_true
  obtain ⟨returns, hresults, hsummary⟩ := Gathering.summary_of_returns hok
  refine ⟨returns, hresults, ?_⟩
  rw [answer, hlost, hsummary]
  rfl

theorem answer_of_failure {k : Nat} {f : SimError} (hk : k < n)
    (hfails : result k = .error (.error f))
    (hbefore : ∀ j < k, ∀ f', result j ≠ .error (.error f')) :
    answer result n = .error (.error f) := by
  rw [answer, Gathering.summary_of_failure hk hfails hbefore]
  rfl

theorem answer_of_lost (hnone : ∀ k < n, ∀ f, result k ≠ .error (.error f))
    (hlost : ∃ k < n, ∃ a, result k = .error (.abort a)) :
    answer result n = .error (.error (.internal (.workersLost
      ((List.range n).countP fun k => result k matches .error (.abort _))))) := by
  obtain ⟨k, hk, a, habort⟩ := hlost
  have hcount : 0 < (List.range n).countP fun k => result k matches .error (.abort _) := by
    rw [List.countP_pos_iff]
    refine ⟨k, List.mem_range.mpr hk, ?_⟩
    rw [habort]
  rw [answer, Gathering.summary_of_lost hnone hcount]
  rfl

/-- The answer of a batch, whichever episodes are found to go on for ever first. -/
theorem answers_of_eq {ks : List Nat} {x : Except (Fault SimError) BatchSummary}
    (hperm : ks.Perm (List.range n))
    (hx : x = match (ks.filterMap fun k => Abort.of? (result k)).find? Abort.isEndless with
      | some a => .error (.abort a)
      | none => answer result n) : Answers result n x := by
  have hends : Ends result n → x = answer result n := by
    intro hends
    have hfind : (ks.filterMap fun k => Abort.of? (result k)).find? Abort.isEndless = none := by
      rw [List.find?_eq_none]
      intro a ha
      obtain ⟨k, hk, habort⟩ := List.mem_filterMap.mp ha
      have hrange := List.mem_range.mp (hperm.mem_iff.mp hk)
      rw [hends k hrange a (Abort.of?_eq_some_iff.mp habort)]
      exact Bool.false_ne_true
    rw [hx, hfind]
  refine ⟨?_, ?_, ?_, ?_⟩
  · intro hok
    rw [hends]
    · exact answer_of_returns hok
    · intro k hk a habort
      obtain ⟨y, hy⟩ := hok k hk
      rw [hy] at habort
      cases habort
  · intro hall k hk f hfails hbefore
    rw [hends hall, answer_of_failure hk hfails hbefore]
  · intro hall hnone hlost
    rw [hends hall, answer_of_lost hnone hlost]
  · intro hendless
    rcases hfind : (ks.filterMap fun k => Abort.of? (result k)).find? Abort.isEndless with _ | a
    · rw [List.find?_eq_none] at hfind
      refine absurd ?_ hendless
      intro k hk a habort
      have hmem := hperm.mem_iff.mpr (List.mem_range.mpr hk)
      exact Bool.eq_false_iff.mpr
        (hfind a (List.mem_filterMap.mpr ⟨k, hmem, Abort.of?_eq_some_iff.mpr habort⟩))
    · obtain ⟨k, hk, habort⟩ := List.mem_filterMap.mp (List.mem_of_find?_eq_some hfind)
      rw [hfind] at hx
      exact ⟨k, List.mem_range.mp (hperm.mem_iff.mp hk), a, Abort.of?_eq_some_iff.mp habort,
        List.find?_some hfind, hx⟩

end Answers

end Batch

/-! ## Hosts -/

/-- A host has the memory for a batch and starts its threads. -/
structure Batch.Provided (b : Batch) (host : Host) (episodes : Nat) : Prop where
  waiting : host.grants .waiting b.config.queueCapacity.toNat = true
  reports : host.grants .reports b.config.queueCapacity.toNat = true
  threads : host.grants .threads (b.workers episodes) = true
  workers : ∀ k < b.workers episodes, host.startWorker k = .ok ()
  feeder : host.startFeeder = .ok ()
  returns : host.grants .returns episodes = true
  marks : host.grants .marks episodes = true

namespace Host

variable {host : Host}

/-- What a batch comes to on a host that refuses something. -/
inductive Refuses (host : Host) : Fault SimError → Prop
  | memory {s : Storage} {items : Nat} :
      host.grants s items = false → Refuses host (.abort (.outOfMemory items))
  | worker {k : Nat} {reason : String} : host.startWorker k = .error reason →
      Refuses host (.error (.internal (.workerNotStarted reason)))
  | feeder {reason : String} : host.startFeeder = .error reason →
      Refuses host (.error (.internal (.feederNotStarted reason)))

theorem reserve_eq_ok_iff {s : Storage} {items : Nat} :
    host.reserve s items = .ok () ↔ host.grants s items = true := by
  unfold reserve
  split
  next hgrants => exact ⟨fun _ => hgrants, fun _ => rfl⟩
  next hgrants => exact ⟨nofun, fun h => absurd h hgrants⟩

theorem startWorkers_eq_ok_iff {workers : Nat} :
    host.startWorkers workers = .ok () ↔ ∀ k < workers, host.startWorker k = .ok () := by
  unfold startWorkers
  rw [forM_eq_ok_iff]
  simp only [List.mem_range, mapError_eq_ok_iff]

theorem feed_eq_ok_iff : host.feed = .ok () ↔ host.startFeeder = .ok () := by
  unfold feed
  rw [mapError_eq_ok_iff]

theorem Refuses.of_reserve {s : Storage} {items : Nat} {f : Fault SimError}
    (h : host.reserve s items = .error f) : host.Refuses f := by
  unfold reserve at h
  split at h
  next => cases h
  next hgrants =>
    cases h
    exact .memory (Bool.eq_false_iff.mpr hgrants)

theorem Refuses.of_startWorkers {workers : Nat} {f : Fault SimError}
    (h : host.startWorkers workers = .error f) : host.Refuses f := by
  obtain ⟨k, _, hk⟩ := exists_of_forM_eq_error h
  obtain ⟨reason, hstart, rfl⟩ := mapError_eq_error_iff.mp hk
  exact .worker hstart

theorem Refuses.of_feed {f : Fault SimError} (h : host.feed = .error f) : host.Refuses f := by
  obtain ⟨reason, hstart, rfl⟩ := mapError_eq_error_iff.mp h
  exact .feeder hstart

end Host

namespace Batch

variable {b : Batch} {host : Host} {n : Nat}

/-- A batch is prepared on the hosts that provide what it asks for. -/
theorem prepare_eq_ok_iff : b.prepare host n = .ok () ↔ b.Provided host n := by
  unfold prepare
  simp only [seq_eq_ok_iff, Host.reserve_eq_ok_iff, Host.startWorkers_eq_ok_iff,
    Host.feed_eq_ok_iff]
  constructor
  · rintro ⟨hwaiting, hreports, hthreads, hworkers, hfeeder, hreturns, hmarks⟩
    exact ⟨hwaiting, hreports, hthreads, hworkers, hfeeder, hreturns, hmarks⟩
  · rintro ⟨hwaiting, hreports, hthreads, hworkers, hfeeder, hreturns, hmarks⟩
    exact ⟨hwaiting, hreports, hthreads, hworkers, hfeeder, hreturns, hmarks⟩

theorem refuses_of_prepare {f : Fault SimError} (h : b.prepare host n = .error f) :
    host.Refuses f := by
  unfold prepare at h
  simp only [bind_eq_error_iff] at h
  rcases h with h | ⟨_, _, h | ⟨_, _, h | ⟨_, _, h | ⟨_, _, h | ⟨_, _, h | ⟨_, _, h⟩⟩⟩⟩⟩⟩
  · exact .of_reserve h
  · exact .of_reserve h
  · exact .of_reserve h
  · exact .of_startWorkers h
  · exact .of_feed h
  · exact .of_reserve h
  · exact .of_reserve h

/-- On a host that provides what a batch asks for, the batch is played. -/
theorem evaluateBy_of_provided {σ : Type} {p : Policy σ} {turns : List Turn}
    {arrival : List Report → List Report} (h : b.Provided host n) :
    b.evaluateBy host n p turns arrival = b.playBy n p turns arrival := by
  unfold evaluateBy
  rw [prepare_eq_ok_iff.mpr h]
  rfl

theorem exists_refused {σ : Type} {p : Policy σ} {turns : List Turn}
    {arrival : List Report → List Report} (h : ¬b.Provided host n) :
    ∃ f, host.Refuses f ∧ b.evaluateBy host n p turns arrival = .error f := by
  cases hprepare : b.prepare host n with
  | ok a => exact absurd (prepare_eq_ok_iff.mp hprepare) h
  | error f =>
      refine ⟨f, refuses_of_prepare hprepare, ?_⟩
      unfold evaluateBy
      rw [hprepare]
      rfl

end Batch

/-! ## Samples -/

namespace Lamps

/-- An episode with the lamps, not used yet. -/
def fresh : Episode :=
  resultOf (Episode.create model .standard) (by decide +kernel)

/-- A batch with two workers. -/
def batch : Batch :=
  resultOf (Batch.create model .standard .standard) (by decide +kernel)

/-- A policy that toggles a lamp that does not exist. -/
def misguided : Policy Unit :=
  .constant (Action.noop.set "toggle" ["l7"] (.bool true))

/-- A batch with more room for waiting episodes than there is memory. -/
def crowded : BatchConfig :=
  { BatchConfig.standard with queueCapacity := 4611686018427387904 }

end Lamps

namespace Gale

/-- Wind of any strength, drawn from an interval whose length is no finite
number. -/
def domain : Domain where
  name := "gale"
  types := []
  fluents := [.state "wind" .real [] (.real 0)]
  cpfs := [.ofTexts "wind" [] (.uniform (.real (-1.7e308)) (.real 1.7e308))]
  reward := .now "wind" []
  constraints := []

def sea : Instance where
  name := "sea"
  domain := "gale"
  objects := []
  nonFluents := []
  initState := []
  maxNonDefaultActions := none
  horizon := 1
  discount := 1

end Gale

/-! ## Independence of schedules -/

namespace Model

variable {d : Domain} {i : Instance} {m : Model} {engine : EngineConfig} {config : BatchConfig}

/-- On a host that provides what a batch asks for, the batch answers by what its
episodes come to when each is played alone, whoever plays them and however the
reports arrive; on other hosts it answers with a refusal of the host.  While all
episodes end with an answer, every choice of workers covers the batch. -/
theorem batch_schedule_irrelevant (h : Model.ground d i = .ok m)
    (hengine : engine.validate = .ok ()) (hconfig : config.validate = .ok ()) :
    ∃ fresh, Episode.create m engine = .ok fresh ∧
      ∃ b, Batch.create m engine config = .ok b ∧
        ∀ {σ : Type} (p : Policy σ) (n : Nat),
          let alone := fun k : Nat =>
            (fresh.run p (episodeSeed config.baseSeed (UInt64.ofNat k))).result
          ((∀ k < n, ∀ a, alone k ≠ .error (.abort a)) →
            ∀ turns : List Turn, (turns.map (·.index)).Perm (List.range n) →
              (∀ t ∈ turns, t.worker < b.workers n) → b.Covers n p turns) ∧
          (∀ (host : Host) turns arrival, b.Covers n p turns →
            (∀ reports, (arrival reports).Perm reports) →
              (b.Provided host n →
                Batch.Answers alone n (b.evaluateBy host n p turns arrival)) ∧
              (¬b.Provided host n →
                ∃ f, host.Refuses f ∧ b.evaluateBy host n p turns arrival = .error f)) := by
  have hg := grounded_of_ground h
  obtain ⟨fresh, hfresh, hbatch⟩ := Batch.exists_create (m := m) hengine hconfig
  have hconfigured := Episode.configured_create hg hfresh
  refine ⟨fresh, hfresh, _, hbatch, ?_⟩
  intro σ p n alone
  constructor
  · intro hanswered turns hindices hworkers
    refine ⟨hindices, ?_⟩
    refine Batch.manned_of_answered hg hconfigured ?_ ?_ ?_
    · intro e he
      rw [List.eq_of_mem_replicate he]
      exact hconfigured
    · intro t ht
      have hindex := hindices.mem_iff.mp (List.mem_map_of_mem ht)
      exact hanswered t.index (List.mem_range.mp hindex)
    · intro t ht
      rw [Batch.crew, List.length_replicate]
      exact hworkers t ht
  · intro host turns arrival hcovers harrival
    constructor
    · intro hprovided
      rw [Batch.evaluateBy_of_provided hprovided]
      exact Batch.answers_of_eq hcovers.indices
        (Batch.playBy_eq hg hconfigured hcovers harrival)
    · exact Batch.exists_refused

/-- Two workers play two episodes, and the later one is reported first. -/
theorem batch_schedule_irrelevant_lamps :
    let turns : List Turn := [{ worker := 1, index := 1 }, { worker := 0, index := 0 }]
    EngineConfig.standard.validate = .ok () ∧ BatchConfig.standard.validate = .ok () ∧
      Lamps.batch.Provided .ample 2 ∧ Lamps.batch.Covers 2 Lamps.misguided turns ∧
        Lamps.batch.evaluateBy .ample 2 Lamps.misguided turns List.reverse =
          .error (.error (.action (.unknownObject "toggle" "l7" "lamp"))) := by
  intro turns
  have hengine : EngineConfig.standard.validate = .ok () := by decide +kernel
  have hconfig : BatchConfig.standard.validate = .ok () := by decide +kernel
  have hprovided : Lamps.batch.Provided .ample 2 := by
    refine ⟨?_, ?_, ?_, fun _ _ => rfl, rfl, ?_, ?_⟩
    all_goals decide +kernel
  have hfails : ∀ k < 2, (Lamps.fresh.run Lamps.misguided
      (episodeSeed BatchConfig.standard.baseSeed (UInt64.ofNat k))).result =
        .error (.error (.action (.unknownObject "toggle" "l7" "lamp"))) := by decide +kernel
  obtain ⟨fresh, hfresh, b, hb, hbatch⟩ :=
    batch_schedule_irrelevant Lamps.ground_eq hengine hconfig
  obtain rfl : Lamps.fresh = fresh :=
    Except.ok.inj ((Lamps.eq_ok_resultOf (by decide +kernel)).symm.trans hfresh)
  obtain rfl : Lamps.batch = b :=
    Except.ok.inj ((Lamps.eq_ok_resultOf (by decide +kernel)).symm.trans hb)
  obtain ⟨hcovers, hanswers⟩ := hbatch Lamps.misguided 2
  have hanswered : ∀ k < 2, ∀ a, (Lamps.fresh.run Lamps.misguided
      (episodeSeed BatchConfig.standard.baseSeed (UInt64.ofNat k))).result ≠
        .error (.abort a) := by
    intro k hk a
    rw [hfails k hk]
    exact nofun
  have hturns := hcovers hanswered turns (.swap 0 1 []) (by decide +kernel)
  have hanswer := (hanswers .ample turns List.reverse hturns List.reverse_perm).1 hprovided
  refine ⟨hengine, hconfig, hprovided, hturns, ?_⟩
  refine hanswer.failure ?_ 0 (by decide) _ (hfails 0 (by decide)) nofun
  intro k hk a habort
  exact absurd habort (hanswered k hk a)

/-- With valid settings and a policy that always acts, there may be no memory
for the queue, and an episode may end without an answer. -/
theorem batch_without_answer :
    EngineConfig.standard.validate = .ok () ∧ Lamps.crowded.validate = .ok () ∧
      BatchConfig.standard.validate = .ok () ∧
        (∃ b, Batch.create Lamps.model .standard Lamps.crowded = .ok b ∧
          ∀ turns arrival, b.evaluateBy .ample 2 (.constant .noop) turns arrival =
            .error (.abort (.outOfMemory 4611686018427387904))) ∧
        ∃ m b, Model.ground Gale.domain Gale.sea = .ok m ∧
          Batch.create m .standard .standard = .ok b ∧
            b.evaluateBy .ample 1 (.constant .noop) [{ worker := 0, index := 0 }] id =
              .error (.error (.internal (.workersLost 1))) := by
  have hengine : EngineConfig.standard.validate = .ok () := by decide +kernel
  have hcrowded : Lamps.crowded.validate = .ok () := by decide +kernel
  have hconfig : BatchConfig.standard.validate = .ok () := by decide +kernel
  refine ⟨hengine, hcrowded, hconfig, ?_, ?_⟩
  · obtain ⟨fresh, _, hbatch⟩ := Batch.exists_create (m := Lamps.model) hengine hcrowded
    have hqueue : Host.ample.reserve .waiting Lamps.crowded.queueCapacity.toNat =
        .error (.abort (.outOfMemory 4611686018427387904)) := by decide +kernel
    refine ⟨_, hbatch, ?_⟩
    intro turns arrival
    unfold Batch.evaluateBy Batch.prepare
    dsimp only
    rw [hqueue]
    rfl
  · refine ⟨_, _, Lamps.eq_ok_resultOf (by decide +kernel),
      Lamps.eq_ok_resultOf (by decide +kernel), ?_⟩
    decide +kernel

end Model
end LiftedPomdp
