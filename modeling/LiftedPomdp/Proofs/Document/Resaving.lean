import LiftedPomdp.Proofs.Document.Definition
import LiftedPomdp.Proofs.Document.Provenance

/-!
# Saving what has been loaded

A domain or an expression that has been loaded from any text can be saved and loaded
again, unless its own document nests too deep or has a real that is not read back.
That document is deeper than the one loaded by one at most: a fluent that has been read
without arguments is written with an empty list of them.
-/

namespace LiftedPomdp

/-! ## Domains read from documents -/

theorem Json.inside_of_fieldOr_list? {α : Type} {j : Json} {names : List String} {needed : Nat}
    {fields : List (String × Json)} {name : String} {decode : Json → Option α} {as : List α}
    (hfields : j.record names needed = some fields)
    (h : fieldOr fields name [] (list? decode) = some as) :
    ∀ a ∈ as, ∃ q, Inside 2 j q ∧ decode q = some a := by
  rcases exists_of_fieldOr h with rfl | ⟨c, hc, hread⟩
  · exact List.forall_mem_nil _
  · intro a ha
    obtain ⟨q, hq, hdecode⟩ := exists_of_list? hread a ha
    exact ⟨q, .child (children_of_record hfields hc) (inside_of_mem_children hq), hdecode⟩

theorem Expr.ofPart?_of_ofJson? {j : Json} {e : Expr} (h : Expr.ofJson? j = some e) :
    Expr.ofPart? true j = some e := by
  unfold Expr.ofJson? at h
  split_ifs at h
  exact h

theorem FluentDecl.isFinite_of_ofJson? {j : Json} {f : FluentDecl}
    (h : FluentDecl.ofJson? j = some f) (hj : j.Readable) : ∀ v ∈ f.default, v.IsFinite := by
  simp only [ofJson?, Option.bind_eq_bind, Option.bind_eq_some_iff, Option.pure_def,
    Option.some.injEq] at h
  obtain ⟨fields, hfields, _, -, _, -, _, -, _, -, default, hdefault, rfl⟩ := h
  rcases Json.exists_of_fieldOr hdefault with rfl | ⟨c, hc, hread⟩
  · exact fun v hv => absurd hv (Option.not_mem_none v)
  · rintro v rfl
    have hvalue : Value.ofJson? false c = some v := by
      cases c with
      | null => cases hread
      | _ => simpa [Json.nullable] using hread
    exact Value.isFinite_of_ofJson? hvalue (hj.child (Json.children_of_record hfields hc))

theorem FluentDecl.isFinite_of_readsBack {r : Decimal.Reader} {f : FluentDecl}
    (h : f.toJson.ReadsBack r) : ∀ v ∈ f.default, v.IsFinite := by
  obtain ⟨name, kind, range, params, default⟩ := f
  rintro v ⟨⟩
  simp only [toJson, Json.readsBack_obj] at h
  exact Value.isFinite_of_readsBack (h ("default", v.toJson) (by simp))

theorem CpfDecl.inside_of_ofJson? {j : Json} {c : CpfDecl} (h : CpfDecl.ofJson? j = some c) :
    ∃ q, Json.Inside 1 j q ∧ Expr.ofJson? q = some c.expr := by
  simp only [ofJson?, Option.bind_eq_bind, Option.bind_eq_some_iff, Option.pure_def,
    Option.some.injEq] at h
  obtain ⟨fields, hfields, _, -, _, -, expr, hexpr, rfl⟩ := h
  obtain ⟨q, hq, hread⟩ := Json.exists_of_field hexpr
  exact ⟨q, Json.inside_of_mem_children (Json.children_of_record hfields hq), hread⟩

namespace Domain

/-- A domain is read from what lies inside of a document. -/
structure ReadFrom (j : Json) (d : Domain) : Prop where
  fluents : ∀ f ∈ d.fluents, ∃ q, Json.Inside 2 j q ∧ FluentDecl.ofJson? q = some f
  cpfs : ∀ c ∈ d.cpfs, ∃ q, Json.Inside 3 j q ∧ Expr.ofJson? q = some c.expr
  reward : ∃ q, Json.Inside 1 j q ∧ Expr.ofJson? q = some d.reward
  constraints : ∀ e ∈ d.constraints, ∃ q, Json.Inside 2 j q ∧ Expr.ofJson? q = some e

theorem readFrom_of_ofJson? {j : Json} {d : Domain} (h : Domain.ofJson? j = some d) :
    d.ReadFrom j := by
  simp only [ofJson?, Option.bind_eq_bind, Option.bind_eq_some_iff, Option.pure_def,
    Option.some.injEq] at h
  obtain ⟨fields, hfields, _, -, _, -, fluents, hfluents, cpfs, hcpfs, reward, hreward,
    constraints, hconstraints, rfl⟩ := h
  refine ⟨Json.inside_of_fieldOr_list? hfields hfluents, ?_, ?_,
    Json.inside_of_fieldOr_list? hfields hconstraints⟩
  · intro c hc
    obtain ⟨b, hb, hread⟩ := Json.inside_of_fieldOr_list? hfields hcpfs c hc
    obtain ⟨q, hq, hexpr⟩ := CpfDecl.inside_of_ofJson? hread
    exact ⟨q, hb.trans hq, hexpr⟩
  · obtain ⟨q, hq, hread⟩ := Json.exists_of_field hreward
    exact ⟨q, Json.inside_of_mem_children (Json.children_of_record hfields hq), hread⟩

/-- Whether all defaults and constants of a domain are finite. -/
structure IsFinite (d : Domain) : Prop where
  defaults : ∀ f ∈ d.fluents, ∀ v ∈ f.default, v.IsFinite
  exprs : ∀ e ∈ d.exprs, e.IsFinite

/-- A domain that is read from what a text spells is finite. -/
theorem isFinite_of_ofJson? {j : Json} {d : Domain} (h : Domain.ofJson? j = some d)
    (hj : j.Readable) : d.IsFinite := by
  have hread := readFrom_of_ofJson? h
  have hexpr : ∀ {n e}, (∃ q, Json.Inside n j q ∧ Expr.ofJson? q = some e) → e.IsFinite := by
    rintro n e ⟨q, hq, he⟩
    exact Expr.isFinite_of_ofPart? (Expr.ofPart?_of_ofJson? he) (hj.inside hq)
  constructor
  · intro f hf
    obtain ⟨q, hq, hf⟩ := hread.fluents f hf
    exact FluentDecl.isFinite_of_ofJson? hf (hj.inside hq)
  · exact forall_mem_exprs.mpr ⟨fun c hc => hexpr (hread.cpfs c hc), hexpr hread.reward,
      fun e he => hexpr (hread.constraints e he)⟩

/-- Only what is finite is read back, however numbers are read. -/
theorem isFinite_of_readsBack {r : Decimal.Reader} {d : Domain} (h : d.toJson.ReadsBack r) :
    d.IsFinite := by
  simp only [toJson, Json.readsBack_obj, List.forall_mem_append, List.forall_mem_cons,
    Json.readsBack_arr, List.forall_mem_map] at h
  obtain ⟨⟨-, -, hfluents, hcpfs, hreward, -⟩, hconstraints⟩ := h
  constructor
  · exact fun f hf => FluentDecl.isFinite_of_readsBack (hfluents f hf)
  · refine forall_mem_exprs.mpr ⟨?_, Expr.isFinite_of_readsBack hreward, ?_⟩
    · intro c hc
      have hcpf := hcpfs c hc
      rw [CpfDecl.toJson, Json.readsBack_obj] at hcpf
      exact Expr.isFinite_of_readsBack (hcpf ("expr", c.expr.toJson) (by simp))
    · cases hnil : d.constraints with
      | nil => exact List.forall_mem_nil _
      | cons e es =>
          rw [hnil, List.forall_mem_singleton, Json.readsBack_arr, Expr.toJsonAll_eq_map,
            List.forall_mem_map] at hconstraints
          exact fun e he => Expr.isFinite_of_readsBack (hconstraints e he)

/-- A domain that is read can be written so that it is read back, unless some default or
constant is not finite. -/
theorem isPortable_of_ofJson? {j : Json} {d : Domain} (h : Domain.ofJson? j = some d)
    (hfinite : d.IsFinite) : d.IsPortable := by
  have hread := readFrom_of_ofJson? h
  have hexpr : ∀ {n e}, (∃ q, Json.Inside n j q ∧ Expr.ofJson? q = some e) → e.IsFinite →
      e.IsPortable := by
    rintro n e ⟨q, -, he⟩ hfinite
    exact Expr.isPortable_of_ofPart? (Expr.ofPart?_of_ofJson? he) hfinite
  obtain ⟨hcpfs, hreward, hconstraints⟩ := forall_mem_exprs.mp hfinite.exprs
  refine ⟨hfinite.defaults, forall_mem_exprs.mpr ⟨?_, ?_, ?_⟩⟩
  · exact fun c hc => hexpr (hread.cpfs c hc) (hcpfs c hc)
  · exact hexpr hread.reward hreward
  · exact fun e he => hexpr (hread.constraints e he) (hconstraints e he)

/-- The reals of a domain that is read from what a text spells are read back. -/
theorem readsBack_of_ofJson? {j : Json} {d : Domain} (h : Domain.ofJson? j = some d)
    (hj : j.Readable) : d.toJson.ReadsBack .nearest :=
  (legible_toJson (isPortable_of_ofJson? h (isFinite_of_ofJson? h hj))).readsBack

/-! ## How deep a domain nests -/

/-- The expressions of a domain lie below three, one or two arrays and objects. -/
theorem depth_toJson_le {d : Domain} {n : Nat} (hcpfs : ∀ c ∈ d.cpfs, c.expr.toJson.depth ≤ n + 1)
    (hreward : d.reward.toJson.depth ≤ n + 3)
    (hconstraints : ∀ e ∈ d.constraints, e.toJson.depth ≤ n + 2) : d.toJson.depth ≤ n + 4 := by
  have hstrings : ∀ {ss : List String} {m : Nat}, (Json.strings ss).depth ≤ m + 1 :=
    fun {ss} m => (Json.depth_strings_le ss).trans (Nat.le_add_left 1 m)
  have hfluents : (Json.arr (d.fluents.map FluentDecl.toJson)).depth ≤ n + 3 := by
    rw [Json.depth_arr_le_iff, List.forall_mem_map]
    rintro ⟨name, kind, range, params, default⟩ -
    rw [FluentDecl.toJson, Json.depth_obj_le_iff]
    cases default <;> simp [FluentKind.toJson, Range.toJson, hstrings]
  have hcpfs : (Json.arr (d.cpfs.map CpfDecl.toJson)).depth ≤ n + 3 := by
    rw [Json.depth_arr_le_iff, List.forall_mem_map]
    intro c hc
    rw [CpfDecl.toJson, Json.depth_obj_le_iff]
    simp [hstrings, hcpfs c hc]
  have hconstraints : (Json.arr (Expr.toJsonAll d.constraints)).depth ≤ n + 3 := by
    rw [Json.depth_arr_le_iff, Expr.toJsonAll_eq_map, List.forall_mem_map]
    exact hconstraints
  obtain ⟨name, types, fluents, cpfs, reward, constraints⟩ := d
  rw [toJson, Json.depth_obj_le_iff]
  cases constraints <;> simp [hstrings, hfluents, hcpfs, hreward, hconstraints]

/-- The document of a domain is no deeper than the one that it was read from, but for
fluents without arguments: there it may be deeper by one. -/
theorem depth_toJson_le_of_ofJson? {j : Json} {d : Domain} {n k : Nat}
    (h : Domain.ofJson? j = some d) (hj : j.depth + k ≤ n + 4)
    (hbare : ∀ e ∈ d.exprs, ∀ p ∈ e.parts, p.IsBare → 1 ≤ k) : d.toJson.depth ≤ n + 4 := by
  have hread := readFrom_of_ofJson? h
  obtain ⟨hcpfs, hreward, hconstraints⟩ := forall_mem_exprs.mp hbare
  have hexpr : ∀ {m e}, (∀ p ∈ e.parts, p.IsBare → 1 ≤ k) →
      (∃ q, Json.Inside m j q ∧ Expr.ofJson? q = some e) → e.toJson.depth + m ≤ n + 4 := by
    rintro m e hbare ⟨q, hq, hread⟩
    have hdepth := Expr.depth_toJson_le_of_ofPart? (Expr.ofPart?_of_ofJson? hread) hbare
    have hinside := hq.depth_le
    omega
  apply depth_toJson_le
  · intro c hc
    exact Nat.le_of_add_le_add_right (hexpr (hcpfs c hc) (hread.cpfs c hc))
  · exact Nat.le_of_add_le_add_right (hexpr hreward hread.reward)
  · intro e he
    exact Nat.le_of_add_le_add_right (hexpr (hconstraints e he) (hread.constraints e he))

end Domain

/-! ## Reading a clipped document -/

namespace Json

variable {α : Type} {names : List String} {needed n : Nat} {members fields : List (String × Json)}
  {name : String} {decode : Json → Option α}

theorem lookup_clipMembers :
    (clipMembers n members).lookup name = (members.lookup name).map (clip n) := by
  induction members with
  | nil => rfl
  | cons m ms ih =>
      rw [clipMembers, List.lookup_cons, List.lookup_cons, ih]
      split <;> rfl

theorem lookup_knownMembers (hname : name ∈ names) :
    (knownMembers names members).lookup name = members.lookup name := by
  unfold knownMembers
  induction members with
  | nil => rfl
  | cons m ms ih =>
      by_cases hm : name = m.1
      · have hkept : names.contains m.1 = true := List.contains_iff_mem.mpr (hm ▸ hname)
        rw [List.filter_cons, if_pos hkept, List.lookup_cons, List.lookup_cons, hm, BEq.rfl]
      · have hskip : (m :: ms).lookup name = ms.lookup name := by
          rw [List.lookup_cons, beq_false_of_ne hm]
        rw [hskip, ← ih, List.filter_cons]
        split_ifs
        · rw [List.lookup_cons, beq_false_of_ne hm]
        · rfl

/-- The fields that are read from a clipped object are clipped themselves. -/
theorem lookup_of_record_clip
    (h : ((obj members).clip (n + 1)).record names needed = some fields) (hname : name ∈ names) :
    fields.lookup name = (members.lookup name).map (clip n) := by
  simp only [clip, record] at h
  split_ifs at h
  cases h
  rw [lookup_knownMembers hname, lookup_clipMembers]

theorem exists_of_list?_clip {items : List Json} {as : List α}
    (h : list? decode ((arr items).clip (n + 1)) = some as) :
    ∀ j ∈ items, ∃ a, decode (j.clip n) = some a := by
  rw [clip, list?] at h
  induction items generalizing as with
  | nil => exact List.forall_mem_nil _
  | cons j js ih =>
      rw [clipItems, items?] at h
      split at h
      · rename_i a as hj hjs
        exact List.forall_mem_cons.mpr ⟨⟨a, hj⟩, ih hjs⟩
      · cases h

end Json

theorem Expr.depth_le_of_ofJson?_clip {e e' : Expr} {n : Nat}
    (h : Expr.ofJson? (e.toJson.clip n) = some e') : e.toJson.depth ≤ n := by
  unfold Expr.ofJson? at h
  split_ifs at h with hsound
  exact Json.depth_le_of_isSound_clip n _ hsound

theorem CpfDecl.depth_le_of_ofJson?_clip {c c' : CpfDecl} {n : Nat}
    (h : CpfDecl.ofJson? (c.toJson.clip (n + 1)) = some c') : c.expr.toJson.depth ≤ n := by
  simp only [ofJson?, Option.bind_eq_bind, Option.bind_eq_some_iff] at h
  obtain ⟨fields, hfields, _, -, _, -, expr, hexpr, -⟩ := h
  have hlookup : fields.lookup "expr" = some (c.expr.toJson.clip n) :=
    Json.lookup_of_record_clip hfields (by decide)
  rw [Json.field, hlookup] at hexpr
  exact Expr.depth_le_of_ofJson?_clip hexpr

namespace Domain

/-- A domain is read from its clipped document only where nothing has been clipped. -/
theorem depth_le_of_ofJson?_clip {d d' : Domain} {n : Nat}
    (h : Domain.ofJson? (d.toJson.clip (n + 4)) = some d') : d.toJson.depth ≤ n + 4 := by
  simp only [ofJson?, Option.bind_eq_bind, Option.bind_eq_some_iff] at h
  obtain ⟨fields, hfields, _, -, _, -, _, -, cpfs', hcpfs, reward', hreward, constraints',
    hconstraints, -⟩ := h
  apply depth_toJson_le
  · have hlookup : fields.lookup "cpfs" =
        some ((Json.arr (d.cpfs.map CpfDecl.toJson)).clip (n + 3)) :=
      Json.lookup_of_record_clip hfields (by decide)
    rw [Json.fieldOr, hlookup] at hcpfs
    intro c hc
    obtain ⟨c', hread⟩ := Json.exists_of_list?_clip hcpfs c.toJson (List.mem_map_of_mem hc)
    exact CpfDecl.depth_le_of_ofJson?_clip hread
  · have hlookup : fields.lookup "reward" = some (d.reward.toJson.clip (n + 3)) :=
      Json.lookup_of_record_clip hfields (by decide)
    rw [Json.field, hlookup] at hreward
    exact Expr.depth_le_of_ofJson?_clip hreward
  · cases hnil : d.constraints with
    | nil => exact List.forall_mem_nil _
    | cons e es =>
        have hlookup : fields.lookup "state_action_constraints" =
            some ((Json.arr (Expr.toJsonAll (e :: es))).clip (n + 3)) := by
          rw [Json.lookup_of_record_clip hfields (by decide), hnil]
          rfl
        rw [Json.fieldOr, hlookup, Expr.toJsonAll_eq_map] at hconstraints
        intro e' he'
        obtain ⟨_, hread⟩ :=
          Json.exists_of_list?_clip hconstraints e'.toJson (List.mem_map_of_mem he')
        exact Expr.depth_le_of_ofJson?_clip hread

end Domain

/-! ## Loading again -/

namespace Document

variable {α : Type} {toJson : α → Json} {ofJson? : Json → Option α} {a : α}
  {r : Decimal.Reader} {text : String}

theorem loadBy_eq_ok_iff :
    loadBy r ofJson? text = .ok a ↔
      ∃ j, Json.parseBy? r text = some j ∧ ofJson? (j.clip Json.maxDepth) = some a := by
  unfold loadBy decode
  cases hparse : Json.parseBy? r text with
  | none => simp
  | some j => cases hread : ofJson? (j.clip Json.maxDepth) <;> simp [hread]

/-- What is saved is loaded again exactly where its document does not nest too deep,
provided that it is not read from a document that has been clipped. -/
theorem loadBy_save_iff (hread : ofJson? (toJson a) = some a) (hlegible : (toJson a).Legible r)
    (hclip : ∀ {a'}, ofJson? ((toJson a).clip Json.maxDepth) = some a' →
      (toJson a).depth ≤ Json.maxDepth) :
    loadBy r ofJson? (save toJson a) = .ok a ↔ (toJson a).depth ≤ Json.maxDepth := by
  constructor
  · intro h
    obtain ⟨j, hparse, hdecode⟩ := loadBy_eq_ok_iff.mp h
    obtain rfl : toJson a = j := by
      rw [save, Json.parseBy?_pretty hlegible] at hparse
      exact Option.some.inj hparse
    exact hclip hdecode
  · exact loadBy_save hread hlegible

/-- A domain or an expression that has been loaded from any text is loaded again from
its own text exactly where its document nests no deeper than a document may, provided
that the reals in that document are read back.  They are where numbers are rounded
once.  The document is too deep by one at most, and only where some fluent has no
arguments. -/
theorem load_save_iff_of_load (r : Decimal.Reader) (text : String) :
    (∀ d, loadBy r Domain.ofJson? text = .ok d →
      (d.toJson.ReadsBack r →
        (loadBy r Domain.ofJson? (save Domain.toJson d) = .ok d ↔
          d.toJson.depth ≤ Json.maxDepth)) ∧
        (r = .nearest → d.toJson.ReadsBack r) ∧
        d.toJson.depth ≤ Json.maxDepth + 1 ∧
        ((∀ e ∈ d.exprs, ∀ p ∈ e.parts, ¬p.IsBare) → d.toJson.depth ≤ Json.maxDepth)) ∧
      ∀ e, loadBy r Expr.ofJson? text = .ok e →
        (e.toJson.ReadsBack r →
          (loadBy r Expr.ofJson? (save Expr.toJson e) = .ok e ↔
            e.toJson.depth ≤ Json.maxDepth)) ∧
          (r = .nearest → e.toJson.ReadsBack r) ∧
          e.toJson.depth ≤ Json.maxDepth + 1 ∧
          ((∀ p ∈ e.parts, ¬p.IsBare) → e.toJson.depth ≤ Json.maxDepth) := by
  constructor
  · intro d hload
    obtain ⟨j, hparse, hread⟩ := loadBy_eq_ok_iff.mp hload
    have hdepth : (j.clip Json.maxDepth).depth ≤ 127 := Json.depth_clip_le Json.maxDepth j
    refine ⟨?_, ?_, ?_, ?_⟩
    · intro hreals
      have hportable :=
        Domain.isPortable_of_ofJson? hread (Domain.isFinite_of_readsBack hreals)
      exact loadBy_save_iff (Domain.ofJson?_toJson hportable)
        ((Domain.legible_toJson hportable).of_readsBack hreals) Domain.depth_le_of_ofJson?_clip
    · rintro rfl
      exact Domain.readsBack_of_ofJson? hread
        ((Json.readable_of_parseBy? hparse).clip Json.maxDepth)
    · -- all arguments may have been left out, so that one level is added to the 127
      exact Domain.depth_toJson_le_of_ofJson? (n := 124) (k := 1) hread (by omega)
        fun _ _ _ _ _ => le_rfl
    · intro hbare
      exact Domain.depth_toJson_le_of_ofJson? (n := 123) (k := 0) hread (by omega)
        fun e he p hp h => absurd h (hbare e he p hp)
  · intro e hload
    obtain ⟨j, hparse, hread⟩ := loadBy_eq_ok_iff.mp hload
    have hpart := Expr.ofPart?_of_ofJson? hread
    have hdepth := Json.depth_clip_le Json.maxDepth j
    refine ⟨?_, ?_, ?_, ?_⟩
    · intro hreals
      have hportable := Expr.isPortable_of_ofPart? hpart (Expr.isFinite_of_readsBack hreals)
      exact loadBy_save_iff (Expr.ofJson?_toJson hportable)
        ((Expr.legible_toJson e hportable).of_readsBack hreals) Expr.depth_le_of_ofJson?_clip
    · rintro rfl
      exact Expr.readsBack_of_ofPart? hpart
        ((Json.readable_of_parseBy? hparse).clip Json.maxDepth)
    · have hwritten := Expr.depth_toJson_le_of_ofPart? (k := 1) hpart fun _ _ _ => le_rfl
      omega
    · intro hbare
      have hwritten := Expr.depth_toJson_le_of_ofPart? (k := 0) hpart
        fun p hp h => absurd h (hbare p hp)
      omega

/-! ### A fluent too deep for its empty list -/

/-- Negations around a fluent whose arguments are left out. -/
def negatedDocument : Nat → Json
  | 0 => .obj [("kind", .str "fluent"), ("name", .str "p")]
  | n + 1 => .obj [("kind", .str "not"), ("arg", negatedDocument n)]

/-- The expression that the negations spell. -/
def negated : Nat → Expr
  | 0 => .fluent "p" [] false
  | n + 1 => .not (negated n)

theorem depth_negatedDocument (n : Nat) : (negatedDocument n).depth = n + 1 := by
  induction n with
  | zero => rfl
  | succ n ih => simp [negatedDocument, Json.depth, Json.membersDepth, ih]

theorem depth_toJson_negated (n : Nat) : (negated n).toJson.depth = n + 2 := by
  induction n with
  | zero => rfl
  | succ n ih => simp [negated, Expr.toJson, Json.depth, Json.membersDepth, ih]

theorem legible_negatedDocument (n : Nat) : (negatedDocument n).Legible r := by
  induction n with
  | zero => simp [negatedDocument]
  | succ n ih => simp [negatedDocument, ih]

theorem ofPart?_negatedDocument (root : Bool) (n : Nat) :
    Expr.ofPart? root (negatedDocument n) = some (negated n) := by
  induction n generalizing root with
  | zero => cases root <;> rfl
  | succ n ih =>
      have hkind : Expr.kindOfMembers? root [("kind", .str "not"), ("arg", negatedDocument n)] =
          some .not := Expr.kindOfMembers?_cons root .not rfl
      simp [negatedDocument, negated, Expr.ofPart?, hkind, Expr.assemble, Expr.ofMember?, ih]

theorem legible_toJson_negated (n : Nat) : (negated n).toJson.Legible r := by
  induction n with
  | zero => simp [negated, Expr.toJson]
  | succ n ih => simp [negated, Expr.toJson, ih]

theorem load_negatedDocument {n : Nat} (h : n + 1 ≤ Json.maxDepth) :
    load Expr.ofJson? (negatedDocument n).pretty = .ok (negated n) := by
  have hsound := (legible_negatedDocument (r := .scaling) n).isSound
  rw [load, loadBy_eq_ok_iff]
  refine ⟨_, Json.parseBy?_pretty (legible_negatedDocument n), ?_⟩
  rw [Json.clip_eq_self _ (depth_negatedDocument n ▸ h), Expr.ofJson?, if_pos hsound,
    ofPart?_negatedDocument]

/-- Below 126 negations, a fluent whose arguments are left out is loaded, but not the
text that it is saved as: the empty list of its arguments is too deep. -/
theorem not_load_save_negated :
    load Expr.ofJson? (negatedDocument 126).pretty = .ok (negated 126) ∧
      load Expr.ofJson? (save Expr.toJson (negated 126)) = .error (.internal .unreadable) := by
  refine ⟨load_negatedDocument (by decide), ?_⟩
  have hclip : Expr.ofJson? ((negated 126).toJson.clip Json.maxDepth) = none := by
    rw [Option.eq_none_iff_forall_ne_some]
    intro e h
    have hdepth := Expr.depth_le_of_ofJson?_clip h
    rw [depth_toJson_negated] at hdepth
    exact absurd hdepth (by decide)
  rw [load, loadBy, save, Json.parseBy?_pretty (legible_toJson_negated 126)]
  simp only [decode, hclip]

/-- The domain of the lamps is loaded from its own text, is not too deep and is loaded
again, and the fluent below 126 negations is loaded, but not from its own text. -/
theorem load_save_iff_of_load_negated :
    load Domain.ofJson? (save Domain.toJson Lamps.domain) = .ok Lamps.domain ∧
      Lamps.domain.toJson.ReadsBack .scaling ∧
      Lamps.domain.toJson.depth ≤ Json.maxDepth + 1 ∧
      load Expr.ofJson? (negatedDocument 126).pretty = .ok (negated 126) ∧
      (negated 126).toJson.ReadsBack .scaling ∧
      load Expr.ofJson? (save Expr.toJson (negated 126)) ≠ .ok (negated 126) := by
  have hlegible := (Domain.legible_toJson isPortable_lamps).of_readsBack readsBack_lamps
  have hdomain : load Domain.ofJson? (save Domain.toJson Lamps.domain) = .ok Lamps.domain :=
    loadBy_save (Domain.ofJson?_toJson isPortable_lamps) hlegible (by decide +kernel)
  have hexpr : load Expr.ofJson? (negatedDocument 126).pretty = .ok (negated 126) :=
    load_negatedDocument (by decide)
  have hreals : (negated 126).toJson.ReadsBack .scaling := (legible_toJson_negated 126).readsBack
  have hdeep : ¬(negated 126).toJson.depth ≤ Json.maxDepth := by
    rw [depth_toJson_negated]
    decide
  exact ⟨hdomain, readsBack_lamps, ((load_save_iff_of_load .scaling _).1 _ hdomain).2.2.1, hexpr,
    hreals, mt (((load_save_iff_of_load .scaling _).2 _ hexpr).1 hreals).mp hdeep⟩

end Document
end LiftedPomdp
