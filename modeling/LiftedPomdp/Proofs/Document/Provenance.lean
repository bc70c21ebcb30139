import LiftedPomdp.Proofs.Document.Expr
import LiftedPomdp.Proofs.Json.Readable

/-!
# Where the parts of a read expression come from

Whatever is read from a document is read from what lies inside of it.  So an
expression that is read can be saved if its constants are finite, and its own
document is deeper by one at most, which happens only where a fluent is read
without any arguments.
-/

namespace LiftedPomdp

/-! ## Fields -/

namespace Json

variable {α : Type} {j : Json} {fields : List (String × Json)} {name : String} {a : α}
  {decode : Json → Option α}

theorem mem_of_lookup {c : Json} (h : fields.lookup name = some c) :
    c ∈ fields.map Prod.snd := by
  obtain ⟨l₁, l₂, rfl, -⟩ := List.lookup_eq_some_iff.mp h
  simp

theorem children_of_record {names : List String} {needed : Nat}
    (h : j.record names needed = some fields) : fields.map Prod.snd ⊆ j.children := by
  cases j with
  | obj members =>
      simp only [record] at h
      split_ifs at h
      cases h
      exact List.map_subset _ (List.filter_subset_self _)
  | arr items =>
      simp only [record] at h
      split_ifs at h
      cases h
      intro c hc
      obtain ⟨m, hm, rfl⟩ := List.mem_map.mp hc
      exact (List.of_mem_zip hm).2
  | _ => cases h

theorem exists_of_field (h : field fields name decode = some a) :
    ∃ c ∈ fields.map Prod.snd, decode c = some a := by
  unfold field at h
  cases hlookup : fields.lookup name with
  | none => simp [hlookup] at h
  | some c => exact ⟨c, mem_of_lookup hlookup, by simpa [hlookup] using h⟩

theorem exists_of_fieldOr {default : α} (h : fieldOr fields name default decode = some a) :
    a = default ∨ ∃ c ∈ fields.map Prod.snd, decode c = some a := by
  unfold fieldOr at h
  cases hlookup : fields.lookup name with
  | none =>
      simp only [hlookup, Option.some.injEq] at h
      exact .inl h.symm
  | some c => exact .inr ⟨c, mem_of_lookup hlookup, by simpa [hlookup] using h⟩

theorem exists_of_list? {as : List α} (h : list? decode j = some as) :
    ∀ a ∈ as, ∃ c ∈ j.children, decode c = some a := by
  have hitems : ∀ {items : List Json} {as : List α}, items? decode items = some as →
      ∀ a ∈ as, ∃ c ∈ items, decode c = some a := by
    intro items as h
    induction items generalizing as with
    | nil =>
        cases h
        exact List.forall_mem_nil _
    | cons c cs ih =>
        rw [items?] at h
        cases hc : decode c with
        | none => simp [hc] at h
        | some b =>
            cases hcs : items? decode cs with
            | none => simp [hc, hcs] at h
            | some bs =>
                simp only [hc, hcs, Option.some.injEq] at h
                subst h
                intro a ha
                rcases List.mem_cons.mp ha with rfl | ha
                · exact ⟨c, List.mem_cons_self, hc⟩
                · obtain ⟨c', hc', ha'⟩ := ih hcs a ha
                  exact ⟨c', List.mem_cons_of_mem _ hc', ha'⟩
  cases j with
  | arr items => exact hitems h
  | _ => cases h

theorem depth_pos_of_record {names : List String} {needed : Nat}
    (h : j.record names needed = some fields) : 1 ≤ j.depth := by
  cases j with
  | obj members => exact Nat.succ_le_succ (Nat.zero_le _)
  | arr items => exact Nat.succ_le_succ (Nat.zero_le _)
  | _ => cases h

theorem depth_pos_of_list? {as : List α} (h : list? decode j = some as) : 1 ≤ j.depth := by
  cases j with
  | arr items => exact Nat.succ_le_succ (Nat.zero_le _)
  | _ => cases h

/-- A list is written no deeper than it was read where that holds of its items. -/
theorem depth_map_le_of_list? {toJson : α → Json} {as : List α} (h : list? decode j = some as)
    (hdecode : ∀ {c a}, decode c = some a → (toJson a).depth ≤ c.depth) :
    (arr (as.map toJson)).depth ≤ j.depth := by
  obtain ⟨n, hn⟩ := Nat.exists_eq_add_of_le' (depth_pos_of_list? h)
  rw [hn, depth_arr_le_iff, List.forall_mem_map]
  intro a ha
  obtain ⟨c, hc, hread⟩ := exists_of_list? h a ha
  have hdepth := hdecode hread
  have hlt := depth_lt_of_mem_children hc
  omega

end Json

/-! ## Values and terms -/

theorem Value.depth_pos_of_ofJson? {inExpression : Bool} {j : Json} {v : Value}
    (h : Value.ofJson? inExpression j = some v) : 1 ≤ j.depth := by
  cases j with
  | obj members => exact Nat.succ_le_succ (Nat.zero_le _)
  | arr items => exact Nat.succ_le_succ (Nat.zero_le _)
  | _ => cases h

theorem Value.isFinite_of_ofContent? {j : Json} {r : Range} {v : Value}
    (h : Value.ofContent? j r = some v) (hj : j.Readable) : v.IsFinite := by
  cases r with
  | bool =>
      obtain ⟨b, -, rfl⟩ := Option.map_eq_some_iff.mp h
      trivial
  | int =>
      obtain ⟨n, -, rfl⟩ := Option.map_eq_some_iff.mp h
      trivial
  | real =>
      obtain ⟨x, hx, rfl⟩ := Option.map_eq_some_iff.mp h
      cases j with
      | int n =>
          obtain ⟨hlow, hhigh⟩ := hj (.int n) List.mem_cons_self nofun
          cases hx
          exact Binary64.isFinite_ofInt hlow hhigh
      | real x =>
          cases hx
          exact Decimal.Reader.ReadsBack.isFinite (hj (.real x) List.mem_cons_self nofun)
      | _ => cases hx

/-- A value read from what a text spells is not an infinity. -/
theorem Value.isFinite_of_ofJson? {inExpression : Bool} {j : Json} {v : Value}
    (h : Value.ofJson? inExpression j = some v) (hj : j.Readable) : v.IsFinite := by
  unfold Value.ofJson? at h
  split at h
  · simp only [Option.bind_eq_bind, Option.bind_eq_some_iff] at h
    obtain ⟨fields, hfields, range, -, hcontent⟩ := h
    obtain ⟨c, hc, hv⟩ := Json.exists_of_field hcontent
    exact isFinite_of_ofContent? hv (hj.child (Json.children_of_record hfields hc))
  · simp only [Option.bind_eq_bind, Option.bind_eq_some_iff] at h
    obtain ⟨range, -, hv⟩ := h
    exact isFinite_of_ofContent? hv (hj.child (by simp [Json.children]))
  · cases h

theorem Term.isUnmarked_ofText (s : String) : (Term.ofText s).IsUnmarked := by
  unfold Term.ofText
  split
  · trivial
  · rename_i hmark
    intro hhead
    obtain ⟨cs, hcs⟩ := List.head?_eq_some_iff.mp hhead
    exact hmark cs hcs

theorem Term.isUnmarked_of_ofJson? {j : Json} {t : Term} (h : Term.ofJson? j = some t) :
    t.IsUnmarked := by
  obtain ⟨s, -, rfl⟩ := Option.map_eq_some_iff.mp h
  exact isUnmarked_ofText s

theorem TypedVar.depth_toJson_le_of_ofJson? {j : Json} {v : TypedVar}
    (h : TypedVar.ofJson? j = some v) : v.toJson.depth ≤ j.depth := by
  unfold TypedVar.ofJson? at h
  obtain ⟨fields, hfields, -⟩ := Option.bind_eq_some_iff.mp h
  exact Json.depth_pos_of_record hfields

/-! ## Expressions -/

namespace Expr

/-- How many arrays and objects the document of an expression has around those of
its operands. -/
def shell : Expr → Nat
  | .and _ | .or _ => 2
  | _ => 1

/-- How deep the document of an expression is without its operands. -/
def ownDepth : Expr → Nat
  | .const _ | .fluent _ _ _ | .and _ | .or _ => 2
  | .aggregate _ vars _ => (Json.arr (vars.map TypedVar.toJson)).depth + 1
  | _ => 1

theorem itemsDepth_toJsonAll_le {es : List Expr} {n : Nat} (h : ∀ e ∈ es, e.toJson.depth ≤ n) :
    Json.itemsDepth (toJsonAll es) ≤ n := by
  rw [Json.itemsDepth_le_iff, toJsonAll_eq_map, List.forall_mem_map]
  exact h

theorem depth_toJson_le {e : Expr} {n : Nat} (hown : e.ownDepth ≤ n)
    (hoperands : ∀ a ∈ e.operands, a.toJson.depth + e.shell ≤ n) : e.toJson.depth ≤ n := by
  cases e
  case const v =>
    have hdepth : (const v).toJson.depth = 2 := by cases v <;> rfl
    exact hdepth ▸ hown
  case fluent f args next =>
    have hargs : Json.itemsDepth (args.map Term.toJson) ≤ 0 :=
      Json.itemsDepth_le_iff.mpr (by simp [Term.toJson])
    simp only [ownDepth] at hown
    simp only [toJson, Json.depth, Json.membersDepth]
    omega
  case term t => exact hown
  case and as =>
    have has : Json.itemsDepth (toJsonAll as) ≤ n - 2 :=
      itemsDepth_toJsonAll_le fun a ha => Nat.le_sub_of_add_le (hoperands a ha)
    simp only [ownDepth] at hown
    simp only [toJson, Json.depth, Json.membersDepth]
    omega
  case or as =>
    have has : Json.itemsDepth (toJsonAll as) ≤ n - 2 :=
      itemsDepth_toJsonAll_le fun a ha => Nat.le_sub_of_add_le (hoperands a ha)
    simp only [ownDepth] at hown
    simp only [toJson, Json.depth, Json.membersDepth]
    omega
  all_goals
    simp only [ownDepth, operands, shell, List.forall_mem_cons, Json.depth] at hown hoperands
    simp only [toJson, Json.depth, Json.membersDepth]
    omega

/-- Whether what an expression holds apart from its operands is read from some of
the given documents. -/
def OwnFrom (js : List Json) : Expr → Prop
  | .const v => ∃ q ∈ js, Value.ofJson? true q = some v
  | .fluent _ args _ => args = [] ∨ ∃ q ∈ js, Json.list? Term.ofJson? q = some args
  | .term t => ∃ q ∈ js, Term.ofJson? q = some t
  | .and as | .or as => ∃ q ∈ js, Json.list? (ofPart? false) q = some as
  | .aggregate _ vars _ => ∃ q ∈ js, Json.list? TypedVar.ofJson? q = some vars
  | _ => True

/-- An expression is read from what lies inside of a document. -/
structure ReadFrom (j : Json) (e : Expr) : Prop where
  own : e.OwnFrom j.children
  operands : ∀ a ∈ e.operands, ∃ q, Json.Inside e.shell j q ∧ ofPart? false q = some a

/-- What a reader finds under the names of fields lies inside of a document. -/
structure Found.Within (found : Found) (j : Json) : Prop where
  raw : ∀ {name q}, found.raw name = some q → q ∈ j.children
  expr : ∀ {name a}, found.expr name = some a → ∃ q ∈ j.children, ofPart? false q = some a
  exprs : ∀ {name as}, found.exprs name = some as →
    ∃ q ∈ j.children, Json.list? (ofPart? false) q = some as

theorem within_obj (members : List (String × Json)) :
    Found.Within
      { raw := fun name => members.lookup name
        expr := fun name => ofMember? name members
        exprs := fun name => ofMemberItems? name members } (.obj members) where
  raw := Json.mem_of_lookup
  expr := by
    intro name a h
    induction members with
    | nil => cases h
    | cons m ms ih =>
        simp only [ofMember?] at h
        split_ifs at h
        · exact ⟨m.2, List.mem_cons_self, h⟩
        · obtain ⟨q, hq, ha⟩ := ih h
          exact ⟨q, List.mem_cons_of_mem _ hq, ha⟩
  exprs := by
    intro name as h
    induction members with
    | nil => cases h
    | cons m ms ih =>
        simp only [ofMemberItems?] at h
        split_ifs at h
        · exact ⟨m.2, List.mem_cons_self, listOfJson?_eq m.2 ▸ h⟩
        · obtain ⟨q, hq, ha⟩ := ih h
          exact ⟨q, List.mem_cons_of_mem _ hq, ha⟩

theorem ofItem?_eq (place : Nat) (items : List Json) :
    ofItem? place items = items[place]?.bind (ofPart? false) := by
  induction items generalizing place with
  | nil => rfl
  | cons j js ih => cases place <;> simp [ofItem?, ih]

theorem ofItemItems?_eq (place : Nat) (items : List Json) :
    ofItemItems? place items = items[place]?.bind (Json.list? (ofPart? false)) := by
  induction items generalizing place with
  | nil => rfl
  | cons j js ih => cases place <;> simp [ofItemItems?, ih, listOfJson?_eq]

theorem within_arr (items : List Json) (place : String → Nat) :
    Found.Within
      { raw := fun name => items[place name]?
        expr := fun name => ofItem? (place name) items
        exprs := fun name => ofItemItems? (place name) items } (.arr items) where
  raw := List.mem_of_getElem?
  expr := by
    intro name a h
    obtain ⟨q, hq, ha⟩ := Option.bind_eq_some_iff.mp ((ofItem?_eq _ _).symm.trans h)
    exact ⟨q, List.mem_of_getElem? hq, ha⟩
  exprs := by
    intro name as h
    obtain ⟨q, hq, has⟩ := Option.bind_eq_some_iff.mp ((ofItemItems?_eq _ _).symm.trans h)
    exact ⟨q, List.mem_of_getElem? hq, has⟩

section Assemble

variable {found : Found} {j : Json} {e : Expr} (hfound : found.Within j)
include hfound

/-- What is put together from fields inside of a document is read from it. -/
theorem readFrom_of_assemble {k : ExprKind} (h : assemble found k = some e) : e.ReadFrom j := by
  have hexpr : ∀ {name a}, found.expr name = some a →
      ∃ q, Json.Inside 1 j q ∧ ofPart? false q = some a := by
    intro name a ha
    obtain ⟨q, hq, hread⟩ := hfound.expr ha
    exact ⟨q, Json.inside_of_mem_children hq, hread⟩
  have hexprs : ∀ {name as}, found.exprs name = some as →
      ∀ a ∈ as, ∃ q, Json.Inside 2 j q ∧ ofPart? false q = some a := by
    intro name as has a ha
    obtain ⟨q, hq, hlist⟩ := hfound.exprs has
    obtain ⟨c, hc, hread⟩ := Json.exists_of_list? hlist a ha
    exact ⟨c, .child hq (Json.inside_of_mem_children hc), hread⟩
  cases k <;> simp only [assemble, Option.bind_eq_bind, Option.bind_eq_some_iff, Option.pure_def,
    Option.some.injEq] at h
  case const =>
    obtain ⟨v, ⟨q, hq, hv⟩, rfl⟩ := h
    exact ⟨⟨q, hfound.raw hq, hv⟩, List.forall_mem_nil _⟩
  case fluent =>
    -- the arguments and the mark may be left out, so each is looked up first
    obtain ⟨f, -, h⟩ := h
    cases hargs : found.raw "args" with
    | none =>
        obtain ⟨next, rfl⟩ : ∃ next, e = .fluent f [] next := by
          cases hnext : found.raw "next" with
          | none => exact ⟨false, by simpa [hargs, hnext, eq_comm] using h⟩
          | some r =>
              simp only [hargs, hnext, Option.bind_some, Option.bind_eq_some_iff] at h
              obtain ⟨next, -, he⟩ := h
              exact ⟨next, (Option.some.inj he).symm⟩
        exact ⟨.inl rfl, List.forall_mem_nil _⟩
    | some q =>
        obtain ⟨args, next, hq, rfl⟩ :
            ∃ args next, Json.list? Term.ofJson? q = some args ∧ e = .fluent f args next := by
          simp only [hargs, Option.bind_eq_some_iff] at h
          obtain ⟨args, hq, h⟩ := h
          cases hnext : found.raw "next" with
          | none => exact ⟨args, false, hq, by simpa [hnext, eq_comm] using h⟩
          | some r =>
              simp only [hnext, Option.bind_eq_some_iff] at h
              obtain ⟨next, -, he⟩ := h
              exact ⟨args, next, hq, (Option.some.inj he).symm⟩
        exact ⟨.inr ⟨q, hfound.raw hargs, hq⟩, List.forall_mem_nil _⟩
  case term =>
    obtain ⟨t, ⟨q, hq, ht⟩, rfl⟩ := h
    exact ⟨⟨q, hfound.raw hq, ht⟩, List.forall_mem_nil _⟩
  case and =>
    obtain ⟨as, has, rfl⟩ := h
    exact ⟨hfound.exprs has, hexprs has⟩
  case or =>
    obtain ⟨as, has, rfl⟩ := h
    exact ⟨hfound.exprs has, hexprs has⟩
  case aggregate =>
    obtain ⟨op, -, vars, ⟨q, hq, hvars⟩, body, hbody, rfl⟩ := h
    exact ⟨⟨q, hfound.raw hq, hvars⟩, List.forall_mem_singleton.mpr (hexpr hbody)⟩
  case ite =>
    obtain ⟨c, hc, t, ht, e, he, rfl⟩ := h
    exact ⟨trivial, by simp [operands, shell, hexpr hc, hexpr ht, hexpr he]⟩
  case compare | arith =>
    obtain ⟨op, -, l, hl, r, hr, rfl⟩ := h
    exact ⟨trivial, by simp [operands, shell, hexpr hl, hexpr hr]⟩
  case implies | equiv | uniform =>
    obtain ⟨l, hl, r, hr, rfl⟩ := h
    exact ⟨trivial, by simp [operands, shell, hexpr hl, hexpr hr]⟩
  case not | neg | kronDelta | diracDelta | bernoulli =>
    obtain ⟨a, ha, rfl⟩ := h
    exact ⟨trivial, List.forall_mem_singleton.mpr (hexpr ha)⟩

end Assemble

section Read

variable {root : Bool} {j : Json} {e : Expr}

theorem depth_pos_of_ofPart? (h : ofPart? root j = some e) : 1 ≤ j.depth := by
  cases j with
  | obj members => exact Nat.succ_le_succ (Nat.zero_le _)
  | arr items => exact Nat.succ_le_succ (Nat.zero_le _)
  | _ => simp [ofPart?] at h

/-- What is read as an expression is read from the document. -/
theorem readFrom_of_ofPart? (h : ofPart? root j = some e) : e.ReadFrom j := by
  cases j with
  | obj members =>
      rw [ofPart?] at h
      split at h
      · cases h
      · exact readFrom_of_assemble (within_obj members) h
  | arr items =>
      rw [ofPart?] at h
      split at h
      · cases h
      · exact readFrom_of_assemble (within_arr items _) h
  | _ => simp [ofPart?] at h

/-! ### Portability -/

/-- Each part of an expression that is read comes from somewhere inside of the document. -/
theorem exists_ownFrom_of_mem_parts (h : ofPart? root j = some e) {p : Expr} (hp : p ∈ e.parts) :
    ∃ n q, Json.Inside n j q ∧ p.OwnFrom q.children := by
  induction e using operands_induction generalizing root j with
  | h e ih =>
      have hread := readFrom_of_ofPart? h
      rcases mem_parts_iff.mp hp with rfl | ⟨a, ha, hpa⟩
      · exact ⟨0, j, .self j, hread.own⟩
      · obtain ⟨q, hinside, hq⟩ := hread.operands a ha
        obtain ⟨n, c, hc, hown⟩ := ih a ha hq hpa
        exact ⟨_, c, hinside.trans hc, hown⟩

/-- An expression that is read from what a text spells has finite constants. -/
theorem isFinite_of_ofPart? (h : ofPart? root j = some e) (hj : j.Readable) : e.IsFinite := by
  intro v hv
  obtain ⟨n, q, hq, c, hc, hread⟩ := exists_ownFrom_of_mem_parts h hv
  exact Value.isFinite_of_ofJson? hread ((hj.inside hq).child hc)

/-- Terms that are read are told from their texts, so an expression that is read can be
written so that it is read back, unless some constant is not finite. -/
theorem isPortable_of_ofPart? (h : ofPart? root j = some e) (hfinite : e.IsFinite) :
    e.IsPortable := by
  intro p hp
  obtain ⟨n, q, -, hown⟩ := exists_ownFrom_of_mem_parts h hp
  cases p with
  | const v => exact hfinite v hp
  | fluent f args next =>
      rcases hown with rfl | ⟨c, -, hargs⟩
      · exact List.forall_mem_nil _
      · intro t ht
        obtain ⟨c', -, hread⟩ := Json.exists_of_list? hargs t ht
        exact Term.isUnmarked_of_ofJson? hread
  | term t =>
      obtain ⟨c, -, ht⟩ := hown
      exact Term.isUnmarked_of_ofJson? ht
  | _ => trivial

/-- The reals of an expression that is read from what a text spells are read back. -/
theorem readsBack_of_ofPart? (h : ofPart? root j = some e) (hj : j.Readable) :
    e.toJson.ReadsBack .nearest :=
  (legible_toJson e (isPortable_of_ofPart? h (isFinite_of_ofPart? h hj))).readsBack

/-! ### Depth -/

/-- Whether a part of an expression is a fluent without arguments. -/
def IsBare : Expr → Prop
  | .fluent _ [] _ => True
  | _ => False

theorem OwnFrom.ownDepth_le {k : Nat} (h : e.OwnFrom j.children) (hj : 1 ≤ j.depth)
    (hbare : e.IsBare → 1 ≤ k) : e.ownDepth ≤ j.depth + k := by
  have hchild : ∀ {q : Json}, q ∈ j.children → 1 ≤ q.depth → 2 ≤ j.depth := by
    intro q hq hpos
    have hlt := Json.depth_lt_of_mem_children hq
    omega
  cases e with
  | const v =>
      obtain ⟨q, hq, hv⟩ := h
      have hdepth := hchild hq (Value.depth_pos_of_ofJson? hv)
      exact hdepth.trans (Nat.le_add_right _ _)
  | fluent f args next =>
      rcases h with rfl | ⟨q, hq, hargs⟩
      · exact Nat.add_le_add hj (hbare trivial)
      · have hdepth := hchild hq (Json.depth_pos_of_list? hargs)
        exact hdepth.trans (Nat.le_add_right _ _)
  | and as =>
      obtain ⟨q, hq, has⟩ := h
      have hdepth := hchild hq (Json.depth_pos_of_list? has)
      exact hdepth.trans (Nat.le_add_right _ _)
  | or as =>
      obtain ⟨q, hq, has⟩ := h
      have hdepth := hchild hq (Json.depth_pos_of_list? has)
      exact hdepth.trans (Nat.le_add_right _ _)
  | aggregate op vars body =>
      obtain ⟨q, hq, hvars⟩ := h
      have hdepth :=
        Json.depth_map_le_of_list? hvars TypedVar.depth_toJson_le_of_ofJson?
      have hlt := Json.depth_lt_of_mem_children hq
      rw [ownDepth]
      omega
  | _ => exact hj.trans (Nat.le_add_right _ _)

/-- The document of an expression is no deeper than the one that it was read from,
but for fluents without arguments: there it may be deeper by one. -/
theorem depth_toJson_le_of_ofPart? {k : Nat} (h : ofPart? root j = some e)
    (hbare : ∀ p ∈ e.parts, p.IsBare → 1 ≤ k) : e.toJson.depth ≤ j.depth + k := by
  induction e using operands_induction generalizing root j with
  | h e ih =>
      have hread := readFrom_of_ofPart? h
      apply depth_toJson_le
      · exact hread.own.ownDepth_le (depth_pos_of_ofPart? h)
          (hbare e (mem_parts_iff.mpr (.inl rfl)))
      · -- an operand lies as far inside of what was read as of what is written
        intro a ha
        obtain ⟨q, hinside, hq⟩ := hread.operands a ha
        have hoperand := ih a ha hq fun p hp => hbare p (mem_parts_iff.mpr (.inr ⟨a, ha, hp⟩))
        have hdepth := hinside.depth_le
        omega

end Read

end Expr

end LiftedPomdp
