import LiftedPomdp.Json.Basic

/-!
# The parts of a document

A document nests arrays and objects to some depth, and at its leaves stand parts
that have no parts themselves.  Clipping a document leaves it alone where it nests
no deeper than it is clipped, and leaves a part without a value otherwise.
-/

namespace LiftedPomdp
namespace Json

/-! ## Depth -/

mutual

/-- How many arrays and objects a document nests. -/
def depth : Json → Nat
  | .arr items => itemsDepth items + 1
  | .obj members => membersDepth members + 1
  | _ => 0

/-- How many arrays and objects the items of an array nest at most. -/
def itemsDepth : List Json → Nat
  | [] => 0
  | j :: js => max j.depth (itemsDepth js)

/-- How many arrays and objects the members of an object nest at most. -/
def membersDepth : List (String × Json) → Nat
  | [] => 0
  | (_, j) :: ms => max j.depth (membersDepth ms)

end

@[simp]
theorem depth_bool (b : Bool) : (bool b).depth = 0 :=
  rfl

@[simp]
theorem depth_int (n : Int) : (int n).depth = 0 :=
  rfl

@[simp]
theorem depth_real (x : Float) : (real x).depth = 0 :=
  rfl

@[simp]
theorem depth_str (s : String) : (str s).depth = 0 :=
  rfl

theorem itemsDepth_le_iff {items : List Json} {n : Nat} :
    itemsDepth items ≤ n ↔ ∀ j ∈ items, j.depth ≤ n := by
  induction items with
  | nil => simp [itemsDepth]
  | cons j js ih => rw [itemsDepth, Nat.max_le, ih, List.forall_mem_cons]

theorem membersDepth_le_iff {members : List (String × Json)} {n : Nat} :
    membersDepth members ≤ n ↔ ∀ m ∈ members, m.2.depth ≤ n := by
  induction members with
  | nil => simp [membersDepth]
  | cons m ms ih => rw [membersDepth, Nat.max_le, ih, List.forall_mem_cons]

theorem depth_arr_le_iff {items : List Json} {n : Nat} :
    (arr items).depth ≤ n + 1 ↔ ∀ j ∈ items, j.depth ≤ n := by
  rw [depth, Nat.add_le_add_iff_right, itemsDepth_le_iff]

theorem depth_obj_le_iff {members : List (String × Json)} {n : Nat} :
    (obj members).depth ≤ n + 1 ↔ ∀ m ∈ members, m.2.depth ≤ n := by
  rw [depth, Nat.add_le_add_iff_right, membersDepth_le_iff]

theorem depth_strings_le (ss : List String) : (strings ss).depth ≤ 1 :=
  depth_arr_le_iff.mpr (by simp [depth])

/-! ## Leaves -/

mutual

/-- The parts of a document that have no parts themselves. -/
def leaves : Json → List Json
  | .arr items => leavesOfItems items
  | .obj members => leavesOfMembers members
  | j => [j]

/-- The leaves of the items of an array. -/
def leavesOfItems : List Json → List Json
  | [] => []
  | j :: js => j.leaves ++ leavesOfItems js

/-- The leaves of the members of an object. -/
def leavesOfMembers : List (String × Json) → List Json
  | [] => []
  | (_, j) :: ms => j.leaves ++ leavesOfMembers ms

end

theorem leavesOfItems_eq (items : List Json) : leavesOfItems items = items.flatMap leaves := by
  induction items with
  | nil => rfl
  | cons j js ih => rw [leavesOfItems, ih, List.flatMap_cons]

theorem leavesOfMembers_eq (members : List (String × Json)) :
    leavesOfMembers members = members.flatMap fun m => m.2.leaves := by
  induction members with
  | nil => rfl
  | cons m ms ih => rw [leavesOfMembers, ih, List.flatMap_cons]

mutual

/-- A document is sound where all its leaves have a value. -/
theorem isSound_iff (j : Json) : j.isSound = true ↔ ∀ l ∈ j.leaves, l ≠ .garbled := by
  cases j with
  | arr items => exact areSound_iff items
  | obj members => exact membersAreSound_iff members
  | _ => simp [isSound, leaves]

theorem areSound_iff (items : List Json) :
    areSound items = true ↔ ∀ l ∈ leavesOfItems items, l ≠ .garbled := by
  cases items with
  | nil => simp [areSound, leavesOfItems]
  | cons j js =>
      rw [areSound, Bool.and_eq_true, isSound_iff j, areSound_iff js, leavesOfItems,
        List.forall_mem_append]

theorem membersAreSound_iff (members : List (String × Json)) :
    membersAreSound members = true ↔ ∀ l ∈ leavesOfMembers members, l ≠ .garbled := by
  cases members with
  | nil => simp [membersAreSound, leavesOfMembers]
  | cons m ms =>
      rw [membersAreSound, Bool.and_eq_true, isSound_iff m.2, membersAreSound_iff ms,
        leavesOfMembers, List.forall_mem_append]

end

/-! ## Children -/

/-- The items of an array and the values of an object. -/
def children : Json → List Json
  | .arr items => items
  | .obj members => members.map Prod.snd
  | _ => []

theorem mem_leaves_of_mem_children {j c l : Json} (hc : c ∈ j.children) (hl : l ∈ c.leaves) :
    l ∈ j.leaves := by
  cases j with
  | arr items =>
      rw [leaves, leavesOfItems_eq]
      exact List.mem_flatMap.mpr ⟨c, hc, hl⟩
  | obj members =>
      obtain ⟨m, hm, rfl⟩ := List.mem_map.mp hc
      rw [leaves, leavesOfMembers_eq]
      exact List.mem_flatMap.mpr ⟨m, hm, hl⟩
  | _ => cases hc

theorem depth_lt_of_mem_children {j c : Json} (hc : c ∈ j.children) : c.depth < j.depth := by
  cases j with
  | arr items => exact Nat.lt_succ_of_le (itemsDepth_le_iff.mp (Nat.le_refl _) c hc)
  | obj members =>
      obtain ⟨m, hm, rfl⟩ := List.mem_map.mp hc
      exact Nat.lt_succ_of_le (membersDepth_le_iff.mp (Nat.le_refl _) m hm)
  | _ => cases hc

/-- A document lies inside of another one, below a number of arrays and objects. -/
inductive Inside : Nat → Json → Json → Prop
  | self (j : Json) : Inside 0 j j
  | child {n : Nat} {j c q : Json} : c ∈ j.children → Inside n c q → Inside (n + 1) j q

theorem inside_of_mem_children {j c : Json} (hc : c ∈ j.children) : Inside 1 j c :=
  .child hc (.self c)

theorem Inside.trans {m n : Nat} {j c q : Json} (h : Inside m j c) (h' : Inside n c q) :
    Inside (m + n) j q := by
  induction h with
  | self j => rwa [Nat.zero_add]
  | child hc _ ih =>
      rw [Nat.succ_add]
      exact .child hc (ih h')

theorem Inside.depth_le {n : Nat} {j q : Json} (h : Inside n j q) : q.depth + n ≤ j.depth := by
  induction h with
  | self j => exact Nat.le_refl _
  | child hc _ ih =>
      have hlt := depth_lt_of_mem_children hc
      omega

theorem Inside.mem_leaves {n : Nat} {j q l : Json} (h : Inside n j q) (hl : l ∈ q.leaves) :
    l ∈ j.leaves := by
  induction h with
  | self j => exact hl
  | child hc _ ih => exact mem_leaves_of_mem_children hc (ih hl)

/-! ## Clipping -/

mutual

/-- A document that nests no deeper than it is clipped stays as it is. -/
theorem clip_eq_self (j : Json) {n : Nat} (h : j.depth ≤ n) : j.clip n = j := by
  cases j with
  | arr items =>
      cases n with
      | zero => cases h
      | succ n => rw [clip, clipItems_eq_self items (Nat.le_of_succ_le_succ h)]
  | obj members =>
      cases n with
      | zero => cases h
      | succ n => rw [clip, clipMembers_eq_self members (Nat.le_of_succ_le_succ h)]
  | _ => simp [clip]

theorem clipItems_eq_self (items : List Json) {n : Nat} (h : itemsDepth items ≤ n) :
    clipItems n items = items := by
  cases items with
  | nil => rfl
  | cons j js =>
      obtain ⟨hj, hjs⟩ := Nat.max_le.mp h
      rw [clipItems, clip_eq_self j hj, clipItems_eq_self js hjs]

theorem clipMembers_eq_self (members : List (String × Json)) {n : Nat}
    (h : membersDepth members ≤ n) : clipMembers n members = members := by
  cases members with
  | nil => rfl
  | cons m ms =>
      obtain ⟨hj, hms⟩ := Nat.max_le.mp h
      rw [clipMembers, clip_eq_self m.2 hj, clipMembers_eq_self ms hms]

end

mutual

/-- A clipped document nests no deeper than it is clipped. -/
theorem depth_clip_le (n : Nat) (j : Json) : (j.clip n).depth ≤ n := by
  cases j with
  | arr items =>
      cases n with
      | zero => exact Nat.le_refl _
      | succ n => exact Nat.succ_le_succ (itemsDepth_clipItems_le n items)
  | obj members =>
      cases n with
      | zero => exact Nat.le_refl _
      | succ n => exact Nat.succ_le_succ (membersDepth_clipMembers_le n members)
  | _ => simp [clip, depth]

theorem itemsDepth_clipItems_le (n : Nat) (items : List Json) :
    itemsDepth (clipItems n items) ≤ n := by
  cases items with
  | nil => exact Nat.zero_le n
  | cons j js => exact Nat.max_le.mpr ⟨depth_clip_le n j, itemsDepth_clipItems_le n js⟩

theorem membersDepth_clipMembers_le (n : Nat) (members : List (String × Json)) :
    membersDepth (clipMembers n members) ≤ n := by
  cases members with
  | nil => exact Nat.zero_le n
  | cons m ms => exact Nat.max_le.mpr ⟨depth_clip_le n m.2, membersDepth_clipMembers_le n ms⟩

end

mutual

/-- Clipping takes leaves away and puts parts without a value in their place. -/
theorem mem_leaves_clip {l : Json} (n : Nat) (j : Json) (h : l ∈ (j.clip n).leaves) :
    l = .garbled ∨ l ∈ j.leaves := by
  cases j with
  | arr items =>
      cases n with
      | zero => exact .inl (List.mem_singleton.mp h)
      | succ n => exact mem_leavesOfItems_clip n items h
  | obj members =>
      cases n with
      | zero => exact .inl (List.mem_singleton.mp h)
      | succ n => exact mem_leavesOfMembers_clip n members h
  | _ => exact .inr h

theorem mem_leavesOfItems_clip {l : Json} (n : Nat) (items : List Json)
    (h : l ∈ leavesOfItems (clipItems n items)) : l = .garbled ∨ l ∈ leavesOfItems items := by
  cases items with
  | nil => exact .inr h
  | cons j js =>
      rw [leavesOfItems, List.mem_append]
      rcases List.mem_append.mp h with hj | hjs
      · exact (mem_leaves_clip n j hj).imp_right .inl
      · exact (mem_leavesOfItems_clip n js hjs).imp_right .inr

theorem mem_leavesOfMembers_clip {l : Json} (n : Nat) (members : List (String × Json))
    (h : l ∈ leavesOfMembers (clipMembers n members)) :
    l = .garbled ∨ l ∈ leavesOfMembers members := by
  cases members with
  | nil => exact .inr h
  | cons m ms =>
      rw [leavesOfMembers, List.mem_append]
      rcases List.mem_append.mp h with hj | hms
      · exact (mem_leaves_clip n m.2 hj).imp_right .inl
      · exact (mem_leavesOfMembers_clip n ms hms).imp_right .inr

end

mutual

/-- A document that nests deeper than it is clipped loses a part. -/
theorem depth_le_of_isSound_clip (n : Nat) (j : Json) (h : (j.clip n).isSound = true) :
    j.depth ≤ n := by
  cases j with
  | arr items =>
      cases n with
      | zero => cases h
      | succ n => exact Nat.succ_le_succ (itemsDepth_le_of_areSound_clip n items h)
  | obj members =>
      cases n with
      | zero => cases h
      | succ n => exact Nat.succ_le_succ (membersDepth_le_of_membersAreSound_clip n members h)
  | _ => exact Nat.zero_le n

theorem itemsDepth_le_of_areSound_clip (n : Nat) (items : List Json)
    (h : areSound (clipItems n items) = true) : itemsDepth items ≤ n := by
  cases items with
  | nil => exact Nat.zero_le n
  | cons j js =>
      obtain ⟨hj, hjs⟩ := Bool.and_eq_true_iff.mp h
      exact Nat.max_le.mpr
        ⟨depth_le_of_isSound_clip n j hj, itemsDepth_le_of_areSound_clip n js hjs⟩

theorem membersDepth_le_of_membersAreSound_clip (n : Nat) (members : List (String × Json))
    (h : membersAreSound (clipMembers n members) = true) : membersDepth members ≤ n := by
  cases members with
  | nil => exact Nat.zero_le n
  | cons m ms =>
      obtain ⟨hj, hms⟩ := Bool.and_eq_true_iff.mp h
      exact Nat.max_le.mpr
        ⟨depth_le_of_isSound_clip n m.2 hj, membersDepth_le_of_membersAreSound_clip n ms hms⟩

end

end Json
end LiftedPomdp
