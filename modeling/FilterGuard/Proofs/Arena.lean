import FilterGuard.Proofs.Links

/-!
# Trees in arrays

The nodes of a tree lie in its array in pre-order: a node, its left subtree, its
right subtree. Links lead both ways, and the nodes above a node come before it,
up to the root at the front.
-/

namespace FilterGuard

/-- Operators with two operands. All others have one. -/
def OperatorKind.isBinary : OperatorKind → Bool
  | binary _ | within => true
  | _ => false

/-- Whether a node has the children that go with its content. -/
def Node.Fitted (n : Node) : Prop :=
  match n.content with
  | .operator kind => n.left.isSome = true ∧ n.right.isSome = kind.isBinary
  | .operand .. => n.left = none ∧ n.right = none

/-- Whether the node `top` is the node `id` or above it. -/
def Tree.Covers (t : Tree) (top id : Nat) : Prop :=
  top = id ∨ ∃ m ∈ t.ancestors id, m.id = top

structure Tree.WellFormed (t : Tree) : Prop where
  size_pos : 0 < t.nodes.size
  id_eq : ∀ i n, t.node? i = some n → n.id = i
  parent_eq_none_iff : ∀ i n, t.node? i = some n → (n.parent = none ↔ i = 0)
  child_of_parent : ∀ i n j, t.node? i = some n → n.parent = some j →
    ∃ m, t.node? j = some m ∧ (m.left = some i ∨ m.right = some i)
  parent_of_child : ∀ i n j, t.node? i = some n → n.left = some j ∨ n.right = some j →
    ∃ m, t.node? j = some m ∧ m.parent = some i
  left_eq : ∀ i n j, t.node? i = some n → n.left = some j → j = i + 1
  /-- The right child comes right behind the left subtree. -/
  right_eq : ∀ i n j, t.node? i = some n → n.right = some j → i + 1 < j ∧
    ∀ k < t.nodes.size, t.Covers (i + 1) k ↔ i < k ∧ k < j
  level_root : ∀ n, t.node? 0 = some n → n.level = 0
  level_eq : ∀ i n j m, t.node? i = some n → n.parent = some j → t.node? j = some m → n.level = m.level + 1
  fitted : ∀ i n, t.node? i = some n → n.Fitted

namespace Outline

/-! ## Nodes with the nodes above them -/

/-- Nodes come after those above them. -/
def Descending (ns : List Node) : Prop :=
  ns.Pairwise fun lower upper => upper.id < lower.id

/-- Whether the node `top` is the node of `e` or above it. -/
def Under (top : Nat) (e : Node × List Node) : Prop :=
  top = e.1.id ∨ ∃ m ∈ e.2, m.id = top

/-- A node among those of an outline that stands below `above`, with `size` numbers from `id` on. -/
structure Placed (above : List Node) (id size : Nat) (e : Node × List Node) : Prop where
  le : id ≤ e.1.id
  lt : e.1.id < id + size
  parent : e.1.parent = e.2.head?.map Node.id
  descending : Descending (e.1 :: e.2)
  inside : ∀ m ∈ e.2, m ∈ above ∨ id ≤ m.id
  above_subset : ∀ m ∈ above, m ∈ e.2
  root : Under id e
  left_eq : ∀ j, e.1.left = some j → j = e.1.id + 1
  right_gt : ∀ j, e.1.right = some j → e.1.id + 1 < j

theorem Placed.lift {above : List Node} {n : Node} {id size id' size' : Nat} {e : Node × List Node}
    (h : Placed (n :: above) id' size' e) (hn : n.id = id) (hlt : id < id') (hs : id' + size' ≤ id + size) :
    Placed above id size e where
  le := Nat.le_trans (Nat.le_of_lt hlt) h.le
  lt := Nat.lt_of_lt_of_le h.lt hs
  parent := h.parent
  descending := h.descending
  inside := by
    intro m hm
    rcases h.inside m hm with hm | hm
    · rcases List.mem_cons.mp hm with rfl | hm
      · exact .inr (Nat.le_of_eq hn.symm)
      · exact .inl hm
    · exact .inr (by omega)
  above_subset := fun m hm => h.above_subset m (List.mem_cons_of_mem _ hm)
  root := .inr ⟨n, h.above_subset n (List.mem_cons_self ..), hn⟩
  left_eq := h.left_eq
  right_gt := h.right_gt

theorem size_pos (o : Outline) : 0 < o.size := by
  cases o <;> exact Nat.succ_pos _

/-- Nodes that others can stand below, numbered from `id` on. -/
structure Ready (above : List Node) (id : Nat) : Prop where
  descending : Descending above
  lt : ∀ m ∈ above, m.id < id

theorem Ready.cons {n : Node} {above : List Node} {id id' : Nat} (h : Ready above id) (hn : n.id = id)
    (hlt : id < id') : Ready (n :: above) id' := by
  subst hn
  refine ⟨List.pairwise_cons.mpr ⟨h.lt, h.descending⟩, ?_⟩
  intro m hm
  rcases List.mem_cons.mp hm with rfl | hm
  · exact hlt
  · exact Nat.lt_trans (h.lt m hm) hlt

theorem Ready.mono {above : List Node} {id id' : Nat} (h : Ready above id) (hle : id ≤ id') : Ready above id' :=
  ⟨h.descending, fun m hm => Nat.lt_of_lt_of_le (h.lt m hm) hle⟩

theorem placed_root {above : List Node} {id size : Nat} {n : Node} (h : Ready above id) (hs : 0 < size)
    (hn : n.id = id) (hp : n.parent = above.head?.map Node.id) (hl : ∀ j, n.left = some j → j = id + 1)
    (hr : ∀ j, n.right = some j → id + 1 < j) : Placed above id size (n, above) := by
  subst hn
  exact ⟨Nat.le_refl _, Nat.lt_add_of_pos_right hs, hp, List.pairwise_cons.mpr ⟨h.lt, h.descending⟩,
    fun m hm => .inl hm, fun m hm => hm, .inl rfl, hl, hr⟩

theorem placed_tracked (o : Outline) : ∀ (above : List Node) (id : Nat), Ready above id →
    ∀ e ∈ o.tracked above id, Placed above id o.size e := by
  induction o with
  | leaf scope content text =>
    intro above id h e he
    rw [tracked, List.mem_singleton] at he
    subst he
    refine placed_root h (Nat.succ_pos _) rfl rfl (fun _ hj => ?_) fun _ hj => ?_ <;> cases hj
  | one scope kind text below ih =>
    intro above id h e he
    rcases List.mem_cons.mp he with rfl | he
    · refine placed_root h (Nat.succ_pos _) rfl rfl (fun j hj => (Option.some.inj hj).symm) fun _ hj => ?_
      cases hj
    · have hlt : id < id + 1 := Nat.lt_succ_self id
      exact (ih _ _ (h.cons rfl hlt) e he).lift rfl hlt (by simp only [size]; omega)
  | two scope kind text left right ihl ihr =>
    intro above id h e he
    have hl : id < id + 1 := Nat.lt_succ_self id
    have hr : id + 1 < id + 1 + left.size := Nat.lt_add_of_pos_right left.size_pos
    rcases List.mem_cons.mp he with rfl | he
    · exact placed_root h (Nat.succ_pos _) rfl rfl (fun j hj => (Option.some.inj hj).symm)
        fun j hj => Option.some.inj hj ▸ hr
    · rcases List.mem_append.mp he with he | he
      · exact (ihl _ _ (h.cons rfl hl) e he).lift rfl hl (by simp only [size]; omega)
      · have hr : id < id + 1 + left.size := Nat.lt_trans hl hr
        exact (ihr _ _ (h.cons rfl hr) e he).lift rfl hr (by simp only [size]; omega)

/-! ## Children and parents -/

theorem head_tracked (o : Outline) (above : List Node) (id : Nat) :
    ∃ n, (n, above) ∈ o.tracked above id ∧ n.id = id := by
  cases o <;> exact ⟨_, List.mem_cons_self .., rfl⟩

/-- A child is among the nodes, with its parent directly above it. -/
theorem child_tracked (o : Outline) : ∀ (above : List Node) (id : Nat), ∀ e ∈ o.tracked above id, ∀ j,
    e.1.left = some j ∨ e.1.right = some j → ∃ n, (n, e.1 :: e.2) ∈ o.tracked above id ∧ n.id = j := by
  induction o with
  | leaf scope content text =>
    intro above id e he j hj
    rw [tracked, List.mem_singleton] at he
    subst he
    simp at hj
  | one scope kind text below ih =>
    intro above id e he j hj
    rcases List.mem_cons.mp he with rfl | he
    · have hj : id + 1 = j := by simpa using hj
      subst hj
      obtain ⟨n, hn, hid⟩ := head_tracked below _ (id + 1)
      exact ⟨n, List.mem_cons_of_mem _ hn, hid⟩
    · obtain ⟨n, hn, hid⟩ := ih _ _ e he j hj
      exact ⟨n, List.mem_cons_of_mem _ hn, hid⟩
  | two scope kind text left right ihl ihr =>
    intro above id e he j hj
    rcases List.mem_cons.mp he with rfl | he
    · have hj : id + 1 = j ∨ id + 1 + left.size = j := by simpa using hj
      rcases hj with rfl | rfl
      · obtain ⟨n, hn, hid⟩ := head_tracked left _ (id + 1)
        exact ⟨n, List.mem_cons_of_mem _ (List.mem_append_left _ hn), hid⟩
      · obtain ⟨n, hn, hid⟩ := head_tracked right _ (id + 1 + left.size)
        exact ⟨n, List.mem_cons_of_mem _ (List.mem_append_right _ hn), hid⟩
    · rcases List.mem_append.mp he with he | he
      · obtain ⟨n, hn, hid⟩ := ihl _ _ e he j hj
        exact ⟨n, List.mem_cons_of_mem _ (List.mem_append_left _ hn), hid⟩
      · obtain ⟨n, hn, hid⟩ := ihr _ _ e he j hj
        exact ⟨n, List.mem_cons_of_mem _ (List.mem_append_right _ hn), hid⟩

/-- A node is the first one, or its parent is among the nodes and links to it. -/
theorem parent_tracked (o : Outline) : ∀ (above : List Node) (id : Nat), ∀ e ∈ o.tracked above id,
    (e.1.id = id ∧ e.2 = above) ∨
      ∃ m ms, e.2 = m :: ms ∧ (m, ms) ∈ o.tracked above id ∧ (m.left = some e.1.id ∨ m.right = some e.1.id) := by
  induction o with
  | leaf scope content text =>
    intro above id e he
    rw [tracked, List.mem_singleton] at he
    subst he
    exact .inl ⟨rfl, rfl⟩
  | one scope kind text below ih =>
    intro above id e he
    rcases List.mem_cons.mp he with rfl | he
    · exact .inl ⟨rfl, rfl⟩
    · right
      rcases ih _ _ e he with ⟨hid, habove⟩ | ⟨m, ms, h, hm, hlink⟩
      · exact ⟨_, _, habove, List.mem_cons_self .., .inl (congrArg some hid.symm)⟩
      · exact ⟨m, ms, h, List.mem_cons_of_mem _ hm, hlink⟩
  | two scope kind text left right ihl ihr =>
    intro above id e he
    rcases List.mem_cons.mp he with rfl | he
    · exact .inl ⟨rfl, rfl⟩
    · right
      rcases List.mem_append.mp he with he | he
      · rcases ihl _ _ e he with ⟨hid, habove⟩ | ⟨m, ms, h, hm, hlink⟩
        · exact ⟨_, _, habove, List.mem_cons_self .., .inl (congrArg some hid.symm)⟩
        · exact ⟨m, ms, h, List.mem_cons_of_mem _ (List.mem_append_left _ hm), hlink⟩
      · rcases ihr _ _ e he with ⟨hid, habove⟩ | ⟨m, ms, h, hm, hlink⟩
        · exact ⟨_, _, habove, List.mem_cons_self .., .inr (congrArg some hid.symm)⟩
        · exact ⟨m, ms, h, List.mem_cons_of_mem _ (List.mem_append_right _ hm), hlink⟩

/-! ## Subtrees -/

theorem Placed.le_of_under {above : List Node} {id size top : Nat} {e : Node × List Node}
    (h : Placed above id size e) (ht : Under top e) : top ≤ e.1.id := by
  rcases ht with rfl | ⟨m, hm, rfl⟩
  · exact Nat.le_refl _
  · exact Nat.le_of_lt ((List.pairwise_cons.mp h.descending).1 m hm)

theorem Placed.not_under {above : List Node} {id size top : Nat} {e : Node × List Node}
    (h : Placed above id size e) (ha : ∀ m ∈ above, m.id < top) (ht : top < id) : ¬ Under top e := by
  have hle := h.le
  rintro (rfl | ⟨m, hm, rfl⟩)
  · omega
  · rcases h.inside m hm with hm | hm
    · exact Nat.lt_irrefl _ (ha m hm)
    · omega

section
variable {above : List Node} {id size i j : Nat} {e : Node × List Node} (h : Placed above id size e)
include h

theorem Placed.under_iff_of_le (hle : e.1.id ≤ i) : Under (i + 1) e ↔ i < e.1.id ∧ e.1.id < j := by
  constructor
  · intro hu
    have := h.le_of_under hu
    omega
  · intro hlt
    omega

theorem Placed.under_iff_of_ge (ha : ∀ m ∈ above, m.id < i + 1) (hi : i + 1 < id) (hj : j ≤ id) :
    Under (i + 1) e ↔ i < e.1.id ∧ e.1.id < j := by
  have hle := h.le
  constructor
  · intro hu
    exact absurd hu (h.not_under ha hi)
  · intro hlt
    omega

end

/-- The left subtree of a node with a right child has the numbers between the two. -/
theorem under_left_iff (o : Outline) : ∀ (above : List Node) (id : Nat), Ready above id →
    ∀ e ∈ o.tracked above id, ∀ j, e.1.right = some j →
    ∀ e' ∈ o.tracked above id, Under (e.1.id + 1) e' ↔ e.1.id < e'.1.id ∧ e'.1.id < j := by
  induction o with
  | leaf scope content text =>
    intro above id h e he j hj
    rw [tracked, List.mem_singleton] at he
    subst he
    cases hj
  | one scope kind text below ih =>
    intro above id h e he j hj e' he'
    have hp' := placed_tracked _ _ _ h e' he'
    rcases List.mem_cons.mp he with rfl | he
    · cases hj
    · have hup := h.cons (n := ⟨id, above.head?.map Node.id, some (id + 1), none, above.length, scope, .operator kind,
        text⟩) rfl (Nat.lt_succ_self id)
      have hle := (placed_tracked below _ _ hup e he).le
      rcases List.mem_cons.mp he' with rfl | he'
      · exact hp'.under_iff_of_le (Nat.le_of_succ_le hle)
      · exact ih _ _ hup e he j hj e' he'
  | two scope kind text left right ihl ihr =>
    intro above id h e he j hj e' he'
    have hs := left.size_pos
    have hp' := placed_tracked _ _ _ h e' he'
    have hl := h.cons (n := ⟨id, above.head?.map Node.id, some (id + 1), some (id + 1 + left.size), above.length, scope,
      .operator kind, text⟩) rfl (Nat.lt_succ_self id)
    have hr := hl.mono (Nat.le_add_right _ left.size)
    rcases List.mem_cons.mp he with rfl | he
    · have hj : id + 1 + left.size = j := Option.some.inj hj
      subst hj
      rcases List.mem_cons.mp he' with rfl | he'
      · exact hp'.under_iff_of_le (Nat.le_refl _)
      · rcases List.mem_append.mp he' with he' | he'
        · have hp := placed_tracked left _ _ hl e' he'
          exact ⟨fun _ => ⟨hp.le, hp.lt⟩, fun _ => hp.root⟩
        · have hp := placed_tracked right _ _ hr e' he'
          exact hp.under_iff_of_ge hl.lt (by dsimp only; omega) (Nat.le_refl _)
    · rcases List.mem_append.mp he with he | he
      · have hp := placed_tracked left _ _ hl e he
        have hle := hp.le
        rcases List.mem_cons.mp he' with rfl | he'
        · exact hp'.under_iff_of_le (Nat.le_of_succ_le hle)
        · rcases List.mem_append.mp he' with he' | he'
          · exact ihl _ _ hl e he j hj e' he'
          · -- The right child of `e` is on the left side too, so the right side is behind it.
            obtain ⟨n, hn, hid⟩ := child_tracked left _ _ e he j (.inr hj)
            have hjlt : n.id < id + 1 + left.size := (placed_tracked left _ _ hl _ hn).lt
            have hgt := hp.right_gt j hj
            have hq := placed_tracked right _ _ hr e' he'
            exact hq.under_iff_of_ge (fun m hm => Nat.lt_of_lt_of_le (hl.lt m hm) (Nat.le_succ_of_le hle))
              (by omega) (by omega)
      · have hp := placed_tracked right _ _ hr e he
        have hle := hp.le
        rcases List.mem_cons.mp he' with rfl | he'
        · exact hp'.under_iff_of_le (by dsimp only; omega)
        · rcases List.mem_append.mp he' with he' | he'
          · have hlt := (placed_tracked left _ _ hl e' he').lt
            exact hp'.under_iff_of_le (by omega)
          · exact ihr _ _ hr e he j hj e' he'

/-! ## Numbers -/

theorem map_id_list (o : Outline) : ∀ (parent : Option Nat) (level id : Nat),
    (o.list parent level id).map Node.id = List.range' id o.size := by
  induction o with
  | leaf => intros; rfl
  | one scope kind text below ih =>
    intro parent level id
    rw [list, List.map_cons, ih, size, List.range'_succ]
  | two scope kind text left right ihl ihr =>
    intro parent level id
    rw [list, List.map_cons, List.map_append, ihl, ihr, size, List.range'_succ, List.range'_append_1]

theorem id_of_getElem?_list {o : Outline} {parent : Option Nat} {level id i : Nat} {n : Node}
    (h : (o.list parent level id)[i]? = some n) : n.id = id + i := by
  have hm : ((o.list parent level id).map Node.id)[i]? = some n.id := by rw [List.getElem?_map, h, Option.map_some]
  rw [map_id_list] at hm
  obtain ⟨hlt, hi⟩ := List.getElem?_eq_some_iff.mp hm
  rw [← hi, List.getElem_range', Nat.one_mul]

end Outline

/-! ## Trees -/

/-- Operators have the children they need, and operands have none. -/
theorem fitted_list (b : Bound) : ∀ (scope : Option String) (parent : Option Nat) (level id : Nat),
    ∀ n ∈ (Outline.ofBound scope b).list parent level id, n.Fitted := by
  have hleaf : ∀ (b : Bound) (scope : Option String) (parent : Option Nat) (level id : Nat),
      (⟨id, parent, none, none, level, scope, .ofLeaf scope b, b.render⟩ : Node).Fitted := by
    intro b scope parent level id
    obtain ⟨kind, values, property, hc⟩ := ofLeaf_operand scope b
    simp [Node.Fitted, hc]
  induction b using Bound.nodeInduction with
  | convert source target ih => exact ih
  | unary op operand ih =>
    intro scope parent level id
    exact List.forall_mem_cons.mpr ⟨⟨rfl, rfl⟩, ih _ _ _ _⟩
  | binary op left right ihl ihr =>
    intro scope parent level id
    refine List.forall_mem_cons.mpr ⟨⟨rfl, rfl⟩, ?_⟩
    exact List.forall_mem_append.mpr ⟨ihl _ _ _ _, ihr _ _ _ _⟩
  | within item candidates ihi ihc =>
    intro scope parent level id
    refine List.forall_mem_cons.mpr ⟨⟨rfl, rfl⟩, ?_⟩
    exact List.forall_mem_append.mpr ⟨ihi _ _ _ _, ihc _ _ _ _⟩
  | call function args =>
    intro scope parent level id
    exact List.forall_mem_cons.mpr ⟨⟨rfl, rfl⟩, List.forall_mem_singleton.mpr ⟨rfl, rfl⟩⟩
  | quantified quantifier source v body ih =>
    intro scope parent level id
    exact List.forall_mem_cons.mpr ⟨⟨rfl, rfl⟩, ih _ _ _ _⟩
  | const | access | list | var =>
    intro scope parent level id
    exact List.forall_mem_singleton.mpr (hleaf _ _ _ _ _)

namespace Tree
open Outline

variable {t : Tree} {o : Outline} (h : t.Has o)
include h

theorem mem_tracked {i : Nat} {n : Node} (hn : t.node? i = some n) :
    (n, t.ancestors i) ∈ o.tracked [] 0 ∧ n.id = i := by
  unfold node? at hn
  rw [h, List.getElem?_toArray] at hn
  have hid := id_of_getElem?_list hn
  rw [Nat.zero_add] at hid
  have hm := List.mem_of_getElem? hn
  have hf := map_fst_tracked o [] 0
  rw [List.head?_nil, Option.map_none, List.length_nil] at hf
  rw [← hf] at hm
  obtain ⟨e, he, rfl⟩ := List.mem_map.mp hm
  rw [← hid, ancestors_eq h he]
  exact ⟨he, rfl⟩

theorem placed {i : Nat} {n : Node} (hn : t.node? i = some n) : Placed [] 0 o.size (n, t.ancestors i) :=
  placed_tracked o [] 0 ⟨List.Pairwise.nil, by simp⟩ _ (mem_tracked h hn).1

theorem node?_of_mem {n : Node} {above : List Node} (he : (n, above) ∈ o.tracked [] 0) : t.node? n.id = some n :=
  (climbs_of_mem h he).1

theorem parent_eq {i : Nat} {n : Node} (hn : t.node? i = some n) :
    n.parent = (t.ancestors i).head?.map Node.id :=
  (placed h hn).parent

theorem level_eq_length {i : Nat} {n : Node} (hn : t.node? i = some n) : n.level = (t.ancestors i).length :=
  (grounded_root (mem_tracked h hn).1).level

theorem lt_of_mem_ancestors {i : Nat} {n : Node} (hn : t.node? i = some n) : ∀ m ∈ t.ancestors i, m.id < i := by
  have hd := (List.pairwise_cons.mp (placed h hn).descending).1
  rwa [(mem_tracked h hn).2] at hd

/-- A node is the root, or it is a child of the first of its ancestors. -/
theorem ancestors_cases {i : Nat} {n : Node} (hn : t.node? i = some n) :
    (i = 0 ∧ t.ancestors i = []) ∨
      ∃ m, t.node? m.id = some m ∧ t.ancestors i = m :: t.ancestors m.id ∧ (m.left = some i ∨ m.right = some i) := by
  obtain ⟨he, hid⟩ := mem_tracked h hn
  rcases parent_tracked o [] 0 _ he with ⟨h0, ha⟩ | ⟨m, ms, ha, hm, hlink⟩
  · exact .inl ⟨hid.symm.trans h0, ha⟩
  · refine .inr ⟨m, node?_of_mem h hm, ?_, hid ▸ hlink⟩
    rw [ancestors_eq h hm]
    exact ha

theorem wellFormed_of_has (hf : ∀ n ∈ o.list none 0 0, n.Fitted) : t.WellFormed where
  size_pos := by
    rw [h, List.size_toArray, length_list]
    exact o.size_pos
  id_eq := fun i n hn => (mem_tracked h hn).2
  parent_eq_none_iff := by
    intro i n hn
    rw [parent_eq h hn]
    rcases ancestors_cases h hn with ⟨rfl, ha⟩ | ⟨m, hm, ha, hlink⟩
    · simp [ha]
    · have hlt := lt_of_mem_ancestors h hn m (by simp [ha])
      have hi : i ≠ 0 := by omega
      simp [ha, hi]
  child_of_parent := by
    intro i n j hn hj
    rw [parent_eq h hn] at hj
    rcases ancestors_cases h hn with ⟨h0, ha⟩ | ⟨m, hm, ha, hlink⟩
    · simp [ha] at hj
    · rw [ha] at hj
      cases hj
      exact ⟨m, hm, hlink⟩
  parent_of_child := by
    intro i n j hn hj
    obtain ⟨he, hid⟩ := mem_tracked h hn
    obtain ⟨m, hm, hmid⟩ := child_tracked o [] 0 _ he j hj
    have hm' := node?_of_mem h hm
    refine ⟨m, hmid ▸ hm', ?_⟩
    rw [parent_eq h hm', ancestors_eq h hm, ← hid]
    rfl
  left_eq := by
    intro i n j hn hj
    have := (placed h hn).left_eq j hj
    rwa [(mem_tracked h hn).2] at this
  right_eq := by
    intro i n j hn hj
    obtain ⟨he, hid⟩ := mem_tracked h hn
    subst hid
    refine ⟨(placed h hn).right_gt j hj, ?_⟩
    intro k hk
    have hm : t.node? k = some t.nodes[k] := Array.getElem?_eq_getElem hk
    obtain ⟨hk, hkid⟩ := mem_tracked h hm
    have hu := under_left_iff o [] 0 ⟨List.Pairwise.nil, by simp⟩ _ he j hj _ hk
    rwa [Under, hkid] at hu
  level_root := by
    intro n hn
    rcases ancestors_cases h hn with ⟨_, ha⟩ | ⟨m, hm, ha, hlink⟩
    · rw [level_eq_length h hn, ha]
      rfl
    · exact absurd (lt_of_mem_ancestors h hn m (by simp [ha])) (Nat.not_lt_zero _)
  level_eq := by
    intro i n j m hn hj hm
    rw [parent_eq h hn] at hj
    rw [level_eq_length h hn, level_eq_length h hm]
    rcases ancestors_cases h hn with ⟨_, ha⟩ | ⟨m', _, ha, -⟩
    · simp [ha] at hj
    · rw [ha] at hj ⊢
      cases hj
      rfl
  fitted := by
    intro i n hn
    have hm : (n, t.ancestors i).1 ∈ (o.tracked [] 0).map Prod.fst := List.mem_map_of_mem (mem_tracked h hn).1
    rw [map_fst_tracked] at hm
    exact hf n hm

/-- The way up from a node ends at the root. -/
theorem getLast?_ancestors {i : Nat} {n : Node} (hn : t.node? i = some n) :
    (n :: t.ancestors i).getLast? = t.node? 0 := by
  -- The parent has a lower number.
  induction i using Nat.strongRecOn generalizing n with
  | ind i ih =>
    rcases ancestors_cases h hn with ⟨rfl, ha⟩ | ⟨m, hm, ha, -⟩
    · rw [ha, hn]
      rfl
    · have hlt := lt_of_mem_ancestors h hn m (by simp [ha])
      rw [ha, List.getLast?_cons_cons]
      exact ih m.id hlt hm

end Tree

/-- The nodes of a tree are those of its expression in pre-order, and they are well
formed. So a walk meets each of them once, by number, and the way up from a node
leads over as many operators as its level says, to ever lower numbers and to the root. -/
theorem wellFormed_ofBound {expression : String} {b : Bound} {schema : Schema} {options : Options} {t : Tree}
    (h : Tree.ofBound expression b schema options = .ok t) :
    t.nodes.toList = (Outline.ofBound none b).list none 0 0 ∧ t.WellFormed ∧ t.preOrder = t.nodes.toList ∧
    ∀ i n, t.node? i = some n →
      (t.ancestors i).length = n.level ∧ (∀ m ∈ t.ancestors i, m.operator?.isSome = true) ∧
      Outline.Descending (n :: t.ancestors i) ∧ (n :: t.ancestors i).getLast? = t.node? 0 := by
  have ht := Tree.has_ofBound h
  have hl : t.nodes.toList = (Outline.ofBound none b).list none 0 0 := by
    rw [ht, List.toList_toArray]
  refine ⟨hl, Tree.wellFormed_of_has ht (fitted_list b none none 0 0), ?_, ?_⟩
  · rw [Tree.preOrder_eq ht, hl]
  · intro i n hn
    have hm := (Tree.mem_tracked ht hn).1
    exact ⟨(Tree.level_eq_length ht hn).symm, (Outline.grounded_root hm).operators, (Tree.placed ht hn).descending,
      Tree.getLast?_ancestors ht hn⟩

/-- `a eq 1 and not b and Logins/any(x: x in (1, 2))`, bound by hand with a conversion in it. -/
def mixed : Bound :=
  let property (name : String) : Bound := .access .dynamic none name
  .binary .and
    (.binary .and (.binary .eq (.convert (property "a") .double) (.const (.int32 1))) (.unary .not (property "b")))
    (.quantified .any (property "Logins") (some "x")
      (.within (.var "x" (.primitive .int32)) (.list [.const (.int32 1), .const (.int32 2)])))

theorem wellFormed_mixed :
    ∃ t, Tree.ofBound "" mixed ⟨[]⟩ {} = .ok t ∧ t.WellFormed ∧ t.preOrder = t.nodes.toList ∧
      t.nodes.toList.map (fun n => (n.left, n.right)) =
        [(some 1, some 7), (some 2, some 5), (some 3, some 4), (none, none), (none, none), (some 6, none),
          (none, none), (some 8, none), (some 9, some 10), (none, none), (none, none)] ∧
      (t.ancestors 4).map Node.id = [2, 1, 0] ∧ (t.ancestors 10).map Node.id = [8, 7, 0] := by
  have h : Tree.ofBound "" mixed ⟨[]⟩ {} = .ok _ := Tree.ofBound_eq_ok_iff.mpr ⟨by decide, rfl⟩
  obtain ⟨-, hw, hp, -⟩ := wellFormed_ofBound h
  exact ⟨_, h, hw, hp, by decide +kernel, by decide +kernel, by decide +kernel⟩

end FilterGuard
