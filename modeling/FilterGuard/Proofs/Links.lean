import FilterGuard.Proofs.Outline

/-!
# Walking and climbing by links

The links of the nodes of an outline lead through it: a walk from the number of
its root meets its nodes in their order, and a climb from one of them meets the
nodes above it.
-/

namespace FilterGuard

/-- Whether an array holds nodes in a row, the first of them at `id`. -/
def Holds (nodes : Array Node) : Nat → List Node → Prop
  | _, [] => True
  | id, n :: ns => nodes[id]? = some n ∧ Holds nodes (id + 1) ns

theorem holds_append (nodes : Array Node) (ms : List Node) : ∀ (id : Nat) (ns : List Node),
    Holds nodes id (ns ++ ms) ↔ Holds nodes id ns ∧ Holds nodes (id + ns.length) ms
  | id, [] => by simp [Holds]
  | id, n :: ns => by
    rw [List.cons_append, Holds, Holds, holds_append nodes ms (id + 1) ns, and_assoc, List.length_cons,
      Nat.add_right_comm, Nat.add_assoc]

theorem holds_of_toList (nodes : Array Node) : ∀ (ns before : List Node), nodes.toList = before ++ ns →
    Holds nodes before.length ns
  | [], _, _ => trivial
  | n :: ns, before, h => by
    refine ⟨by simp [← Array.getElem?_toList, h], ?_⟩
    have := holds_of_toList nodes ns (before ++ [n]) (by simp [h])
    simpa using this

theorem holds_self (ns : List Node) : Holds ns.toArray 0 ns :=
  holds_of_toList ns.toArray ns [] (by simp)

namespace Outline

/-! ## Walks -/

theorem walk_list (nodes : Array Node) (o : Outline) : ∀ (parent : Option Nat) (level id fuel : Nat)
    (stack : List Nat), Holds nodes id (o.list parent level id) →
    Tree.walk nodes (fuel + o.size) (id :: stack) = o.list parent level id ++ Tree.walk nodes fuel stack := by
  induction o with
  | leaf scope content text =>
    intro parent level id fuel stack h
    simp [size, Tree.walk, h.1, list]
  | one scope kind text below ih =>
    intro parent level id fuel stack h
    rw [size, ← Nat.add_assoc, Tree.walk, h.1]
    simp only [list, Option.toList, List.nil_append, List.cons_append]
    rw [ih _ _ _ _ _ h.2]
  | two scope kind text left right ihl ihr =>
    intro parent level id fuel stack h
    obtain ⟨hl, hr⟩ := (holds_append _ _ _ _).mp h.2
    rw [length_list] at hr
    have hs : fuel + (Outline.two scope kind text left right).size = fuel + right.size + left.size + 1 := by
      simp only [size]
      omega
    rw [hs, Tree.walk, h.1]
    simp only [list, Option.toList, List.nil_append, List.cons_append]
    rw [ihl _ _ _ _ _ hl, ihr _ _ _ _ _ hr, List.append_assoc]

/-! ## Climbs -/

/-- The nodes in pre-order, each with the nodes above it, innermost first. -/
def tracked (above : List Node) (id : Nat) : Outline → List (Node × List Node)
  | leaf scope content text =>
    [(⟨id, above.head?.map Node.id, none, none, above.length, scope, content, text⟩, above)]
  | one scope kind text below =>
    let n : Node := ⟨id, above.head?.map Node.id, some (id + 1), none, above.length, scope, .operator kind, text⟩
    (n, above) :: below.tracked (n :: above) (id + 1)
  | two scope kind text left right =>
    let n : Node := ⟨id, above.head?.map Node.id, some (id + 1), some (id + 1 + left.size), above.length, scope,
      .operator kind, text⟩
    (n, above) :: (left.tracked (n :: above) (id + 1) ++ right.tracked (n :: above) (id + 1 + left.size))

theorem map_fst_tracked (o : Outline) : ∀ (above : List Node) (id : Nat),
    (o.tracked above id).map Prod.fst = o.list (above.head?.map Node.id) above.length id := by
  induction o with
  | leaf => intros; rfl
  | one _ _ _ _ ih => intros; simp [tracked, list, ih]
  | two _ _ _ _ _ ihl ihr => intros; simp [tracked, list, ihl, ihr]

theorem length_tracked (o : Outline) (above : List Node) (id : Nat) : (o.tracked above id).length = o.size := by
  rw [← List.length_map, map_fst_tracked, length_list]

/-- A node with the nodes above it: as many as its level, which comes before its
number, and operators all of them. -/
structure Grounded (e : Node × List Node) : Prop where
  level : e.1.level = e.2.length
  level_le : e.2.length ≤ e.1.id
  operators : ∀ m ∈ e.2, m.operator?.isSome = true

theorem grounded_tracked (o : Outline) : ∀ (above : List Node) (id : Nat), above.length ≤ id →
    (∀ m ∈ above, m.operator?.isSome = true) → ∀ e ∈ o.tracked above id, Grounded e := by
  induction o with
  | leaf scope content text =>
    intro above id hl ha e he
    rw [tracked, List.mem_singleton] at he
    subst he
    exact ⟨rfl, hl, ha⟩
  | one scope kind text below ih =>
    intro above id hl ha e he
    rcases List.mem_cons.mp he with rfl | he
    · exact ⟨rfl, hl, ha⟩
    · exact ih _ _ (Nat.succ_le_succ hl) (List.forall_mem_cons.mpr ⟨rfl, ha⟩) e he
  | two scope kind text left right ihl ihr =>
    intro above id hl ha e he
    have hl' : above.length + 1 ≤ id + 1 := Nat.succ_le_succ hl
    rcases List.mem_cons.mp he with rfl | he
    · exact ⟨rfl, hl, ha⟩
    · rcases List.mem_append.mp he with he | he
      · exact ihl _ _ hl' (List.forall_mem_cons.mpr ⟨rfl, ha⟩) e he
      · exact ihr _ _ (Nat.le_trans hl' (Nat.le_add_right ..)) (List.forall_mem_cons.mpr ⟨rfl, ha⟩) e he

theorem grounded_root {o : Outline} {e : Node × List Node} (he : e ∈ o.tracked [] 0) : Grounded e :=
  grounded_tracked o [] 0 (Nat.le_refl _) (by simp) e he

/-- A link under which a climb meets the nodes `above`, if it has the fuel. -/
def Climbs (nodes : Array Node) (link : Option Nat) (above : List Node) : Prop :=
  ∀ fuel, above.length ≤ fuel → Tree.climb nodes fuel link = above

theorem climbs_none (nodes : Array Node) : Climbs nodes none [] := by
  intro fuel _
  cases fuel <;> rfl

theorem Climbs.cons {nodes : Array Node} {n : Node} {above : List Node} {id : Nat}
    (h : Climbs nodes n.parent above) (hn : nodes[id]? = some n) : Climbs nodes (some id) (n :: above) := by
  intro fuel hf
  cases fuel with
  | zero => cases hf
  | succ fuel => simp [Tree.climb, hn, h fuel (Nat.le_of_succ_le_succ hf)]

theorem climbs_tracked (nodes : Array Node) (o : Outline) : ∀ (above : List Node) (id : Nat),
    Holds nodes id ((o.tracked above id).map Prod.fst) → Climbs nodes (above.head?.map Node.id) above →
    ∀ e ∈ o.tracked above id, nodes[e.1.id]? = some e.1 ∧ Climbs nodes e.1.parent e.2 := by
  induction o with
  | leaf scope content text =>
    intro above id h hc e he
    rw [tracked, List.mem_singleton] at he
    subst he
    exact ⟨h.1, hc⟩
  | one scope kind text below ih =>
    intro above id h hc e he
    rcases List.mem_cons.mp he with rfl | he
    · exact ⟨h.1, hc⟩
    · exact ih _ _ h.2 (Climbs.cons hc h.1) e he
  | two scope kind text left right ihl ihr =>
    intro above id h hc e he
    have hn := h.1
    have h2 := h.2
    rw [List.map_append, holds_append, List.length_map, length_tracked] at h2
    rcases List.mem_cons.mp he with rfl | he
    · exact ⟨hn, hc⟩
    · rcases List.mem_append.mp he with he | he
      · exact ihl _ _ h2.1 (Climbs.cons hc hn) e he
      · exact ihr _ _ h2.2 (Climbs.cons hc hn) e he

end Outline

/-! ## Trees -/

namespace Tree

/-- A tree whose array holds the nodes of an outline. -/
def Has (t : Tree) (o : Outline) : Prop :=
  t.nodes = (o.list none 0 0).toArray

theorem has_ofBound {expression : String} {b : Bound} {schema : Schema} {options : Options} {t : Tree}
    (h : ofBound expression b schema options = .ok t) : t.Has (.ofBound none b) := by
  obtain ⟨-, rfl⟩ := ofBound_eq_ok_iff.mp h
  rfl

variable {t : Tree} {o : Outline} (h : t.Has o)
include h

theorem preOrder_eq : t.preOrder = o.list none 0 0 := by
  have hs : t.nodes.size = 0 + o.size := by rw [h, List.size_toArray, Outline.length_list, Nat.zero_add]
  unfold preOrder
  rw [hs, Outline.walk_list _ _ none 0 _ _ _ (h ▸ holds_self _), walk, List.append_nil]

theorem climbs_of_mem {e : Node × List Node} (he : e ∈ o.tracked [] 0) :
    t.node? e.1.id = some e.1 ∧ Outline.Climbs t.nodes e.1.parent e.2 := by
  have hh : Holds t.nodes 0 ((o.tracked [] 0).map Prod.fst) := by
    rw [h, Outline.map_fst_tracked]
    exact holds_self _
  exact Outline.climbs_tracked _ _ _ _ hh (Outline.climbs_none _) e he

theorem ancestors_eq {e : Node × List Node} (he : e ∈ o.tracked [] 0) : t.ancestors e.1.id = e.2 := by
  obtain ⟨hn, hc⟩ := climbs_of_mem h he
  have hlt : e.1.id < t.nodes.size := (Array.getElem?_eq_some_iff.mp hn).1
  unfold ancestors
  rw [hn, Option.bind_some]
  exact hc _ (Nat.le_trans (Outline.grounded_root he).level_le (Nat.le_of_lt hlt))

end Tree

end FilterGuard
