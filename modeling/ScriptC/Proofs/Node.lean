import ScriptC.Node.Fix
import ScriptC.Node.Pattern
import ScriptC.Node.Walk

/-!
Nodes and the nodes below them: what lists them, and how high they are.
-/

namespace ScriptC

def Part.Holds (parts : List Part) (c : Node) : Prop := ∃ r, .node r c ∈ parts

theorem Part.holds_of_node? {parts : List Part} {p : Part} {c : Node} (hp : p ∈ parts)
    (h : p.node? = some c) : Holds parts c := by
  cases p with
  | hole r => cases h
  | node r d =>
    cases h
    exact ⟨r, hp⟩

def Kind.isBare : Kind → Bool
  | .sequence | .ifStatement | .withStatement => false
  | _ => true

namespace Node

variable {n c : Node} {r : Role}

theorem holds_of_part? (h : n.part? r = some c) : Part.Holds n.parts c := by
  obtain ⟨p, hp, hc⟩ := List.exists_of_findSome?_eq_some h
  exact Part.holds_of_node? hp (Option.ite_none_right_eq_some.1 hc).2

theorem holds_of_mem_slots (h : some c ∈ n.slots r) : Part.Holds n.parts c := by
  obtain ⟨p, hp, hc⟩ := List.mem_filterMap.1 h
  exact Part.holds_of_node? hp (Option.some.inj (Option.ite_none_right_eq_some.1 hc).2)

theorem holds_of_mem_nodesAt (h : c ∈ n.nodesAt r) : Part.Holds n.parts c := by
  obtain ⟨p, hp, hc⟩ := List.mem_filterMap.1 h
  exact Part.holds_of_node? hp (Option.ite_none_right_eq_some.1 hc).2

theorem holds_of_mem_items (h : c ∈ n.items) : Part.Holds n.parts c :=
  holds_of_mem_nodesAt h

theorem holds_of_mem_children (h : c ∈ n.children.map (·.2)) : Part.Holds n.parts c := by
  obtain ⟨⟨r, d⟩, hd, rfl⟩ := List.mem_map.1 h
  obtain ⟨p, hp, heq⟩ := List.mem_filterMap.1 hd
  cases p with
  | hole => cases heq
  | node r' d' =>
    cases heq
    exact ⟨r, hp⟩

theorem height_le_heightParts {parts : List Part} (h : Part.Holds parts c) :
    c.height ≤ heightParts parts := by
  obtain ⟨r, h⟩ := h
  induction parts with
  | nil => simp at h
  | cons p rest ih =>
    rcases List.mem_cons.1 h with rfl | hrest
    . exact Nat.le_max_left _ _
    . have := ih hrest
      cases p <;> simp only [heightParts] <;> omega

theorem height_lt (h : Part.Holds n.parts c) : c.height < n.height := by
  cases n
  have := height_le_heightParts h
  simp only [height, parts] at *
  omega

mutual

theorem map_walkWhere (enter : Node → Bool) (p q : Option Place) :
    ∀ n : Node, (n.walkWhere enter p).map (·.2) = (n.walkWhere enter q).map (·.2)
  | .mk id span label parts => by
    simp only [walkWhere, List.map_cons, List.cons.injEq, true_and]
    split
    . exact map_walkParts enter p q _ _ parts
    . rfl

theorem map_walkParts (enter : Node → Bool) (p q : Option Place) (parent parent' : Node) :
    ∀ parts : List Part, (walkParts enter p parent parts).map (·.2) =
      (walkParts enter q parent' parts).map (·.2)
  | [] => rfl
  | .node role c :: rest => by
    simp only [walkParts, List.map_append]
    rw [map_walkWhere enter _ (some (parent'.placeIn q role)) c,
      map_walkParts enter p q parent parent' rest]
  | .hole role :: rest => by
    simp only [walkParts]
    exact map_walkParts enter p q parent parent' rest

end

theorem mem_preorder_self : n ∈ n.preorder := by
  cases n
  simp [preorder, walk, walkWhere]

theorem mem_walkParts {enter : Node → Bool} {p : Option Place} {parent m : Node}
    {parts : List Part} (h : Part.Holds parts c)
    (hm : m ∈ (c.walkWhere enter none).map (·.2)) :
    m ∈ (walkParts enter p parent parts).map (·.2) := by
  obtain ⟨r, h⟩ := h
  induction parts with
  | nil => simp at h
  | cons q rest ih =>
    rcases List.mem_cons.1 h with rfl | hrest
    . rw [walkParts, List.map_append, List.mem_append]
      left
      rwa [map_walkWhere enter _ none]
    . cases q with
      | node role d =>
        rw [walkParts, List.map_append, List.mem_append]
        exact .inr (ih hrest)
      | hole role =>
        rw [walkParts]
        exact ih hrest

theorem preorder_subset (h : Part.Holds n.parts c) : c.preorder ⊆ n.preorder := by
  intro m hm
  cases n
  simp only [preorder, walk, walkWhere, if_true, List.map_cons, List.mem_cons]
  exact .inr (mem_walkParts h hm)

theorem heightParts_le_of_subset {parts parts' : List Part} (h : parts ⊆ parts') :
    heightParts parts ≤ heightParts parts' := by
  induction parts with
  | nil => exact Nat.zero_le _
  | cons p rest ih =>
    have hrest := ih (List.subset_of_cons_subset h)
    cases p with
    | hole role => exact hrest
    | node role c =>
      exact Nat.max_le.2 ⟨height_le_heightParts ⟨role, h List.mem_cons_self⟩, hrest⟩

def IsComplete (n : Node) : Prop :=
  (n.kind = .sequence → n.items ≠ []) ∧ (n.kind = .ifStatement → (n.part? .consequent).isSome) ∧
    (n.kind = .withStatement → (n.part? .body).isSome)

instance : Decidable n.IsComplete := inferInstanceAs (Decidable (_ ∧ _))

theorem isComplete_of_isBare (h : n.kind.isBare = true) : n.IsComplete := by
  refine ⟨?_, ?_, ?_⟩
  all_goals
    intro hkind
    rw [hkind] at h
    cases h

theorem isSome_part? (r : Role) :
    (n.part? r).isSome = (n.parts.map fun p => (p.role, p.node?.isSome)).contains (r, true) := by
  unfold part?
  induction n.parts with
  | nil => rfl
  | cons p rest ih =>
    rw [List.findSome?_cons, List.map_cons, List.contains_cons, ← ih]
    by_cases hr : r = p.role
    . cases p.node? <;> simp [hr]
    . simp [hr, Ne.symm hr]

theorem items_ne_nil_iff : n.items ≠ [] ↔ (n.part? .item).isSome := by
  rw [part?, ← List.head?_filterMap, items, nodesAt, List.isSome_head?]

theorem IsComplete.congr {m : Node} (h : n.IsComplete) (hkind : m.kind = n.kind)
    (hparts : ∀ r, (m.part? r).isSome = (n.part? r).isSome) : m.IsComplete := by
  unfold IsComplete at *
  rwa [hkind, items_ne_nil_iff, hparts, hparts, hparts, ← items_ne_nil_iff]

end Node
end ScriptC
