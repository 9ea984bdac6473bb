import ScriptC.Function.Extract
import ScriptC.Proofs.Node

/-!
How often a number occurs in a tree. A selection of parts has no number more often than all of them.
-/

namespace ScriptC

namespace Part

variable {p q : Part → Bool} {l k : List Part} {x : Nat}

def nodes (l : List Part) : List Node :=
  l.flatMap fun p => p.node?.elim [] Node.preorder

def times (x : Nat) (l : List Part) : Nat := ((nodes l).map (·.id)).count x

@[simp]
theorem nodes_nil : nodes [] = [] := rfl

@[simp]
theorem nodes_node {r : Role} {n : Node} : nodes (.node r n :: l) = n.preorder ++ nodes l :=
  rfl

@[simp]
theorem nodes_hole {r : Role} : nodes (.hole r :: l) = nodes l := rfl

@[simp]
theorem nodes_append : nodes (l ++ k) = nodes l ++ nodes k := List.flatMap_append

@[simp]
theorem times_nil : times x [] = 0 := rfl

@[simp]
theorem times_node {r : Role} {n : Node} :
    times x (.node r n :: l) = (n.preorder.map (·.id)).count x + times x l := by
  simp [times]

@[simp]
theorem times_hole {r : Role} : times x (.hole r :: l) = times x l := rfl

@[simp]
theorem times_append : times x (l ++ k) = times x l + times x k := by
  simp [times]

theorem times_cons {a : Part} : times x (a :: l) = times x [a] + times x l :=
  times_append (l := [a])

theorem times_perm (h : l.Perm k) : times x l = times x k :=
  ((h.flatMap_right _).map _).count_eq x

theorem times_filter_le : times x (l.filter p) ≤ times x l := by
  induction l with
  | nil => exact Nat.le_refl _
  | cons a rest ih =>
    rw [List.filter_cons, times_cons]
    split
    . rw [times_cons]
      omega
    . omega

theorem times_filter_or (h : ∀ a, p a = true → q a = false) :
    times x (l.filter fun a => p a || q a) =
      times x (l.filter p) + times x (l.filter q) := by
  induction l with
  | nil => rfl
  | cons a rest ih =>
    simp only [List.filter_cons]
    by_cases hp : p a = true
    . simp only [hp, h a hp, Bool.true_or, if_true, Bool.false_eq_true, if_false]
      rw [times_cons, times_cons (l := rest.filter p), ih]
      omega
    . by_cases hq : q a = true
      . simp only [hp, hq, Bool.or_true, Bool.false_eq_true, if_true, if_false]
        rw [times_cons, times_cons (l := rest.filter q), ih]
        omega
      . simp only [hp, hq, Bool.or_self, Bool.false_eq_true, if_false]
        exact ih

theorem mem_nodes_of_holds {c m : Node} (hc : Holds l c) (hm : m ∈ c.preorder) :
    m ∈ nodes l := by
  obtain ⟨r, hc⟩ := hc
  exact List.mem_flatMap.2 ⟨_, hc, hm⟩

theorem exists_holds_of_mem_nodes {m : Node} (h : m ∈ nodes l) :
    ∃ c, Holds l c ∧ m ∈ c.preorder := by
  obtain ⟨a, ha, hm⟩ := List.mem_flatMap.1 h
  cases a with
  | hole r => cases hm
  | node r c => exact ⟨c, ⟨r, ha⟩, hm⟩

theorem nodes_subset (h : l ⊆ k) : nodes l ⊆ nodes k := by
  intro m hm
  obtain ⟨a, ha, hm⟩ := List.mem_flatMap.1 hm
  exact List.mem_flatMap.2 ⟨a, h ha, hm⟩

theorem times_pos_of_mem {m : Node} (h : m ∈ nodes l) : 0 < times m.id l :=
  List.count_pos_iff.2 (List.mem_map_of_mem h)

end Part

namespace Node

variable {n c : Node} {r : Role} {x : Nat}

def ids (n : Node) : List Nat := n.preorder.map (·.id)

theorem map_walkParts_eq (place : Option Place) (parent : Node) (parts : List Part) :
    (walkParts (fun _ => true) place parent parts).map (·.2) = Part.nodes parts := by
  induction parts with
  | nil => rfl
  | cons p rest ih =>
    cases p with
    | node role c =>
      rw [walkParts, List.map_append, Part.nodes_node, ih,
        map_walkWhere _ _ none]
      rfl
    | hole role =>
      rw [walkParts, Part.nodes_hole, ih]

theorem preorder_eq (n : Node) : n.preorder = n :: Part.nodes n.parts := by
  cases n with
  | mk id span label parts =>
    rw [preorder, walk, walkWhere, if_pos rfl, List.map_cons, map_walkParts_eq]
    rfl

theorem nodes_parts_subset {r : Role} {n : Node} : Part.nodes n.parts ⊆ Part.nodes [.node r n] := by
  rw [Part.nodes_node, Part.nodes_nil, List.append_nil, preorder_eq]
  exact List.subset_cons_self _ _

theorem below_induction {P : Node → Prop} (h : ∀ n, (∀ c, Part.Holds n.parts c → P c) → P n)
    (n : Node) : P n := by
  induction hheight : n.height using Nat.strongRecOn generalizing n with
  | ind k ih =>
    apply h
    intro c hc
    exact ih c.height (hheight ▸ height_lt hc) c rfl

theorem preorder_trans {m d : Node} (h : c ∈ m.preorder) (hd : d ∈ c.preorder) :
    d ∈ m.preorder := by
  induction m using below_induction with
  | h m ih =>
    rw [preorder_eq, List.mem_cons] at h
    rcases h with rfl | h
    . exact hd
    . obtain ⟨b, hb, hcb⟩ := Part.exists_holds_of_mem_nodes h
      exact preorder_subset hb (ih b hb hcb)

theorem height_le_of_mem_preorder {m : Node} (h : c ∈ m.preorder) : c.height ≤ m.height := by
  induction m using below_induction with
  | h m ih =>
    rw [preorder_eq, List.mem_cons] at h
    rcases h with rfl | h
    . exact Nat.le_refl _
    . obtain ⟨b, hb, hcb⟩ := Part.exists_holds_of_mem_nodes h
      exact Nat.le_trans (ih b hb hcb) (Nat.le_of_lt (height_lt hb))

theorem times_eq {parts : List Part} :
    Part.times x (.node r n :: parts) =
      [n.id].count x + Part.times x n.parts + Part.times x parts := by
  rw [Part.times_node, preorder_eq, List.map_cons, List.count_cons, List.count_singleton]
  simp only [Part.times]
  omega

@[simp]
theorem id_mk {id : Nat} {span : Span} {label : Label} {parts : List Part} :
    (mk id span label parts).id = id := rfl

@[simp]
theorem parts_mk {id : Nat} {span : Span} {label : Label} {parts : List Part} :
    (mk id span label parts).parts = parts := rfl

@[simp]
theorem id_withParts (parts : List Part) : (n.withParts parts).id = n.id := rfl

@[simp]
theorem kind_withParts (parts : List Part) : (n.withParts parts).kind = n.kind := rfl

@[simp]
theorem parts_withParts (parts : List Part) : (n.withParts parts).parts = parts := rfl

theorem exists_of_part? (h : n.part? r = some c) : .node r c ∈ Extract.partsAt n r := by
  obtain ⟨p, hp, hc⟩ := List.exists_of_findSome?_eq_some h
  cases p with
  | hole role => simp [Part.node?] at hc
  | node role m =>
    simp only [Part.node?, Option.ite_none_right_eq_some, Option.some.injEq, Part.role,
      beq_iff_eq] at hc
    obtain ⟨rfl, rfl⟩ := hc
    exact List.mem_filter.2 ⟨hp, by simp [Part.role]⟩

theorem mem_items_of_part (h : .node .item c ∈ n.parts) : c ∈ n.items :=
  List.mem_filterMap.2 ⟨_, h, by simp [Part.role, Part.node?]⟩

theorem part?_of_single (h : (n.parts.filter fun p => p.role == r).length ≤ 1)
    (hc : .node r c ∈ n.parts) : n.part? r = some c := by
  cases hpart : n.part? r with
  | none =>
    unfold part? at hpart
    have := List.findSome?_eq_none_iff.1 hpart _ hc
    simp [Part.role, Part.node?] at this
  | some d =>
    have hd := exists_of_part? hpart
    have hc' : .node r c ∈ Extract.partsAt n r := List.mem_filter.2 ⟨hc, by simp [Part.role]⟩
    unfold Extract.partsAt at hd hc'
    generalize (n.parts.filter fun p => p.role == r) = l at h hd hc'
    cases l with
    | nil => cases hd
    | cons p rest =>
      have hrest : rest = [] := List.eq_nil_of_length_eq_zero (by simpa using h)
      subst hrest
      rw [List.mem_singleton] at hd hc'
      rw [← hd] at hc'
      cases hc'
      rfl

theorem times_le_of_mem {p : Part} {parts : List Part} (h : p ∈ parts) :
    Part.times x [p] ≤ Part.times x parts := by
  obtain ⟨before, after, rfl⟩ := List.append_of_mem h
  rw [Part.times_append, Part.times_cons (l := after)]
  omega

theorem times_part?_le (h : n.part? r = some c) :
    Part.times x [.node r c] ≤ Part.times x (Extract.partsAt n r) :=
  times_le_of_mem (exists_of_part? h)

theorem times_partsAt_add {r t : Role} (h : r ≠ t) :
    Part.times x (Extract.partsAt n r) + Part.times x (Extract.partsAt n t) ≤
      Part.times x n.parts := by
  unfold Extract.partsAt
  rw [← Part.times_filter_or]
  . exact Part.times_filter_le
  . intro a ha
    simp only [beq_iff_eq] at ha
    simp [ha, h]

theorem times_partsAt_add_three {r t u : Role} (h : r ≠ t) (h₂ : r ≠ u) (h₃ : t ≠ u) :
    Part.times x (Extract.partsAt n r) + Part.times x (Extract.partsAt n t) +
      Part.times x (Extract.partsAt n u) ≤ Part.times x n.parts := by
  unfold Extract.partsAt
  rw [← Part.times_filter_or, ← Part.times_filter_or]
  . exact Part.times_filter_le
  . intro a ha
    simp only [Bool.or_eq_true, beq_iff_eq] at ha
    rcases ha with ha | ha
    . simp [ha, h₂]
    . simp [ha, h₃]
  . intro a ha
    simp only [beq_iff_eq] at ha
    simp [ha, h]

theorem nodes_nodesAt : Part.nodes ((n.nodesAt r).map (Part.node r)) =
    Part.nodes (Extract.partsAt n r) := by
  unfold nodesAt Extract.partsAt
  induction n.parts with
  | nil => rfl
  | cons p rest ih =>
    cases p with
    | node role | hole role =>
      by_cases hr : role = r
      . subst hr
        simpa [Part.role, Part.node?] using ih
      . simpa [Part.role, hr] using ih

theorem times_nodesAt : Part.times x ((n.nodesAt r).map (Part.node r)) =
    Part.times x (Extract.partsAt n r) := by
  rw [Part.times, nodes_nodesAt, Part.times]

mutual

theorem bound_subset : ∀ n : Node, n.bound ⊆ n.preorder
  | .mk id span label parts => by
    intro m hm
    rw [preorder_eq, List.mem_cons]
    cases label with
    | identifier name => exact .inl (List.mem_singleton.1 hm)
    | assignmentPattern => exact .inr (boundAt_subset _ parts hm)
    | rest => exact .inr (boundAt_subset _ parts hm)
    | arrayPattern => exact .inr (boundElements_subset parts hm)
    | objectPattern => exact .inr (boundProperties_subset parts hm)
    | _ => cases hm

theorem boundAt_subset (role : Role) : ∀ parts : List Part, boundAt role parts ⊆ Part.nodes parts
  | [] => fun _ hm => hm
  | .node r n :: rest => by
    intro m hm
    rw [boundAt] at hm
    rw [Part.nodes_node, List.mem_append]
    split at hm
    . exact .inl (bound_subset n hm)
    . exact .inr (boundAt_subset role rest hm)
  | .hole r :: rest => boundAt_subset role rest

theorem boundElements_subset : ∀ parts : List Part, boundElements parts ⊆ Part.nodes parts
  | [] => fun _ hm => hm
  | .node r n :: rest => by
    intro m hm
    rw [boundElements, List.mem_append] at hm
    rw [Part.nodes_node, List.mem_append]
    exact hm.imp (bound_subset n ·) (boundElements_subset rest ·)
  | .hole r :: rest => boundElements_subset rest

theorem boundProperties_subset : ∀ parts : List Part, boundProperties parts ⊆ Part.nodes parts
  | [] => fun _ hm => hm
  | .node r (.mk id span label inner) :: rest => by
    intro m hm
    rw [boundProperties, List.mem_append] at hm
    rw [Part.nodes_node, List.mem_append, preorder_eq]
    exact hm.imp (fun h => List.mem_cons_of_mem _ (boundAt_subset _ inner h))
      (boundProperties_subset rest ·)
  | .hole r :: rest => boundProperties_subset rest

end

end Node
end ScriptC
