import ScriptC.Node.Pattern
import ScriptC.Proofs.Node

/-!
The names that the target of an assignment is made of, as a relation, and the operations that store
in them.
-/

namespace ScriptC.Node

/-- `n.Binds x`: storing in the pattern `n` stores in the name `x`. -/
inductive Binds : Node → Node → Prop where
  | name {n : Node} (h : n.kind = .identifier) : Binds n n
  | default {n c x : Node} (h : n.kind = .assignmentPattern) (hc : n.part? .left = some c)
    (hx : Binds c x) : Binds n x
  | rest {n c x : Node} (h : n.kind = .rest) (hc : n.part? .argument = some c) (hx : Binds c x) :
    Binds n x
  | element {n c x : Node} (h : n.kind = .arrayPattern) (hc : Part.Holds n.parts c)
    (hx : Binds c x) : Binds n x
  | property {n p c x : Node} (h : n.kind = .objectPattern) (hp : Part.Holds n.parts p)
    (hkind : p.kind ≠ .rest) (hc : p.part? .value = some c) (hx : Binds c x) : Binds n x
  | others {n p x : Node} (h : n.kind = .objectPattern) (hp : Part.Holds n.parts p)
    (hkind : p.kind = .rest) (hx : Binds p x) : Binds n x

/-- What a target stores in: the names of a pattern, or those that the head of a loop declares. -/
inductive Assigns (t x : Node) : Prop where
  | pattern (hx : t.Binds x)
  | declaration {d p : Node} (h : t.kind = .variableDeclaration) (hd : d ∈ t.items)
    (hp : d.part? .name = some p) (hx : p.Binds x)

/-- Assignments, updates, declarations with a value and the heads of loops store in names. -/
inductive Stores (n x : Node) : Prop where
  | left {t : Node} (h : n.kind = .assignment ∨ n.kind = .forInStatement ∨ n.kind = .forOfStatement)
    (ht : n.part? .left = some t) (hx : t.Assigns x)
  | update {t : Node} (h : n.kind = .update) (ht : n.part? .argument = some t) (hx : t.Binds x)
  | declarator {t : Node} (h : n.kind = .declarator) (hinit : (n.part? .init).isSome = true)
    (ht : n.part? .name = some t) (hx : t.Binds x)

variable {n x t : Node} {r : Role} {parts : List Part}

theorem mem_boundAt : x ∈ boundAt r n.parts ↔ ∃ c, n.part? r = some c ∧ x ∈ c.bound := by
  unfold part?
  induction n.parts with
  | nil => simp [boundAt]
  | cons p rest ih =>
    cases p with
    | node role c =>
      by_cases hr : role = r <;> simp [boundAt, Part.role, Part.node?, hr, ih]
    | hole role =>
      by_cases hr : role = r <;> simp [boundAt, Part.role, Part.node?, hr, ih]

theorem mem_boundElements : x ∈ boundElements parts ↔ ∃ c, Part.Holds parts c ∧ x ∈ c.bound := by
  induction parts with
  | nil => simp [boundElements, Part.Holds]
  | cons p rest ih =>
    cases p with
    | node role c =>
      rw [boundElements, List.mem_append, ih]
      constructor
      . rintro (hx | ⟨c', ⟨r', hc'⟩, hx⟩)
        . exact ⟨c, ⟨role, List.mem_cons_self⟩, hx⟩
        . exact ⟨c', ⟨r', List.mem_cons_of_mem _ hc'⟩, hx⟩
      . rintro ⟨c', ⟨r', hc'⟩, hx⟩
        rcases List.mem_cons.1 hc' with heq | hc'
        . cases heq
          exact .inl hx
        . exact .inr ⟨c', ⟨r', hc'⟩, hx⟩
    | hole role =>
      rw [boundElements, ih]
      simp [Part.Holds]

theorem mem_boundProperties : x ∈ boundProperties parts ↔ ∃ p : Node, Part.Holds parts p ∧
    x ∈ boundAt (if p.kind == .rest then .argument else .value) p.parts := by
  induction parts with
  | nil => simp [boundProperties, Part.Holds]
  | cons q rest ih =>
    cases q with
    | node role p =>
      rcases p with ⟨id, span, label, inner⟩
      rw [boundProperties, List.mem_append, ih]
      constructor
      . rintro (hx | ⟨p, ⟨r', hp⟩, hx⟩)
        . exact ⟨_, ⟨role, List.mem_cons_self⟩, hx⟩
        . exact ⟨p, ⟨r', List.mem_cons_of_mem _ hp⟩, hx⟩
      . rintro ⟨p, ⟨r', hp⟩, hx⟩
        rcases List.mem_cons.1 hp with heq | hp
        . cases heq
          exact .inl hx
        . exact .inr ⟨p, ⟨r', hp⟩, hx⟩
    | hole role =>
      rw [boundProperties, ih]
      simp [Part.Holds]

theorem Binds.mem_bound (h : n.Binds x) : x ∈ n.bound := by
  induction h with
  | @name n hkind =>
    rcases n with ⟨id, span, label, parts⟩
    cases label <;> cases hkind
    exact List.mem_singleton_self _
  | @default n c x hkind hc _ ih =>
    have hx := mem_boundAt.2 ⟨c, hc, ih⟩
    rcases n with ⟨id, span, label, parts⟩
    cases label <;> cases hkind
    exact hx
  | @rest n c x hkind hc _ ih =>
    have hx := mem_boundAt.2 ⟨c, hc, ih⟩
    rcases n with ⟨id, span, label, parts⟩
    cases label <;> cases hkind
    exact hx
  | @element n c x hkind hc _ ih =>
    have hx := mem_boundElements.2 ⟨c, hc, ih⟩
    rcases n with ⟨id, span, label, parts⟩
    cases label <;> cases hkind
    exact hx
  | @property n p c x hkind hp hprop hc _ ih =>
    have hx := mem_boundProperties.2 ⟨p, hp, by
      rw [if_neg (by simpa using hprop)]
      exact mem_boundAt.2 ⟨c, hc, ih⟩⟩
    rcases n with ⟨id, span, label, parts⟩
    cases label <;> cases hkind
    exact hx
  | @others n p x hkind hp hrest _ ih =>
    have hx := mem_boundProperties.2 ⟨p, hp, by
      rw [if_pos (by simpa using hrest)]
      rcases p with ⟨id, span, label, inner⟩
      cases label <;> cases hrest
      exact ih⟩
    rcases n with ⟨id, span, label, parts⟩
    cases label <;> cases hkind
    exact hx

-- The parts of a pattern are lower than it.
theorem binds_of_mem_bound (h : x ∈ n.bound) : n.Binds x := by
  induction hn : n.height using Nat.strongRecOn generalizing n with
  | _ height ih =>
    subst hn
    have hpart : ∀ {r c}, n.part? r = some c → x ∈ c.bound → c.Binds x :=
      fun hc hx => ih _ (height_lt (holds_of_part? hc)) hx rfl
    rcases n with ⟨id, span, label, parts⟩
    cases label with
    | identifier name =>
      rw [List.mem_singleton.1 h]
      exact .name rfl
    | assignmentPattern =>
      obtain ⟨c, hc, hx⟩ := (mem_boundAt (n := .mk id span .assignmentPattern parts)).1 h
      exact .default rfl hc (hpart hc hx)
    | rest =>
      obtain ⟨c, hc, hx⟩ := (mem_boundAt (n := .mk id span .rest parts)).1 h
      exact .rest rfl hc (hpart hc hx)
    | arrayPattern =>
      obtain ⟨c, hc, hx⟩ := mem_boundElements.1 h
      exact .element rfl hc (ih _ (height_lt hc) hx rfl)
    | objectPattern =>
      obtain ⟨p, hp, hx⟩ := mem_boundProperties.1 h
      obtain ⟨c, hc, hx⟩ := mem_boundAt.1 hx
      have hbinds := ih _ (Nat.lt_trans (height_lt (holds_of_part? hc)) (height_lt hp)) hx rfl
      by_cases hrest : p.kind = .rest
      . rw [if_pos (by simpa using hrest)] at hc
        exact .others rfl hp hrest (.rest hrest hc hbinds)
      . rw [if_neg (by simpa using hrest)] at hc
        exact .property rfl hp hrest hc hbinds
    | _ => cases h

theorem mem_bound_iff : x ∈ n.bound ↔ n.Binds x := ⟨binds_of_mem_bound, Binds.mem_bound⟩

end ScriptC.Node
