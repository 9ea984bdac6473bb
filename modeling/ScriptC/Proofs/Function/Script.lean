import ScriptC.Proofs.Function.Split

/-!
Whether a tree is that of a script can be computed.
-/

namespace ScriptC

namespace Part

def Each (p : Role → Node → Prop) : Part → Prop
  | .node r c => p r c
  | .hole _ => True

instance {p : Role → Node → Prop} [∀ r c, Decidable (p r c)] : ∀ q, Decidable (Each p q)
  | .node r c => inferInstanceAs (Decidable (p r c))
  | .hole _ => inferInstanceAs (Decidable True)

theorem forall_each_iff {p : Role → Node → Prop} {parts : List Part} :
    (∀ q ∈ parts, Each p q) ↔ ∀ r c, .node r c ∈ parts → p r c := by
  constructor
  . exact fun h r c hc => h _ hc
  . intro h q hq
    cases q with
    | node r c => exact h r c hq
    | hole r => trivial

end Part

namespace Node

variable {n : Node}

theorem forall_at_iff {role : Role} {p : Node → Prop} {parts : List Part} :
    (∀ q ∈ parts, Part.Each (fun r c => r = role → p c) q) ↔ ∀ c, .node role c ∈ parts → p c := by
  rw [Part.forall_each_iff]
  constructor
  . exact fun h c hc => h role c hc rfl
  . rintro h r c hc rfl
    exact h c hc

theorem exists_part?_iff {r : Role} {p : Node → Bool} :
    (n.part? r).any p = true ↔ ∃ c, n.part? r = some c ∧ p c = true := by
  rw [Option.any_eq_true]

theorem isFormed_iff : n.IsFormed ↔
    (∀ p ∈ n.parts, p.role ∈ n.kind.roles) ∧
    (∀ q ∈ n.parts, Part.Each (fun r c => c.kind.isStatement = true → n.kind.holds r = true) q) ∧
    (n.kind = .catchClause →
      ∀ q ∈ n.parts, Part.Each (fun r c => r = .body → c.kind = .block) q) ∧
    (n.kind = .catchClause ∨ n.kind = .withStatement →
      (n.parts.filter fun p => p.role == .body).length ≤ 1) ∧
    (n.kind = .functionDeclaration ∨ n.kind = .classDeclaration → (n.part? .name).isSome = true) ∧
    (n.kind.isFunction = true ∨ n.kind.isClass = true →
      ∀ q ∈ n.parts, Part.Each (fun r c => r = .name → c.kind = .identifier) q) ∧
    (n.functionMarks.exprBody = true →
      ∀ q ∈ n.parts, Part.Each (fun r c => r = .body → c.kind.isStatement = false) q) ∧
    (n.kind.isClass = true → (n.part? .body).any (·.kind == .classBody) = true) ∧
    (n.kind = .classBody → ∀ q ∈ n.parts, Part.Each (fun r c => r = .item →
      c.kind = .methodDefinition ∨ c.kind = .propertyDefinition) q) ∧
    (n.kind = .methodDefinition → (n.part? .value).any (·.kind == .functionExpression) = true) := by
  simp only [forall_at_iff]
  simp only [Part.forall_each_iff, exists_part?_iff, beq_iff_eq]
  constructor
  . intro h
    exact ⟨h.roles, h.statement, h.caught, h.single, h.named, h.name, h.value, h.members, h.member,
      h.method⟩
  . rintro ⟨h₁, h₂, h₃, h₄, h₅, h₆, h₇, h₈, h₉, h₁₀⟩
    exact ⟨h₁, h₂, h₃, h₄, h₅, h₆, h₇, h₈, h₉, h₁₀⟩

set_option synthInstance.maxSize 512 in
instance : Decidable n.IsFormed := decidable_of_iff _ isFormed_iff.symm

theorem isScript_iff {nodes : Nat} : n.IsScript nodes ↔
    (∀ m ∈ n.preorder, m.IsFormed) ∧ n.id = 0 ∧ n.ids.Nodup ∧ ∀ x ∈ n.ids, x < nodes := by
  constructor
  . exact fun h => ⟨h.isFormed, h.root, h.nodup, h.bound⟩
  . rintro ⟨hformed, hroot, hnodup, hbound⟩
    exact ⟨hformed, hroot, hnodup, hbound⟩

instance {nodes : Nat} : Decidable (n.IsScript nodes) := decidable_of_iff _ isScript_iff.symm

end Node
end ScriptC
