import Mathlib.Data.List.Nodup
import ScriptC.Proofs.Analysis.Cache
import ScriptC.Proofs.Function.Script
import ScriptC.Proofs.Function.Tally

/-!
The member accesses that are met when a function is gone through. No node is met more often than it
stands in the tree, and in a tree that is built as the grammar has it every member is met.
-/

namespace ScriptC

theorem Node.count_ids {n : Node} {x : Nat} :
    n.ids.count x = [n.id].count x + Part.times x n.parts := by
  rw [ids, preorder_eq, List.map_cons, List.count_cons, List.count_singleton, Part.times]
  omega

def Kind.assigns : Kind → Role → Bool
  | .assignment, .left | .assignmentPattern, .left | .forInStatement, .left | .forOfStatement, .left
  | .update, .argument | .rest, .argument | .declarator, .name | .arrayPattern, .item
  | .objectPattern, .item | .property, .value => true
  | _, _ => false

def Node.IsBare (n : Node) : Prop :=
  n.kind = .variableDeclaration → ∀ d ∈ n.items, d.kind = .declarator ∧ d.part? .init = none

structure Node.IsRegular (n : Node) : Prop where
  roles : ∀ r c, .node r c ∈ n.parts → r ∈ n.kind.roles
  single : ∀ r c, .node r c ∈ n.parts → r ≠ .item → r ≠ .param → n.IsSingle r
  bare : ∀ r c, .node r c ∈ n.parts → n.kind.assigns r = true → c.IsBare
  property : n.kind = .objectPattern → ∀ c ∈ n.items, c.kind = .rest ∨ c.kind = .property
  name : n.computed = false → ∀ r c, .node r c ∈ n.parts →
    n.kind = .member ∧ r = .property ∨ n.kind = .property ∧ r = .key →
    c.kind ≠ .member ∧ c.parts = []

instance {n : Node} : Decidable n.IsBare := inferInstanceAs (Decidable (_ → _))

theorem Node.isRegular_iff {n : Node} : n.IsRegular ↔ (∀ q ∈ n.parts, q.Each fun r c =>
    r ∈ n.kind.roles ∧ (r ≠ .item → r ≠ .param → n.IsSingle r) ∧
      (n.kind.assigns r = true → c.IsBare) ∧ (n.computed = false →
        n.kind = .member ∧ r = .property ∨ n.kind = .property ∧ r = .key →
          c.kind ≠ .member ∧ c.parts.isEmpty = true)) ∧
    (n.kind = .objectPattern → ∀ c ∈ n.items, c.kind = .rest ∨ c.kind = .property) := by
  simp only [Part.forall_each_iff, List.isEmpty_iff]
  constructor
  . exact fun h => ⟨fun r c hc => ⟨h.roles r c hc, h.single r c hc, h.bare r c hc,
      fun hn => h.name hn r c hc⟩, h.property⟩
  . rintro ⟨h, hproperty⟩
    exact ⟨fun r c hc => (h r c hc).1, fun r c hc => (h r c hc).2.1, fun r c hc => (h r c hc).2.2.1,
      hproperty, fun hn r c hc => (h r c hc).2.2.2 hn⟩

instance {n : Node} {r : Role} : Decidable (n.IsSingle r) := inferInstanceAs (Decidable (_ ≤ _))

set_option synthInstance.maxSize 512 in
instance {n : Node} : Decidable n.IsRegular := decidable_of_iff _ Node.isRegular_iff.symm

def Function.ownNodes (f : Function) : List Node := (f.params ++ [f.body]).flatMap Node.preorder

structure Function.IsRegular (f : Function) : Prop where
  nodes : ∀ n ∈ f.ownNodes, n.IsRegular
  params : ∀ p ∈ f.params, p.IsBare

instance {f : Function} : Decidable f.IsRegular :=
  decidable_of_iff ((∀ n ∈ f.ownNodes, n.IsRegular) ∧ ∀ p ∈ f.params, p.IsBare)
    ⟨fun h => ⟨h.1, h.2⟩, fun h => ⟨h.nodes, h.params⟩⟩

namespace Analyze.Cache.Event

variable {b : Bindings} {fn x : Nat} {visit : Node → Mode → List Event} {n : Node}
  {es es' : List Event}

def node? : Event → Option Node
  | .store _ | .setThis _ => none
  | .access n => some n

def accessed (es : List Event) : List Node := es.filterMap node?

@[simp]
theorem accessed_append : accessed (es ++ es') = accessed es ++ accessed es' :=
  List.filterMap_append

@[simp]
theorem accessed_ofTarget {target : Option Node} : accessed (ofTarget target) = [] := by
  cases target <;> rfl

def times (x : Nat) (es : List Event) : Nat := ((accessed es).map (·.id)).count x

@[simp]
theorem times_nil : times x [] = 0 := rfl

@[simp]
theorem times_append : times x (es ++ es') = times x es + times x es' := by
  simp [times]

@[simp]
theorem times_ofTarget {target : Option Node} : times x (ofTarget target) = 0 := by
  simp [times]

theorem times_flatMap_le {list : List Node} {f : Node → List Event} {r : Role}
    (h : ∀ c ∈ list, times x (f c) ≤ c.ids.count x) :
    times x (list.flatMap f) ≤ Part.times x (list.map (Part.node r)) := by
  induction list with
  | nil => exact Nat.le_refl _
  | cons c rest ih =>
    rw [List.forall_mem_cons] at h
    rw [List.flatMap_cons, times_append, List.map_cons, Part.times_node]
    exact Nat.add_le_add h.1 (ih h.2)

theorem times_nodesAt_le {r : Role} {f : Node → List Event}
    (h : ∀ c ∈ n.nodesAt r, times x (f c) ≤ c.ids.count x) :
    times x ((n.nodesAt r).flatMap f) ≤ Part.times x (Extract.partsAt n r) := by
  rw [← Node.times_nodesAt]
  exact times_flatMap_le h

theorem times_children_le {parts : List Part} {f : Node → List Event}
    (h : ∀ c, times x (f c) ≤ c.ids.count x) {id : Nat} {span : Span} {label : Label} :
    times x ((Node.mk id span label parts).children.flatMap fun c => f c.2) ≤
      Part.times x parts := by
  unfold Node.children Node.parts
  induction parts with
  | nil => exact Nat.le_refl _
  | cons p rest ih =>
    cases p with
    | hole role => exact ih
    | node role c =>
      rw [List.filterMap_cons, List.flatMap_cons, times_append, Part.times_node]
      exact Nat.add_le_add (h c) ih

section Step

variable (h : ∀ n mode, times x (visit n mode) ≤ n.ids.count x)

include h

theorem times_part_le (mode : Mode) (r : Role) :
    times x ((n.part? r).elim [] fun c => visit c mode) ≤ Part.times x (Extract.partsAt n r) := by
  cases hc : n.part? r with
  | none => exact Nat.zero_le _
  | some c =>
    have hle := Node.times_part?_le (x := x) hc
    rw [Part.times_node, Part.times_nil] at hle
    exact Nat.le_trans (h c mode) hle

theorem times_ofTargetStep_le {value : List Event} (hvalue : times x value ≤ n.ids.count x) :
    times x (ofTargetStep visit n value) ≤ n.ids.count x := by
  have hpart : ∀ (n : Node) mode r, times x ((n.part? r).elim [] fun c => visit c mode) ≤
      Part.times x (Extract.partsAt n r) := fun n => times_part_le h
  have hsub : ∀ (n : Node) r, Part.times x (Extract.partsAt n r) ≤ n.ids.count x := by
    intro n r
    rw [Node.count_ids]
    exact Nat.le_add_left_of_le Part.times_filter_le
  unfold ofTargetStep
  cases n.label with
  | identifier name => exact Nat.zero_le _
  | assignmentPattern =>
    have hadd := Node.times_partsAt_add (n := n) (x := x) (by decide : Role.left ≠ .right)
    have hleft := hpart n .target .left
    have hright := hpart n .value .right
    simp only [times_append]
    rw [Node.count_ids]
    omega
  | rest => exact Nat.le_trans (hpart n _ _) (hsub n _)
  | arrayPattern => exact Nat.le_trans (times_nodesAt_le fun c _ => h c .target) (hsub n _)
  | objectPattern =>
    refine Nat.le_trans (times_nodesAt_le fun p _ => ?_) (hsub n .item)
    dsimp only
    split
    . exact h p .target
    . have hadd := Node.times_partsAt_add (n := p) (x := x) (by decide : Role.key ≠ .value)
      have hkey := hpart p .value .key
      have hvalue := hpart p .target .value
      rw [times_append, Node.count_ids]
      split
      . omega
      . rw [times_nil]
        omega
  | variableDeclaration binds =>
    exact Nat.le_trans (times_nodesAt_le fun d _ => Nat.le_trans (hpart d _ _)
      (hsub d _)) (hsub n .item)
  | _ => exact hvalue

theorem times_ofValueStep_le : times x (ofValueStep b fn visit n) ≤ n.ids.count x := by
  have hpart : ∀ mode r, times x ((n.part? r).elim [] fun c => visit c mode) ≤
      Part.times x (Extract.partsAt n r) := times_part_le h
  have hadd : ∀ {r t : Role}, r ≠ t → _ := Node.times_partsAt_add (n := n) (x := x)
  rw [Node.count_ids]
  unfold ofValueStep
  cases hl : n.label with
  | assignment op =>
    have hparts := hadd (by decide : Role.left ≠ .right)
    have hleft := hpart .target .left
    have hright := hpart .value .right
    simp only [times_append, times_ofTarget]
    omega
  | update op before =>
    have hparts : Part.times x (Extract.partsAt n .argument) ≤ _ := Part.times_filter_le
    have hargument := hpart .target .argument
    simp only [times_append, times_ofTarget]
    omega
  | declarator =>
    have hparts := hadd (by decide : Role.name ≠ .init)
    have hname := hpart .target .name
    have hinit := hpart .value .init
    simp only [times_append]
    split <;> simp only [times_ofTarget, times_nil] <;> omega
  | forInStatement | forOfStatement =>
    have hparts := Node.times_partsAt_add_three (n := n) (x := x) (by decide : Role.left ≠ .right)
      (by decide : Role.left ≠ .body) (by decide)
    have hleft := hpart .target .left
    have hright := hpart .value .right
    have hbody := hpart .value .body
    simp only [times_append, times_ofTarget]
    omega
  | member computed optional =>
    have hparts := hadd (by decide : Role.object ≠ .property)
    have hobject := hpart .value .object
    have hproperty := hpart .value .property
    have hself : times x [.access n] = [n.id].count x := rfl
    simp only [times_append, hself]
    split
    . omega
    . rw [times_nil]
      omega
  | call optional =>
    have hparts := hadd (by decide : Role.callee ≠ .item)
    have hcallee := hpart .value .callee
    have hitems : times x (n.items.flatMap (visit · .value)) ≤ _ :=
      times_nodesAt_le fun c _ => h c .value
    have hthis : ∀ d : Option Nat, times x (d.map Event.setThis).toList = 0 := by
      intro d
      cases d <;> rfl
    simp only [times_append]
    split <;> simp only [hthis, times_nil] <;> omega
  | _ =>
    refine Nat.le_add_left_of_le ?_
    cases n
    exact times_children_le fun c => h c .value

end Step

theorem times_ofNode_le (n : Node) (mode : Mode) :
    times x (ofNode b fn n mode) ≤ n.ids.count x := by
  unfold ofNode Node.fix
  generalize n.height = depth
  induction depth generalizing n mode with
  | zero => exact Nat.zero_le _
  | succ depth ih =>
    cases mode with
    | value => exact times_ofValueStep_le ih
    | target => exact times_ofTargetStep_le ih (times_ofValueStep_le ih)

section Complete

variable {m : Node} {depth : Nat}

def Meets (visit : Node → Mode → List Event) (m c : Node) : Prop :=
  ∀ mode, (mode = .target → c.IsBare) → m ∈ accessed (visit c mode)

theorem mem_accessed_flatMap {γ : Type} {list : List γ} {c : γ} {f : γ → List Event} (hc : c ∈ list)
    (h : m ∈ accessed (f c)) : m ∈ accessed (list.flatMap f) := by
  obtain ⟨e, he, hm⟩ := List.mem_filterMap.1 h
  exact List.mem_filterMap.2 ⟨e, List.mem_flatMap.2 ⟨c, hc, he⟩, hm⟩

section

variable {c : Node} {r : Role} (hn : n.IsRegular) (hc : .node r c ∈ n.parts) (h : Meets visit m c)

include hn hc h

theorem mem_accessed_value (hr : r ≠ .item ∧ r ≠ .param) :
    m ∈ accessed ((n.part? r).elim [] fun c => visit c .value) := by
  rw [Node.part?_of_single (hn.single r c hc hr.1 hr.2) hc]
  exact h .value (by simp)

theorem mem_accessed_target (hr : r ≠ .item ∧ r ≠ .param) (hassigns : n.kind.assigns r = true) :
    m ∈ accessed ((n.part? r).elim [] fun c => visit c .target) := by
  rw [Node.part?_of_single (hn.single r c hc hr.1 hr.2) hc]
  exact h .target fun _ => hn.bare r c hc hassigns

theorem mem_accessed_ofValueStep (hm : m ∈ c.preorder) (hkind : m.kind = .member) :
    m ∈ accessed (ofValueStep b fn visit n) := by
  have hroles := hn.roles r c hc
  have hvalue := mem_accessed_value hn hc h
  have htarget := mem_accessed_target hn hc h
  have hname := hn.name
  rcases n with ⟨id, span, label, parts⟩
  cases label with
  | assignment | declarator =>
    simp only [ofValueStep, Node.label, accessed_append, List.mem_append]
    rcases List.mem_pair.1 hroles with rfl | rfl
    . exact .inl (htarget (by decide) rfl)
    . exact .inr (.inl (hvalue (by decide)))
  | update op before =>
    simp only [ofValueStep, Node.label, accessed_append, List.mem_append]
    obtain rfl := List.mem_singleton.1 hroles
    exact .inl (htarget (by decide) rfl)
  | forInStatement | forOfStatement =>
    simp only [ofValueStep, Node.label, accessed_append, List.mem_append]
    rcases List.mem_cons.1 hroles with rfl | hroles
    . exact .inr (.inl (htarget (by decide) rfl))
    . rcases List.mem_pair.1 hroles with rfl | rfl
      . exact .inl (hvalue (by decide))
      . exact .inr (.inr (.inr (hvalue (by decide))))
  | member computed optional =>
    simp only [ofValueStep, Node.label, accessed_append, List.mem_append]
    rcases List.mem_pair.1 hroles with rfl | rfl
    . exact .inl (hvalue (by decide))
    . cases computed with
      | true => exact .inr (.inl (hvalue (by decide)))
      | false =>
        obtain ⟨hmember, hparts⟩ := hname rfl .property c hc (.inl ⟨rfl, rfl⟩)
        rw [Node.preorder_eq, hparts, Part.nodes_nil, List.mem_singleton] at hm
        exact absurd (hm ▸ hkind) hmember
  | call optional =>
    simp only [ofValueStep, Node.label, accessed_append, List.mem_append]
    rcases List.mem_pair.1 hroles with rfl | rfl
    . exact .inl (hvalue (by decide))
    . exact .inr (.inl (mem_accessed_flatMap (Node.mem_items_of_part hc) (h .value (by simp))))
  | _ =>
    have hchild : (r, c) ∈ (Node.mk id span _ parts).children :=
      List.mem_filterMap.2 ⟨.node r c, hc, rfl⟩
    exact mem_accessed_flatMap hchild (h .value (by simp))

end

theorem mem_accessed_ofTargetStep {c : Node} {r : Role} {value : List Event} (hn : n.IsRegular)
    (hbare : n.IsBare) (hc : .node r c ∈ n.parts) (hcn : c.IsRegular)
    (h : ∀ d, d = c ∨ Part.Holds c.parts d → m ∈ d.preorder → Meets visit m d)
    (hm : m ∈ c.preorder) (hkind : m.kind = .member) (hvalue : m ∈ accessed value) :
    m ∈ accessed (ofTargetStep visit n value) := by
  have hroles := hn.roles r c hc
  have hc' := h c (.inl rfl) hm
  have hproperty := hn.property
  have hgoValue := mem_accessed_value hn hc hc'
  have hgoTarget := mem_accessed_target hn hc hc'
  have hbelow : c.kind ≠ .member → ∃ s d, .node s d ∈ c.parts ∧ m ∈ d.preorder := by
    intro hmember
    rw [Node.preorder_eq, List.mem_cons] at hm
    rcases hm with rfl | hm
    . exact absurd hkind hmember
    . obtain ⟨d, ⟨s, hd⟩, hmd⟩ := Part.exists_holds_of_mem_nodes hm
      exact ⟨s, d, hd, hmd⟩
  rcases n with ⟨id, span, label, parts⟩
  cases label with
  | identifier name => cases hroles
  | assignmentPattern =>
    simp only [ofTargetStep, Node.label, accessed_append, List.mem_append]
    rcases List.mem_pair.1 hroles with rfl | rfl
    . exact .inl (hgoTarget (by decide) rfl)
    . exact .inr (hgoValue (by decide))
  | rest =>
    obtain rfl := List.mem_singleton.1 hroles
    exact hgoTarget (by decide) rfl
  | arrayPattern =>
    obtain rfl := List.mem_singleton.1 hroles
    exact mem_accessed_flatMap (Node.mem_items_of_part hc)
      (hc' .target fun _ => hn.bare _ c hc rfl)
  | objectPattern =>
    obtain rfl := List.mem_singleton.1 hroles
    have hitem := Node.mem_items_of_part hc
    apply mem_accessed_flatMap hitem
    rcases hproperty rfl c hitem with hrest | hprop
    . rw [if_pos (by rw [hrest]; rfl)]
      exact hc' .target fun _ => hn.bare _ c hc rfl
    . rw [if_neg (by rw [hprop]; decide), accessed_append, List.mem_append]
      obtain ⟨s, d, hd, hmd⟩ := hbelow (by rw [hprop]; decide)
      have hmeets := h d (.inr ⟨s, hd⟩) hmd
      have hs := hcn.roles s d hd
      rw [hprop] at hs
      rcases List.mem_pair.1 hs with rfl | rfl
      . left
        split
        . exact mem_accessed_value hcn hd hmeets (by decide)
        . next hcomputed =>
          obtain ⟨hmember, hparts⟩ := hcn.name (Bool.eq_false_iff.2 hcomputed) .key d hd
            (.inr ⟨hprop, rfl⟩)
          rw [Node.preorder_eq, hparts, Part.nodes_nil, List.mem_singleton] at hmd
          exact absurd (hmd ▸ hkind) hmember
      . exact .inr (mem_accessed_target hcn hd hmeets (by decide) (by rw [hprop]; rfl))
  | variableDeclaration binds =>
    obtain rfl := List.mem_singleton.1 hroles
    have hitem := Node.mem_items_of_part hc
    obtain ⟨hdeclarator, hinit⟩ := hbare rfl c hitem
    apply mem_accessed_flatMap hitem
    obtain ⟨s, d, hd, hmd⟩ := hbelow (by rw [hdeclarator]; decide)
    have hs := hcn.roles s d hd
    rw [hdeclarator] at hs
    rcases List.mem_pair.1 hs with rfl | rfl
    . exact mem_accessed_target hcn hd (h d (.inr ⟨_, hd⟩) hmd) (by decide)
        (by rw [hdeclarator]; rfl)
    . rw [Node.part?_of_single (hcn.single _ d hd (by decide) (by decide)) hd] at hinit
      cases hinit
  | _ => exact hvalue

theorem mem_accessed_self (hkind : m.kind = .member) : m ∈ accessed (ofValueStep b fn visit m) := by
  rcases m with ⟨id, span, label, parts⟩
  cases label with
  | member computed optional =>
    simp only [ofValueStep, Node.label, accessed_append, List.mem_append]
    exact .inr (.inr (List.mem_singleton_self _))
  | _ => cases hkind

theorem mem_accessed_unroll {n : Node} (hdepth : n.height ≤ depth)
    (hn : ∀ c ∈ n.preorder, c.IsRegular) {mode : Mode} (hbare : mode = .target → n.IsBare)
    (hm : m ∈ n.preorder) (hkind : m.kind = .member) :
    m ∈ accessed (Node.unroll (ofStep b fn) (fun _ _ => []) depth n mode) := by
  induction depth generalizing n mode with
  | zero =>
    rcases n with ⟨id, span, label, parts⟩
    exact absurd hdepth (Nat.not_succ_le_zero _)
  | succ depth ih =>
    rw [Node.preorder_eq, List.mem_cons] at hm
    rcases hm with rfl | hm
    . have hself : m ∈ accessed (ofValueStep b fn
          (Node.unroll (ofStep b fn) (fun _ _ => []) depth) m) := mem_accessed_self hkind
      cases mode with
      | value => exact hself
      | target =>
        rcases m with ⟨id, span, label, parts⟩
        cases label with
        | member computed optional => exact hself
        | _ => cases hkind
    . obtain ⟨c, ⟨r, hc⟩, hmc⟩ := Part.exists_holds_of_mem_nodes hm
      have hheight := Node.height_lt ⟨r, hc⟩
      have hregular : ∀ x ∈ c.preorder, x.IsRegular :=
        fun x hx => hn x (Node.preorder_subset ⟨r, hc⟩ hx)
      have hself := hn n Node.mem_preorder_self
      have hvalue : m ∈ accessed (ofValueStep b fn
          (Node.unroll (ofStep b fn) (fun _ _ => []) depth) n) :=
        mem_accessed_ofValueStep hself hc (fun mode hbare => ih (by omega) hregular hbare hmc) hmc
          hkind
      cases mode with
      | value => exact hvalue
      | target =>
        refine mem_accessed_ofTargetStep hself (hbare rfl) hc (hregular c Node.mem_preorder_self) ?_
          hmc hkind hvalue
        rintro d (rfl | hd) hmd mode hbare
        . exact ih (by omega) hregular hbare hmd
        . have hlt := Node.height_lt hd
          exact ih (by omega) (fun x hx => hregular x (Node.preorder_subset hd hx)) hbare hmd

theorem mem_accessed_ofNode {n : Node} (hn : ∀ c ∈ n.preorder, c.IsRegular) {mode : Mode}
    (hbare : mode = .target → n.IsBare) (hm : m ∈ n.preorder) (hkind : m.kind = .member) :
    m ∈ accessed (ofNode b fn n mode) :=
  mem_accessed_unroll (Nat.le_refl _) hn hbare hm hkind

end Complete

theorem times_ofFunction_le (f : Function) :
    times x (ofFunction b fn f) ≤ Part.times x f.node.parts := by
  have hadd := Node.times_partsAt_add (n := f.node) (x := x) (by decide : Role.param ≠ .body)
  have hparams : times x (f.params.flatMap (ofNode b fn · .target)) ≤ _ :=
    times_nodesAt_le fun c _ => times_ofNode_le c .target
  have hbody : times x (ofNode b fn f.body .value) ≤ Part.times x
    (Extract.partsAt f.node .body) := by
    unfold Function.body
    cases hpart : f.node.part? .body with
    | none => exact Nat.zero_le _
    | some c =>
      have hle := Node.times_part?_le (x := x) hpart
      rw [Part.times_node, Part.times_nil] at hle
      exact Nat.le_trans (times_ofNode_le c .value) hle
  unfold ofFunction
  rw [times_append]
  omega

theorem accessed_ofFunction_subset {f : Function} {m : Node}
    (hm : m ∈ accessed (ofFunction b fn f)) :
    m ∈ f.ownNodes ∧ m.kind = .member := by
  obtain ⟨e, he, hnode⟩ := List.mem_filterMap.1 hm
  obtain ⟨c, hc, hmember⟩ := isMember_ofFunction f e he
  cases e with
  | store target => cases hnode
  | setThis d => cases hnode
  | access n =>
    cases hnode
    exact ⟨List.mem_flatMap.2 ⟨c, hc, hmember.1⟩, hmember.2⟩

theorem mem_accessed_ofFunction {f : Function} (hf : f.IsRegular) {m : Node} (hm : m ∈ f.ownNodes)
    (hkind : m.kind = .member) : m ∈ accessed (ofFunction b fn f) := by
  obtain ⟨c, hc, hm⟩ := List.mem_flatMap.1 hm
  have hnodes : ∀ x ∈ c.preorder, x.IsRegular :=
    fun x hx => hf.nodes x (List.mem_flatMap.2 ⟨c, hc, hx⟩)
  unfold ofFunction
  rw [accessed_append, List.mem_append]
  rcases List.mem_append.1 hc with hc | hc
  . left
    exact mem_accessed_flatMap hc (mem_accessed_ofNode hnodes (fun _ => hf.params c hc) hm hkind)
  . right
    rw [← List.mem_singleton.1 hc]
    exact mem_accessed_ofNode hnodes nofun hm hkind

theorem nodup_ownNodes {f : Function} (honce : ∀ x, Part.times x f.node.parts ≤ 1)
    (hzero : Part.times 0 f.node.parts = 0) : (f.ownNodes.map (·.id)).Nodup := by
  refine List.nodup_iff_count_le_one.2 fun x => ?_
  have hadd := Node.times_partsAt_add (n := f.node) (x := x) (by decide : Role.param ≠ .body)
  have hparams : ((f.params.flatMap Node.preorder).map (·.id)).count x =
      Part.times x (f.params.map (Part.node .param)) := by
    rw [Part.times, Part.nodes, List.flatMap_map]
    rfl
  have hone := honce x
  unfold Function.ownNodes
  rw [List.flatMap_append, List.flatMap_singleton, List.map_append, List.count_append, hparams,
    Function.params, Node.times_nodesAt, Function.body]
  cases hpart : f.node.part? .body with
  | none =>
    -- The node that stands for an absent body goes by the number zero.
    have hids : (((none : Option Node).getD default).preorder.map (·.id)).count x =
      [0].count x := rfl
    rw [hids, List.count_singleton]
    split
    . next h =>
      rw [← beq_iff_eq.1 h] at hadd ⊢
      omega
    . omega
  | some c =>
    have hle := Node.times_part?_le (x := x) hpart
    rw [Part.times_node, Part.times_nil] at hle
    rw [Option.getD_some]
    omega

theorem perm_accessed_ofFunction {f : Function} (hf : f.IsRegular)
    (honce : ∀ x, Part.times x f.node.parts ≤ 1) (hzero : Part.times 0 f.node.parts = 0) :
    (accessed (ofFunction b fn f)).Perm (f.ownNodes.filter (·.kind == .member)) := by
  refine (List.perm_ext_iff_of_nodup ?_ ?_).2 fun m => ?_
  . refine List.Nodup.of_map (·.id) (List.nodup_iff_count_le_one.2 fun x => ?_)
    exact Nat.le_trans (times_ofFunction_le f) (honce x)
  . exact (List.Nodup.of_map _ (nodup_ownNodes honce hzero)).filter _
  . rw [List.mem_filter, beq_iff_eq]
    exact ⟨accessed_ofFunction_subset, fun h => mem_accessed_ofFunction hf h.1 h.2⟩

end Analyze.Cache.Event
end ScriptC
