import ScriptC.Proofs.Bindings.Resolved

/-!
Which declarations a function captures: those of the functions around it that it or a function
inside of it uses, with every function on the way handing them on.
-/

namespace ScriptC

open Lineage

theorem Extract.FormedFunction.parts_subset {f : Function} (h : FormedFunction f.node) :
    Part.nodes f.node.parts ⊆ Part.nodes f.innerParts := by
  intro m hm
  obtain ⟨c, ⟨r, hc⟩, hmc⟩ := Part.exists_holds_of_mem_nodes hm
  refine Part.mem_nodes_of_holds ⟨r, ?_⟩ hmc
  have hrole := h.isFormed.roles _ hc
  have hroles : f.node.kind.roles = [.name, .param, .body] := by
    have hkind := h.isFunction
    revert hkind
    cases f.node.kind <;> decide
  rw [hroles] at hrole
  unfold Function.innerParts
  rw [List.mem_append, List.mem_append]
  simp only [Part.role, List.mem_cons, List.not_mem_nil, or_false] at hrole
  rcases hrole with rfl | rfl | rfl
  . exact .inl (.inl (List.mem_filter.2 ⟨hc, rfl⟩))
  . exact .inl (.inr (List.mem_filter.2 ⟨hc, rfl⟩))
  . refine .inr (List.mem_singleton.2 ?_)
    unfold Function.body
    rw [h.only c hc]
    rfl

namespace Bindings

variable {e : Extraction} {b : Bindings} {k f g d : Nat}

theorem decl_of_get? {decl : Declaration} (h : b.decls.get? d = some decl) : b.decl d = decl := by
  unfold Bindings.decl
  rw [Table.getD_eq_get?, h]
  rfl

theorem Settled.reaches (he : e.IsSplit) (hb : Settled e e.functions.size b) (h : Uses e b f d) :
    b.Reaches f d := by
  have hmem : ∀ {g : Function} {n : Node}, e.functions[f]? = some g → n ∈ g.node.preorder →
      n.kind.isFunction = false → n ∈ Part.nodes g.innerParts := by
    intro g n hg hn hkind
    have hformed := he.formed f g hg
    rw [Node.preorder_eq, List.mem_cons] at hn
    rcases hn with rfl | hn
    . rw [hformed.isFunction] at hkind
      cases hkind
    . exact hformed.parts_subset hn
  have hlt : ∀ {g : Function}, e.functions[f]? = some g → f < e.functions.size := fun hg =>
    (Array.getElem?_eq_some_iff.1 hg).1
  cases h with
  | name hid hu hd =>
    obtain ⟨decl, hdecl, ⟨f', hid', hcase⟩ | hnew⟩ := hb.linked.uses _ _ _ hu hd
    . obtain rfl := he.eq_of_inTree hid hid'
      exact ⟨decl, hdecl, hcase⟩
    . have := he.lt_of_inTree hid
      omega
  | superThis hg hn hkind hd =>
    exact hb.super f _ (hlt hg) hg _ (hmem hg hn (by rw [hkind]; rfl)) hkind d hd
  | superTarget hg hm hcall hn hkind hd =>
    exact hb.superCall f _ (hlt hg) hg _ (hmem hg hm (by rw [hcall]; rfl)) hcall _ hn hkind d hd

theorem Linked.captures_path (he : e.IsSplit) (hb : Linked e k b)
    (hd : d ∈ (b.function f).captures.decls) :
    (b.decl d).isCaptured = true ∧ Inside e.lineage (b.decl d).owner f ∧
      ∀ g, Inside e.lineage (b.decl d).owner g → Within e.lineage g f →
        d ∈ (b.function g).captures.decls := by
  induction f using Nat.strongRecOn with
  | ind f ih =>
    obtain ⟨decl, p, hdecl, hcaptured, hparent, hcase⟩ := hb.captures f d hd
    have hown : (b.decl d).owner = p → Inside e.lineage (b.decl d).owner f ∧
        ∀ g, Inside e.lineage (b.decl d).owner g → Within e.lineage g f →
          d ∈ (b.function g).captures.decls := by
      rintro rfl
      refine ⟨⟨_, hparent, .self⟩, fun g hg hw => ?_⟩
      rcases hw.eq_or_inside with rfl | ⟨q, hq, hw⟩
      . exact hd
      . obtain rfl := hparent.unique hq
        have := he.isTree.lt_of_inside hg
        have := he.isTree.le_of_within hw
        omega
    have heq := decl_of_get? hdecl
    refine ⟨by rwa [heq], ?_⟩
    rcases hcase with howner | hmem
    . exact hown (by rwa [heq])
    . obtain ⟨-, hinside, hpath⟩ := ih p (he.isTree.before hparent) hmem
      refine ⟨⟨p, hparent, hinside.within⟩, fun g hg hw => ?_⟩
      rcases hw.eq_or_inside with rfl | ⟨q, hq, hw⟩
      . exact hd
      . obtain rfl := hparent.unique hq
        exact hpath g hg hw

theorem Linked.not_captures (he : e.IsSplit) (hb : Linked e k b)
    (hw : Within e.lineage f (b.decl d).owner) : d ∉ (b.function f).captures.decls := by
  intro hd
  have := he.isTree.lt_of_inside (hb.captures_path he hd).2.1
  have := he.isTree.le_of_within hw
  omega

theorem Linked.root_captures (he : e.IsSplit) (hb : Linked e k b) :
    (b.function 0).captures.decls = [] := by
  refine List.eq_nil_iff_forall_not_mem.2 fun d hd => ?_
  obtain ⟨-, p, -, -, hparent, -⟩ := hb.captures 0 d hd
  exact he.isTree.not_parent_zero hparent

end Bindings
end ScriptC
