import ScriptC.Proofs.Analysis.Passes
import ScriptC.Proofs.Bindings.Referred

/-!
What the analyses leave of the bindings. Every name means what it meant, and the trees differ only
where names that nothing binds have become members of the global object.
-/

namespace ScriptC

open Pass

def Node.Comes (nodes : List Node) (low : Nat) (m' : Node) : Prop :=
  (∃ m ∈ nodes, m'.shape = m.shape) ∨
    m'.kind ∈ [.member, .globalObject, .identifier] ∧ (low ≤ m'.id ∨ ∃ m ∈ nodes, m'.id = m.id)

namespace Node

variable {nodes nodes' : List Node} {low low' : Nat} {m m' : Node}

theorem id_of_shape (h : m'.shape = m.shape) : m'.id = m.id := congrArg (·.1) h

theorem kind_of_shape (h : m'.shape = m.shape) : m'.kind = m.kind :=
  congrArg (·.2.1.kind) h

theorem Comes.self (h : m ∈ nodes) : m.Comes nodes low := .inl ⟨m, h, rfl⟩

theorem Comes.mono (h : m.Comes nodes low) (hsub : nodes ⊆ nodes') (hlow : low' ≤ low) :
    m.Comes nodes' low' := by
  rcases h with ⟨x, hx, hshape⟩ | ⟨hkind, hid⟩
  . exact .inl ⟨x, hsub hx, hshape⟩
  . refine .inr ⟨hkind, hid.imp (Nat.le_trans hlow) ?_⟩
    rintro ⟨x, hx, hid⟩
    exact ⟨x, hsub hx, hid⟩

theorem Comes.trans (h : m.Comes nodes' low') (hlow : low ≤ low')
    (hnodes : ∀ x ∈ nodes', x.Comes nodes low) : m.Comes nodes low := by
  rcases h with ⟨x, hx, hshape⟩ | ⟨hkind, hid⟩
  . rcases hnodes x hx with ⟨y, hy, hshape'⟩ | ⟨hkind, hid⟩
    . exact .inl ⟨y, hy, hshape.trans hshape'⟩
    . rw [← kind_of_shape hshape] at hkind
      rw [← id_of_shape hshape] at hid
      exact .inr ⟨hkind, hid⟩
  . refine .inr ⟨hkind, ?_⟩
    rcases hid with hid | ⟨x, hx, hid⟩
    . exact .inl (Nat.le_trans hlow hid)
    . rcases hnodes x hx with ⟨y, hy, hshape⟩ | ⟨-, hid'⟩
      . exact .inr ⟨y, hy, hid.trans (id_of_shape hshape)⟩
      . rwa [hid]

end Node

def Declaration.settled (d : Declaration) : Declaration := { d with isVolatile := false }

theorem Bindings.function_modify_cases (b : Bindings) (fn i : Nat) (change : Function → Function) :
    ({ b with functions := b.functions.modify fn change } : Bindings).function i = b.function i ∨
      fn = i ∧ ({ b with functions := b.functions.modify fn change } : Bindings).function i =
        change (b.function i) := by
  unfold function
  rw [Array.getD_eq_getD_getElem?, Array.getD_eq_getD_getElem?, Array.getElem?_modify]
  split
  . next heq =>
    cases b.functions[i]? with
    | none => exact .inl rfl
    | some f => exact .inr ⟨heq, rfl⟩
  . exact .inl rfl

structure Bindings.Enriches (b b' : Bindings) : Prop where
  numbers : b.counters.node ≤ b'.counters.node
  names : b'.counters.name = b.counters.name
  scopes : b'.scopes = b.scopes
  scopeOf : b'.scopeOf = b.scopeOf
  uses : b'.uses = b.uses
  aliases : b'.aliases = b.aliases
  sites : b'.sites = b.sites
  decls : ∀ d, (b'.decls.get? d).map (·.settled) = (b.decls.get? d).map (·.settled)
  functions : b'.functions.map (·.given) = b.functions.map (·.given)
  trees : ∀ i, ∀ m ∈ Part.nodes (b'.function i).node.parts,
    m.Comes (Part.nodes (b.function i).node.parts) b.counters.node

namespace Bindings.Enriches

variable {b b' b'' : Bindings} {d i : Nat}

theorem refl (b : Bindings) : b.Enriches b :=
  ⟨Nat.le_refl _, rfl, rfl, rfl, rfl, rfl, rfl, fun _ => rfl, rfl, fun _ _ hm => .self hm⟩

theorem trans (h : b.Enriches b') (h' : b'.Enriches b'') : b.Enriches b'' where
  numbers := Nat.le_trans h.numbers h'.numbers
  names := h'.names.trans h.names
  scopes := h'.scopes.trans h.scopes
  scopeOf := h'.scopeOf.trans h.scopeOf
  uses := h'.uses.trans h.uses
  aliases := h'.aliases.trans h.aliases
  sites := h'.sites.trans h.sites
  decls d := (h'.decls d).trans (h.decls d)
  functions := h'.functions.trans h.functions
  trees i m hm := (h'.trees i m hm).trans h.numbers (h.trees i)

theorem of_node_eq {node : Nat} {functions : Array Function} (hnumbers : b.counters.node ≤ node)
    (hnode : functions.map (·.node) = b.functions.map (·.node))
    (hgiven : functions.map (·.given) = b.functions.map (·.given)) :
    b.Enriches { b with counters := { b.counters with node }, functions } := by
  refine ⟨hnumbers, rfl, rfl, rfl, rfl, rfl, rfl, fun _ => rfl, hgiven, ?_⟩
  intro i m hm
  have htree : (function { b with counters := { b.counters with node }, functions } i).node =
      (b.function i).node := map_function hnode i
  rw [htree] at hm
  exact .self hm

theorem setParts (h : b.Enriches b') {fn : Nat} {parts : List Part}
    (hparts : ∀ m ∈ Part.nodes parts,
      m.Comes (Part.nodes (b.function fn).node.parts) b.counters.node) :
    b.Enriches { b' with
      functions := b'.functions.modify fn fun f => { f with node := f.node.withParts parts } } := by
  refine { h with functions := ?_, trees := ?_ }
  . refine Eq.trans ?_ h.functions
    dsimp only
    rw [map_modify_eq]
    intro f
    rfl
  . intro i m hm
    rcases function_modify_cases b' fn i fun f => { f with node := f.node.withParts parts } with
      hsame | ⟨rfl, hnew⟩
    . rw [hsame] at hm
      exact h.trees i m hm
    . rw [hnew, Node.parts_withParts] at hm
      exact hparts m hm

theorem settled_eq (h : b.Enriches b') : (b'.decl d).settled = (b.decl d).settled := by
  have hd := h.decls d
  unfold decl
  rw [Table.getD_eq_get?, Table.getD_eq_get?]
  cases hb : b.decls.get? d <;> cases hb' : b'.decls.get? d <;> simp_all

theorem owner_eq (h : b.Enriches b') : (b'.decl d).owner = (b.decl d).owner :=
  congrArg (·.owner) (h.settled_eq (d := d))

theorem isCaptured_eq (h : b.Enriches b') : (b'.decl d).isCaptured = (b.decl d).isCaptured :=
  congrArg (·.isCaptured) (h.settled_eq (d := d))

theorem given_eq (h : b.Enriches b') : (b'.function i).given = (b.function i).given :=
  map_function h.functions i

theorem captures_eq (h : b.Enriches b') : (b'.function i).captures = (b.function i).captures :=
  congrArg (·.captures) (h.given_eq (i := i))

theorem size_eq (h : b.Enriches b') : b'.functions.size = b.functions.size := by
  have hsize := congrArg Array.size h.functions
  simpa using hsize

theorem lineage_eq (h : b.Enriches b') : b'.lineage = b.lineage := by
  have hmap := congrArg (Array.map (·.lineage)) h.functions
  simp only [Array.map_map] at hmap
  exact hmap

theorem thisOwner_eq (h : b.Enriches b') : b'.thisOwner i = b.thisOwner i := by
  unfold thisOwner
  rw [h.lineage_eq]

theorem resolved?_eq (h : b.Enriches b') (n : Node) : b'.resolved? n = b.resolved? n := by
  unfold resolved? use?
  rw [h.uses]

end Bindings.Enriches

def Analysis.Enriches (a a' : Analysis) : Prop := a.bindings.Enriches a'.bindings

namespace Analyze

open Bindings (map_function)

theorem isSteady_enriches : IsSteady Analysis.Enriches where
  refl a := .refl a.bindings
  trans := .trans

theorem permitsSlots_enriches (fn : Nat) : PermitsSlots fn Analysis.Enriches where
  toIsSteady := isSteady_enriches
  stats a _ _ := .refl a.bindings
  slots a _ _ _ := by
    refine .of_node_eq (Nat.le_refl _) ?_ ?_
    . exact Bindings.map_modify_eq fun f => rfl
    . exact Bindings.map_modify_eq fun f => rfl
  string a _ _ := .refl a.bindings
  bigint a _ := .refl a.bindings
  shapes a _ := .refl a.bindings
  shape a _ := .refl a.bindings
  numbers a := .of_node_eq (Nat.le_add_right _ 2) rfl rfl
  volatile a d := by
    refine ⟨Nat.le_refl _, rfl, rfl, rfl, rfl, rfl, rfl, ?_, rfl, fun _ _ hm => .self hm⟩
    intro i
    dsimp only
    rw [Table.get?_modify]
    split
    . rw [Option.map_map]
      rfl
    . rfl
  record a change hchange := by
    refine .of_node_eq (Nat.le_refl _) ?_ ?_
    . exact Bindings.map_modify_eq fun f => (hchange f).1
    . exact Bindings.map_modify_eq fun f => (hchange f).2.1

theorem comes_globalMember {n m : Node} {a a' : Analysis} (h : Ends (globalMember n) a m a') :
    m.id = n.id ∧ m.kind = .member ∧
      ∀ c ∈ m.preorder, c.Comes n.preorder a.bindings.counters.node := by
  unfold globalMember at h
  rw [ends_get_bind, ends_modify_bind] at h
  obtain ⟨_, t, -, h⟩ := ends_bind.1 h
  obtain ⟨rfl, -⟩ := ends_pure.1 h
  refine ⟨rfl, rfl, ?_⟩
  intro c hc
  simp only [Node.preorder_eq, Node.parts, Part.nodes_node, Part.nodes_nil, List.append_nil,
    List.mem_cons, List.mem_append, List.not_mem_nil, or_false] at hc
  rcases hc with rfl | rfl | rfl
  . exact .inr ⟨List.mem_cons_self, .inr ⟨n, Node.mem_preorder_self, rfl⟩⟩
  . exact .inr ⟨List.mem_cons_of_mem _ List.mem_cons_self, .inl (Nat.le_refl _)⟩
  . exact .inr ⟨List.mem_cons_of_mem _ (List.mem_cons_of_mem _ List.mem_cons_self),
      .inl (Nat.le_succ _)⟩

theorem comes_globalize {n m : Node} {a a' : Analysis} (h : Ends (globalize n) a (some m) a') :
    n.kind = .identifier ∧ m.id = n.id ∧ m.kind = .member ∧
      ∀ c ∈ m.preorder, c.Comes n.preorder a.bindings.counters.node := by
  unfold globalize at h
  rw [ends_get_bind] at h
  dsimp only at h
  split at h
  . next hcond =>
    simp only [Bool.and_eq_true, beq_iff_eq] at hcond
    obtain ⟨_, t, hstats, h⟩ := ends_bind.1 h
    obtain rfl := ends_modify.1 hstats
    split at h
    . cases (ends_pure.1 h).1
    . obtain ⟨m', hm', heq⟩ := ends_map.1 h
      cases heq
      have hmember := comes_globalMember hm'
      exact ⟨hcond.1, hmember⟩
  . cases (ends_pure.1 h).1

mutual

theorem comes_replaceM : ∀ (n n' : Node) (a a' : Analysis),
    Ends (n.replaceM globalize) a n' a' → n'.id = n.id ∧ (n'.kind == .super) = (n.kind == .super) ∧
      ∀ c ∈ n'.preorder, c.Comes n.preorder a.bindings.counters.node
  | .mk id span label parts => by
    intro n' a a' h
    rw [Node.replaceM] at h
    obtain ⟨found, t, hfound, h⟩ := ends_bind.1 h
    have hnumbers := ((permitsSlots_enriches 0).globalize _ _ _ _ hfound).numbers
    cases found with
    | some m =>
      obtain ⟨rfl, -⟩ := ends_pure.1 h
      obtain ⟨hkind, hid, hmember, hcomes⟩ := comes_globalize hfound
      exact ⟨hid, by rw [hkind, hmember]; rfl, hcomes⟩
    | none =>
      obtain ⟨parts', t', hparts, h⟩ := ends_bind.1 h
      obtain ⟨rfl, -⟩ := ends_pure.1 h
      obtain ⟨hsketch, hcomes⟩ := comes_replacePartsM parts _ _ _ hparts
      refine ⟨rfl, rfl, ?_⟩
      intro c hc
      rw [Node.preorder_eq, List.mem_cons] at hc
      rw [Node.preorder_eq]
      rcases hc with rfl | hc
      . exact .inl ⟨_, List.mem_cons_self, Prod.ext rfl (Prod.ext rfl hsketch)⟩
      . exact (hcomes c hc).mono (List.subset_cons_self _ _) hnumbers

theorem comes_replacePartsM : ∀ (parts parts' : List Part) (a a' : Analysis),
    Ends (Node.replacePartsM globalize parts) a parts' a' →
      parts'.map Part.sketch = parts.map Part.sketch ∧
      ∀ c ∈ Part.nodes parts', c.Comes (Part.nodes parts) a.bindings.counters.node
  | [] => by
    intro parts' a a' h
    obtain ⟨rfl, -⟩ := ends_pure.1 h
    exact ⟨rfl, fun _ hc => .self hc⟩
  | .node role n :: rest => by
    intro parts' a a' h
    rw [Node.replacePartsM] at h
    obtain ⟨n', t, hn, h⟩ := ends_bind.1 h
    obtain ⟨rest', t', hrest, h⟩ := ends_bind.1 h
    obtain ⟨rfl, -⟩ := ends_pure.1 h
    have hnumbers := (Keeps.replaceM isSteady_enriches (permitsSlots_enriches 0).globalize n
      _ _ _ hn).numbers
    obtain ⟨hid, hsuper, hcomes⟩ := comes_replaceM n _ _ _ hn
    obtain ⟨hsketch, hcomes'⟩ := comes_replacePartsM rest _ _ _ hrest
    constructor
    . simp only [List.map_cons, Part.sketch, hid, hsuper, hsketch]
    . intro c hc
      rw [Part.nodes_node, List.mem_append] at hc
      rw [Part.nodes_node]
      rcases hc with hc | hc
      . exact (hcomes c hc).mono (List.subset_append_left _ _) (Nat.le_refl _)
      . exact (hcomes' c hc).mono (List.subset_append_right _ _) hnumbers
  | .hole role :: rest => by
    intro parts' a a' h
    rw [Node.replacePartsM] at h
    obtain ⟨rest', t', hrest, h⟩ := ends_bind.1 h
    obtain ⟨rfl, -⟩ := ends_pure.1 h
    obtain ⟨hsketch, hcomes⟩ := comes_replacePartsM rest _ _ _ hrest
    exact ⟨by simp only [List.map_cons, hsketch], hcomes⟩

end

theorem keeps_globalizeNames (fn : Nat) : Keeps Analysis.Enriches (globalizeNames fn) := by
  intro a u a' h
  have hR := isSteady_enriches
  have hglobalize := Keeps.replacePartsM hR (permitsSlots_enriches fn).globalize
  unfold globalizeNames at h
  rw [ends_function_bind] at h
  dsimp only at h
  obtain ⟨params, t₁, hparams, h⟩ := ends_bind.1 h
  obtain ⟨body, t₂, hbody, h⟩ := ends_bind.1 h
  obtain rfl := ends_modify.1 h
  have hfirst := hglobalize _ _ _ _ hparams
  have hboth := hR.trans hfirst (hglobalize _ _ _ _ hbody)
  obtain ⟨-, hcomes⟩ := comes_replacePartsM _ _ _ _ hparams
  obtain ⟨-, hcomes'⟩ := comes_replacePartsM _ _ _ _ hbody
  refine hboth.setParts fun m hm => ?_
  have hsub : ∀ role, Part.nodes ((a.bindings.function fn).node.parts.filter fun p =>
      p.role == role) ⊆ Part.nodes (a.bindings.function fn).node.parts :=
    fun role => Part.nodes_subset List.filter_sublist.subset
  rw [Part.nodes_append, Part.nodes_append, List.mem_append, List.mem_append] at hm
  rcases hm with (hm | hm) | hm
  . exact .self (hsub _ hm)
  . exact (hcomes m hm).mono (hsub _) (Nat.le_refl _)
  . exact (hcomes' m hm).mono (hsub _) hfirst.numbers

end Analyze

theorem Analysis.enriches_of {b : Bindings} {a : Analysis} (h : Analysis.of b = .ok a) :
    b.Enriches a.bindings :=
  Analyze.PermitsSlots.functions Analyze.isSteady_enriches
    (fun fn _ => Analyze.permitsSlots_enriches fn) (fun fn _ => Analyze.keeps_globalizeNames fn)
    _ _ _ (ends_of_run h)

end ScriptC
