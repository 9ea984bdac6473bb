import Mathlib.Data.List.Nodup
import ScriptC.Proofs.Bindings.Referred

/-!
The names of all functions of a script. Functions are looked at one after the other; in the end each
use of another function's declaration is captured by every function on the way to it.
-/

namespace ScriptC

open Pass

namespace Node

theorem walk_eq (place : Option Place) (n : Node) :
    n.walk place = (place, n) :: walkParts (fun _ => true) place n n.parts := by
  cases n
  rfl

theorem mem_walkParts_of_part {place : Option Place} {parent c : Node} {r : Role}
    {parts : List Part} {x : Option Place × Node} (hc : .node r c ∈ parts)
    (hx : x ∈ c.walk (some (parent.placeIn place r))) :
    x ∈ walkParts (fun _ => true) place parent parts := by
  induction parts with
  | nil => cases hc
  | cons p rest ih =>
    rcases List.mem_cons.1 hc with rfl | hrest
    . rw [walkParts]
      exact List.mem_append_left _ hx
    . cases p with
      | node role d =>
        rw [walkParts]
        exact List.mem_append_right _ (ih hrest)
      | hole role =>
        rw [walkParts]
        exact ih hrest

theorem exists_mem_walk_of_part {n m c : Node} {r : Role} (hm : m ∈ n.preorder)
    (hc : .node r c ∈ m.parts) (place : Option Place) :
    ∃ q, (some (m.placeIn q r), c) ∈ n.walk place := by
  induction n using below_induction generalizing place with
  | h n ih =>
    rw [walk_eq]
    rw [preorder_eq, List.mem_cons] at hm
    rcases hm with rfl | hm
    . refine ⟨place, List.mem_cons_of_mem _ (mem_walkParts_of_part hc ?_)⟩
      rw [walk_eq]
      exact List.mem_cons_self
    . obtain ⟨d, ⟨s, hd⟩, hmd⟩ := Part.exists_holds_of_mem_nodes hm
      obtain ⟨q, hq⟩ := ih d ⟨s, hd⟩ hmd (some (n.placeIn place s))
      exact ⟨q, List.mem_cons_of_mem _ (mem_walkParts_of_part hd hq)⟩

end Node

def Function.innerParts (f : Function) : List Part :=
  Extract.partsAt f.node .name ++ Extract.partsAt f.node .param ++ [.node .body f.body]

namespace Bindings

variable {e : Extraction} {fn k : Nat} {b b' : Bindings} {g : Function}

structure Settled (e : Extraction) (k : Nat) (b : Bindings) : Prop where
  linked : Linked e k b
  waiting : ∀ f g, k ≤ f → e.functions[f]? = some g →
    (b.function f).node = g.node ∧ (b.function f).IsBlank
  own : ∀ f g, f < k → e.functions[f]? = some g → g.isArrow = false → b.HasWords f
  tree : ∀ f g, f < k → e.functions[f]? = some g →
    List.Forall₂ Node.Becomes (Part.nodes g.innerParts) (Part.nodes (b.function f).node.parts)
  named : ∀ f g, f < k → e.functions[f]? = some g → ∀ m ∈ Part.nodes g.innerParts,
    m.kind = .functionDeclaration ∨ m.kind = .classDeclaration →
    ∃ c, m.part? .name = some c ∧ e.InTree f c.id ∧ b.BoundIn f c.id
  super : ∀ f g, f < k → e.functions[f]? = some g → ∀ m ∈ Part.nodes g.innerParts,
    m.kind = .super → ∀ d, (b.function (b.thisOwner f)).this = some d → b.Reaches f d
  superCall : ∀ f g, f < k → e.functions[f]? = some g → ∀ m ∈ Part.nodes g.innerParts,
    m.kind = .call → ∀ c, .node .callee c ∈ m.parts → c.kind = .super →
    ∀ d, (b.function (b.thisOwner f)).newTarget = some d → b.Reaches f d

theorem settled_start (he : e.IsSplit) :
    Settled e 0 { counters := e.counters, functions := e.functions, sites := e.sites } where
  linked := {
    counters := Nat.le_refl _
    functions := rfl
    sites := rfl
    scopes := by simp
    decls := by simp
    scopeOf := by simp
    uses := by simp
    aliases := by simp
    captures := by
      intro f d hd
      exfalso
      dsimp only [function] at hd
      rw [Array.getD_eq_getD_getElem?] at hd
      cases hf : e.functions[f]? with
      | none =>
        rw [hf] at hd
        cases hd
      | some g =>
        rw [hf, Option.getD_some, (he.blank f g hf).2.2] at hd
        cases hd
    captured := by simp }
  waiting f g _ hg := by
    dsimp only [function]
    rw [Array.getD_eq_getD_getElem?, hg]
    exact ⟨rfl, he.blank f g hg⟩
  own _ _ h := by omega
  tree _ _ h := by omega
  named _ _ h := by omega
  super _ _ h := by omega
  superCall _ _ h := by omega

theorem Refers.boundIn {nodes : List Node} {f id : Nat} (h : Refers e fn nodes b b')
    (hid : ∀ m ∈ nodes, m.id = id → m.kind = .identifier) (hbound : b.BoundIn f id) :
    b'.BoundIn f id := by
  obtain ⟨u, d, decl, hu, hd, hdecl, howner⟩ := hbound
  obtain ⟨decl', hdecl', howner'⟩ := h.declIn ⟨decl, hdecl, howner⟩
  refine ⟨u, d, decl', ?_, hd, hdecl', howner'⟩
  rcases h.uses id with hsame | ⟨m, hm, hmid, hnone⟩
  . rw [hsame, hu]
  . rw [hnone (hid m hm hmid)] at hu
    cases hu

theorem Prepares.reaches {f d : Nat} (h : Prepares e fn g b b') (hd : b.Reaches f d) :
    b'.Reaches f d := by
  obtain ⟨decl, hdecl, hcase⟩ := hd
  obtain ⟨decl', hdecl', howner⟩ := h.decls decl.owner d ⟨decl, hdecl, rfl⟩
  refine ⟨decl', hdecl', ?_⟩
  rw [h.captures f]
  exact hcase.imp_left howner.trans

structure SameNames (b b' : Bindings) : Prop where
  rest : b' = { b with functions := b'.functions }
  functions : b'.functions.map (fun f => (f.frame, f.words, f.captures)) =
    b.functions.map fun f => (f.frame, f.words, f.captures)

theorem sameNames_setNode (b : Bindings) (fn : Nat) (node : Node) :
    SameNames b { b with functions := b.functions.modify fn fun f => { f with node } } := by
  refine ⟨rfl, ?_⟩
  dsimp only
  rw [map_modify_eq]
  intro f
  rfl

namespace SameNames

variable (h : SameNames b b')

include h

theorem words_eq (i : Nat) : (b'.function i).words = (b.function i).words :=
  congrArg (·.2.1) (map_function h.functions i)

theorem captures_eq (i : Nat) : (b'.function i).captures = (b.function i).captures :=
  congrArg (·.2.2) (map_function h.functions i)

theorem decls_eq : b'.decls = b.decls := by rw [h.rest]

theorem uses_eq : b'.uses = b.uses := by rw [h.rest]

theorem lineage_eq : b'.lineage = b.lineage := by
  have hmap := congrArg (Array.map fun p => p.1.lineage) h.functions
  simp only [Array.map_map] at hmap
  exact hmap

theorem thisOwner_eq (i : Nat) : b'.thisOwner i = b.thisOwner i := by
  unfold thisOwner
  rw [h.lineage_eq]

theorem linked (hb : Linked e k b) : Linked e k b' := by
  rw [h.rest]
  refine (hb.functions_congr ?_ ?_ ?_).1
  . have hmap := congrArg (Array.map fun p => p.1) h.functions
    simp only [Array.map_map] at hmap
    exact hmap
  . have hmap := congrArg (Array.map fun p => p.2.2) h.functions
    simp only [Array.map_map] at hmap
    exact hmap
  . have hmap := congrArg (Array.map fun p => p.2.1) h.functions
    simp only [Array.map_map] at hmap
    exact hmap

theorem declIn {f d : Nat} (hd : b.DeclIn f d) : b'.DeclIn f d := by
  unfold DeclIn
  rw [h.decls_eq]
  exact hd

theorem boundIn {f id : Nat} (hid : b.BoundIn f id) : b'.BoundIn f id := by
  unfold BoundIn
  rw [h.decls_eq, h.uses_eq]
  exact hid

theorem reaches {f d : Nat} (hd : b.Reaches f d) : b'.Reaches f d := by
  unfold Reaches
  rw [h.decls_eq, h.captures_eq]
  exact hd

end SameNames

end Bindings

namespace Resolve

open Bindings

variable {e : Extraction} {fn : Nat} {b b' : Bindings} {g : Function} {u : Unit}

theorem times_parts_le (he : e.IsSplit) (hg : e.functions[fn]? = some g) (x : Nat) :
    Part.times x g.node.parts ≤ 1 := by
  have hmem : .node .body g.node ∈ e.trees := by
    rw [← Array.getElem?_toList] at hg
    exact List.mem_map.2 ⟨g, List.mem_of_getElem? hg, rfl⟩
  have hle := Node.times_le_of_mem (x := x) hmem
  have hone := he.once x
  rw [Node.times_eq] at hle
  omega

theorem part?_body (he : e.IsSplit) (hg : e.functions[fn]? = some g) :
    g.node.part? .body = some g.body ∧ g.body.kind = .block := by
  obtain ⟨body, hbody, hkind⟩ := (he.formed fn g hg).body
  unfold Function.body
  rw [hbody]
  exact ⟨rfl, hkind⟩

theorem innerParts_subset (he : e.IsSplit) (hg : e.functions[fn]? = some g) :
    g.innerParts ⊆ g.node.parts := by
  intro p hp
  rcases List.mem_append.1 hp with hp | hp
  . rcases List.mem_append.1 hp with hp | hp <;> exact Extract.partsAt_subset _ _ hp
  . rw [List.mem_singleton.1 hp]
    exact Extract.partsAt_subset _ _ (Node.exists_of_part? (part?_body he hg).1)

theorem times_innerParts_le (he : e.IsSplit) (hg : e.functions[fn]? = some g) (x : Nat) :
    Part.times x g.innerParts ≤ 1 := by
  have hone := times_parts_le he hg x
  have hadd := Node.times_partsAt_add_three (n := g.node) (x := x)
    (by decide : Role.name ≠ .param) (by decide : Role.name ≠ .body) (by decide)
  have hle := Node.times_part?_le (x := x) (part?_body he hg).1
  unfold Function.innerParts
  rw [Part.times_append, Part.times_append]
  omega

theorem refers_all (he : e.IsSplit) (hg : e.functions[fn]? = some g) (hb : Referring e fn b)
    (hnode : (b.function fn).node = g.node) (huntouched : Untouched b fn (Part.nodes g.innerParts))
    (h : Ends (referAll fn) b u b') :
    ∃ c node, Refers e fn (Part.nodes g.innerParts) b c ∧
      b' = { c with functions := c.functions.modify fn fun f => { f with node } } ∧
      List.Forall₂ Node.Becomes (Part.nodes g.innerParts) (Part.nodes node.parts) ∧
      SuperReached c fn
        (Node.walkParts (fun _ => true) none g.node (Extract.partsAt g.node .param)) ∧
      SuperReached c fn (Node.walkParts (fun _ => true) (some (g.node.placeIn none .body)) g.body
        g.body.parts) := by
  have hbody := (part?_body he hg).1
  have hparamsSub : Extract.partsAt g.node .param ⊆ g.innerParts := fun p hp =>
    List.mem_append_left _ (List.mem_append_right _ hp)
  have hnamesSub : Extract.partsAt g.node .name ⊆ g.innerParts := fun p hp =>
    List.mem_append_left _ (List.mem_append_left _ hp)
  have hbelow : Part.Holds g.innerParts g.body :=
    ⟨.body, List.mem_append_right _ (List.mem_singleton_self _)⟩
  have hbodyHeld := held_of_holds he hg (Node.holds_of_part? hbody)
  have hsub : Part.nodes g.body.parts ⊆ Part.nodes g.innerParts := by
    intro m hm
    apply Part.mem_nodes_of_holds hbelow
    rw [Node.preorder_eq]
    exact List.mem_cons_of_mem _ hm
  have htimes : ∀ x, Part.times x (Extract.partsAt g.node .param) + Part.times x
    g.body.parts ≤ 1 := by
    intro x
    have hone := times_innerParts_le he hg x
    unfold Function.innerParts at hone
    rw [Part.times_append, Part.times_append, Node.times_eq] at hone
    omega
  unfold referAll at h
  rw [ends_get_bind] at h
  dsimp only at h
  have hfbody : (b.function fn).body = g.body := by
    unfold Function.body
    rw [hnode]
  rw [hnode, hfbody] at h
  obtain ⟨params', c₁, hparams, h⟩ := ends_bind.1 h
  obtain ⟨body', c₂, hitems, h⟩ := ends_bind.1 h
  obtain ⟨hfirst, -, hnodes, hsuper⟩ := refers_referParts he hg (Extract.partsAt g.node .param) hb
    Node.mem_preorder_self (Extract.partsAt_subset _ _)
    (fun c hc => hc.elim fun r hr => held_of_holds he hg ⟨r, Extract.partsAt_subset _ _ hr⟩)
    (fun m hm => huntouched m (Part.nodes_subset hparamsSub hm))
    (fun x => by have := htimes x; omega) hparams
  obtain ⟨hsecond, hsketch, hnodes', hsuper'⟩ := refers_referParts he hg g.body.parts
    hfirst.referring (Node.preorder_subset (Node.holds_of_part? hbody) Node.mem_preorder_self)
    (List.Subset.refl _) (fun c hc => hbodyHeld.below hc)
    (Untouched.rest (fun m hm => huntouched m (hsub hm)) hfirst (by
      intro m hm m' hm' heq
      have hleft := Part.times_pos_of_mem hm
      have hright := Part.times_pos_of_mem hm'
      have := htimes m.id
      rw [heq] at hleft this
      omega))
    (fun x => by have := htimes x; omega) hitems
  cases ends_modify.1 h
  refine ⟨c₂, _, (hfirst.trans hsecond).mono ?_, rfl, ?_, hsecond.superReached hsuper, hsuper'⟩
  . intro m hm
    rcases List.mem_append.1 hm with hm | hm
    . exact Part.nodes_subset hparamsSub hm
    . exact hsub hm
  . rw [Node.parts_withParts, Function.innerParts, Part.nodes_append, Part.nodes_append,
      Part.nodes_append, Part.nodes_append]
    refine List.rel_append (List.rel_append (Node.becomes_refl _) hnodes) ?_
    rw [Part.nodes_node, Part.nodes_node, Part.nodes_nil, List.append_nil, List.append_nil]
    generalize g.body = body at hsketch hnodes' ⊢
    cases body with
    | mk id span label parts => exact (@Node.Rewrites.ofParts _ span _ _ _ hsketch hnodes').nodes

theorem mem_body_of_isStatement (he : e.IsSplit) (hg : e.functions[fn]? = some g) {m : Node}
    (hm : m ∈ Part.nodes g.innerParts) (hstatement : m.kind.isStatement = true) :
    m ∈ g.body.preorder := by
  obtain ⟨c, ⟨r, hc⟩, hmc⟩ := Part.exists_holds_of_mem_nodes hm
  have hmem := innerParts_subset he hg hc
  have hchild : c.kind.isStatement = true := by
    cases hkind : c.kind.isStatement with
    | true => rfl
    | false =>
      rw [(held_of_holds he hg ⟨r, hmem⟩).isStatement_below hkind hmc] at hstatement
      cases hstatement
  have hformed := he.formed fn g hg
  have hrole := Extract.role_of_holds hformed.isFunction
    (hformed.isFormed.statement r c hmem hchild)
  subst hrole
  rcases List.mem_append.1 hc with hc | hc
  . rcases List.mem_append.1 hc with hc | hc <;> cases Extract.role_of_mem_partsAt hc
  . cases List.mem_singleton.1 hc
    exact hmc

theorem named_of_done (he : e.IsSplit) (hg : e.functions[fn]? = some g)
    (hdone : ∀ c ∈ g.body.items, Done e fn c b) {m : Node} (hm : m ∈ Part.nodes g.innerParts)
    (hkind : m.kind = .functionDeclaration ∨ m.kind = .classDeclaration) :
    ∃ c, m.part? .name = some c ∧ e.InTree fn c.id ∧ b.BoundIn fn c.id := by
  obtain ⟨hbody, hblock⟩ := part?_body he hg
  have hheld := held_of_holds he hg (Node.holds_of_part? hbody)
  have hstatement : m.kind.isStatement = true := by rcases hkind with h | h <;> rw [h] <;> rfl
  refine hheld.done ?_ ?_ m (mem_body_of_isStatement he hg hm hstatement) hkind
  . rintro (h | h) <;> rw [hblock] at h <;> cases h
  . intro r c hc hchild
    have hholds := hheld.self.2.1.statement r c hc hchild
    rw [hblock] at hholds
    obtain rfl : r = .item := by cases r <;> first | rfl | cases hholds
    exact hdone c (Node.mem_items_of_part hc)

theorem mem_of_ne_identifier (he : e.IsSplit) (hg : e.functions[fn]? = some g) {m : Node}
    (hm : m ∈ Part.nodes g.innerParts) (hkind : m.kind ≠ .identifier) :
    m ∈ Part.nodes (Extract.partsAt g.node .param) ∨ m ∈ g.body.preorder := by
  obtain ⟨c, ⟨r, hc⟩, hmc⟩ := Part.exists_holds_of_mem_nodes hm
  rcases List.mem_append.1 hc with hc | hc
  . rcases List.mem_append.1 hc with hc | hc
    . exfalso
      have hmem := Extract.partsAt_subset _ _ hc
      have hheld := held_of_holds he hg ⟨r, hmem⟩
      have hformed := he.formed fn g hg
      obtain rfl := Extract.role_of_mem_partsAt hc
      have hid := hformed.isFormed.name (.inl hformed.isFunction) c hmem
      have hleaf : c.parts = [] := hheld.self.2.1.parts_eq_nil (by rw [hid]; rfl)
      rw [Node.preorder_eq, hleaf, Part.nodes_nil, List.mem_singleton] at hmc
      exact hkind (hmc ▸ hid)
    . exact .inl (Part.mem_nodes_of_holds ⟨r, hc⟩ hmc)
  . cases List.mem_singleton.1 hc
    exact .inr hmc

theorem reached_of_superReached (he : e.IsSplit) (hg : e.functions[fn]? = some g)
    (hparams : SuperReached b fn
      (Node.walkParts (fun _ => true) none g.node (Extract.partsAt g.node .param)))
    (hitems : SuperReached b fn
      (Node.walkParts (fun _ => true) (some (g.node.placeIn none .body)) g.body g.body.parts)) :
    (∀ m ∈ Part.nodes g.innerParts, m.kind = .super →
      ∀ d, (b.function (b.thisOwner fn)).this = some d → b.Reaches fn d) ∧
    ∀ m ∈ Part.nodes g.innerParts, m.kind = .call → ∀ c, .node .callee c ∈ m.parts →
      c.kind = .super → ∀ d, (b.function (b.thisOwner fn)).newTarget = some d → b.Reaches fn d := by
  have hblock := (part?_body he hg).2
  have hplace : ∀ {place parent parts} {m : Node}, m ∈ Part.nodes parts →
      ∃ q, (q, m) ∈ Node.walkParts (fun _ => true) place parent parts := by
    intro place parent parts m hm
    rw [← Node.map_walkParts_eq place parent] at hm
    obtain ⟨x, hx, rfl⟩ := List.mem_map.1 hm
    exact ⟨x.1, hx⟩
  have hchild : ∀ {place parent parts} {m c : Node} {r : Role}, m ∈ Part.nodes parts →
      .node r c ∈ m.parts →
      ∃ q, (some (m.placeIn q r), c) ∈ Node.walkParts (fun _ => true) place parent parts := by
    intro place parent parts m c r hm hc
    obtain ⟨d, ⟨s, hd⟩, hmd⟩ := Part.exists_holds_of_mem_nodes hm
    obtain ⟨q, hq⟩ := Node.exists_mem_walk_of_part hmd hc (some (parent.placeIn place s))
    exact ⟨q, Node.mem_walkParts_of_part hd hq⟩
  have hbelow : ∀ {m : Node}, m ∈ g.body.preorder → m.kind ≠ .block →
    m ∈ Part.nodes g.body.parts := by
    intro m hm hne
    rw [Node.preorder_eq, List.mem_cons] at hm
    rcases hm with rfl | hm
    . exact absurd hblock hne
    . exact hm
  constructor
  . intro m hm hkind
    rcases mem_of_ne_identifier he hg hm (by simp [hkind]) with hm | hm
    . obtain ⟨q, hq⟩ := hplace hm
      exact (hparams _ hq hkind).1
    . obtain ⟨q, hq⟩ := hplace (hbelow hm (by simp [hkind]))
      exact (hitems _ hq hkind).1
  . intro m hm hkind c hc hsuper
    have hcall : ∀ q, ((some (m.placeIn q .callee)).any fun p =>
        p.parent.kind == .call && p.role == .callee) = true := by
      intro q
      simp [Node.placeIn, hkind]
    rcases mem_of_ne_identifier he hg hm (by simp [hkind]) with hm | hm
    . obtain ⟨q, hq⟩ := hchild hm hc
      exact (hparams _ hq hsuper).2 (hcall q)
    . obtain ⟨q, hq⟩ := hchild (hbelow hm (by simp [hkind])) hc
      exact (hitems _ hq hsuper).2 (hcall q)

theorem eq_of_id_eq (he : e.IsSplit) (hg : e.functions[fn]? = some g) {m m' : Node}
    (hm : m ∈ Part.nodes g.innerParts) (hm' : m' ∈ Part.nodes g.innerParts) (hid : m.id = m'.id) :
    m = m' := by
  have hnodup : ((Part.nodes g.innerParts).map (·.id)).Nodup :=
    List.nodup_iff_count_le_one.2 fun x => times_innerParts_le he hg x
  exact List.inj_on_of_nodup_map hnodup hm hm' hid

theorem inTree_of_mem (he : e.IsSplit) (hg : e.functions[fn]? = some g) {m : Node}
    (hm : m ∈ Part.nodes g.innerParts) : e.InTree fn m.id := by
  obtain ⟨c, ⟨r, hc⟩, hmc⟩ := Part.exists_holds_of_mem_nodes hm
  exact (held_of_holds he hg ⟨r, innerParts_subset he hg hc⟩ m hmc).1

theorem mem_nodes_of_part {parts : List Part} {m c : Node} {r : Role} (hm : m ∈ Part.nodes parts)
    (hc : .node r c ∈ m.parts) : c ∈ Part.nodes parts := by
  obtain ⟨d, hd, hmd⟩ := Part.exists_holds_of_mem_nodes hm
  exact Part.mem_nodes_of_holds hd
    (Node.preorder_trans hmd (Node.preorder_subset ⟨r, hc⟩ Node.mem_preorder_self))

theorem isFormed_of_mem (he : e.IsSplit) (hg : e.functions[fn]? = some g) {m : Node}
    (hm : m ∈ Part.nodes g.innerParts) : m.IsFormed :=
  ((he.formed fn g hg).split m (Part.nodes_subset (innerParts_subset he hg) hm)).1

theorem referring_of_prepares (hb : Settled e fn b) (hg : e.functions[fn]? = some g)
    (hprepares : Prepares e fn g b c) : Referring e fn c := by
  refine ⟨hprepares.stage.linked, ?_⟩
  intro f g' hf hg' harrow
  rcases Nat.lt_or_eq_of_le hf with hlt | rfl
  . exact hasWords_of_eq (hb.own f g' hlt hg' harrow) (hprepares.words f (by omega))
      (hprepares.decls f)
  . rw [hg] at hg'
    cases hg'
    exact hprepares.own harrow

/-- Functions before the prepared one find their words where they did. -/
theorem words_thisOwner_of_prepares (hb : Settled e fn b) (he : e.IsSplit)
    (hg : e.functions[fn]? = some g) (hprepares : Prepares e fn g b c) {f : Nat} (hf : f < fn) :
    (c.function (c.thisOwner f)).words = (b.function (b.thisOwner f)).words := by
  have hlt : f < e.lineage.size := by
    unfold Extraction.lineage
    rw [Array.size_map]
    have := (Array.getElem?_eq_some_iff.1 hg).1
    omega
  obtain ⟨o, l, hthis, hw, -⟩ := he.isTree.exists_thisOwner hlt
  have hle := he.isTree.le_of_within hw
  unfold thisOwner
  rw [lineage_of_frame hprepares.stage.linked.functions, lineage_of_frame hb.linked.functions,
    hthis]
  exact hprepares.words o (by omega)

theorem kind_of_named (he : e.IsSplit) (hg : e.functions[fn]? = some g) {m m' x : Node}
    (hm : m ∈ Part.nodes g.innerParts)
    (hkind : m.kind = .functionDeclaration ∨ m.kind = .classDeclaration)
    (hx : m.part? .name = some x) (hm' : m' ∈ Part.nodes g.innerParts) (hid : m'.id = x.id) :
    m'.kind = .identifier := by
  have hpart := Extract.partsAt_subset _ _ (Node.exists_of_part? hx)
  rw [eq_of_id_eq he hg hm' (mem_nodes_of_part hm hpart) hid]
  have hformed := (isFormed_of_mem he hg hm).name (by
    rcases hkind with h | h <;> rw [h]
    . exact .inl rfl
    . exact .inr rfl)
  exact hformed x hpart

theorem settled_step (he : e.IsSplit) (hg : e.functions[fn]? = some g) (hb : Settled e fn b)
    (h : Ends (do declareAll fn; referAll fn) b u b') : Settled e (fn + 1) b' := by
  obtain ⟨_, c, hdeclare, hrefer⟩ := ends_bind.1 h
  obtain ⟨hnode, hblank⟩ := hb.waiting fn g (Nat.le_refl _) hg
  obtain ⟨hprepares, hdone⟩ := declares_all he hg hb.linked hnode hblank hdeclare
  have hreferring := referring_of_prepares hb hg hprepares
  have huntouched : Untouched c fn (Part.nodes g.innerParts) := by
    intro m hm u d decl hu hd hdecl
    have htree := inTree_of_mem he hg hm
    exact hprepares.stage.not_inTree_of_uses he (.inl htree) htree hu hd hdecl
  have hcnode : ∀ i, (c.function i).node = (b.function i).node := fun i =>
    map_function hprepares.nodes i
  obtain ⟨c', node, hrefers, rfl, hdescends, hparams, hitems⟩ := refers_all he hg hreferring
    ((hcnode fn).trans hnode) huntouched hrefer
  have hsize : fn < c'.functions.size := (hrefers.referring.linked.frame_function hg).2
  obtain ⟨hsuper, hsuperCall⟩ := reached_of_superReached he hg hparams hitems
  have hsame := sameNames_setNode c' fn node
  have hfunction := fun i => @function_modify c' fn i (fun f => { f with node }) hsize
  generalize ({ c' with functions := c'.functions.modify fn fun f => { f with node } } :
    Bindings) = last at *
  have hold : ∀ {f}, f ≠ fn → (last.function f).node = (b.function f).node := by
    intro f hf
    rw [hfunction f, if_neg (Ne.symm hf)]
    exact (congrArg Prod.fst (map_function hrefers.functions f)).trans (hcnode f)
  have hbound : ∀ {f id}, (∀ m ∈ Part.nodes g.innerParts, m.id = id → m.kind = .identifier) →
      c.BoundIn f id → last.BoundIn f id := fun hid hbound =>
        hsame.boundIn (hrefers.boundIn hid hbound)
  have hreaches : ∀ {f d}, b.Reaches f d → last.Reaches f d := fun hd =>
    hsame.reaches (hrefers.reaches (hprepares.reaches hd))
  have howner : ∀ f, (last.function (last.thisOwner f)).words =
    (c.function (c.thisOwner f)).words := by
    intro f
    rw [hsame.thisOwner_eq, hsame.words_eq, hrefers.thisOwner_eq f]
  have hbefore : ∀ {f}, f < fn → (last.function (last.thisOwner f)).words =
      (b.function (b.thisOwner f)).words :=
    fun hf => (howner _).trans (words_thisOwner_of_prepares hb he hg hprepares hf)
  constructor
  case linked => exact hsame.linked hrefers.referring.linked
  case waiting =>
    intro f g' hf hg'
    obtain ⟨hnode', hthis, htarget, hcaptures⟩ := hb.waiting f g' (by omega) hg'
    have hwords : (last.function f).words = (b.function f).words := by
      rw [hsame.words_eq, ← hprepares.words f (by omega)]
      exact congrArg Prod.snd (map_function hrefers.functions f)
    replace hwords := Function.words_eq_iff.1 hwords
    refine ⟨(hold (by omega)).trans hnode', hwords.2.1.trans hthis, hwords.2.2.1.trans htarget, ?_⟩
    rw [hsame.captures_eq, hrefers.later f (by omega), hprepares.captures]
    exact hcaptures
  case own =>
    intro f g' hf hg' harrow
    exact hasWords_of_eq (hrefers.referring.own f g' (by omega) hg' harrow) (hsame.words_eq f)
      fun d => hsame.declIn
  case tree =>
    intro f g' hf hg'
    rcases Nat.lt_succ_iff_lt_or_eq.1 hf with hlt | rfl
    . rw [hold (by omega)]
      exact hb.tree f g' hlt hg'
    . rw [hg] at hg'
      cases hg'
      rw [hfunction f, if_pos rfl]
      exact hdescends
  case named =>
    intro f g' hf hg' m hm hkind
    rcases Nat.lt_succ_iff_lt_or_eq.1 hf with hlt | rfl
    . obtain ⟨x, hx, htree, hin⟩ := hb.named f g' hlt hg' m hm hkind
      refine ⟨x, hx, htree, hbound ?_ (hprepares.bound f x.id htree hin)⟩
      intro m' hm' hid
      have := he.eq_of_inTree (hid ▸ inTree_of_mem he hg hm') htree
      omega
    . rw [hg] at hg'
      cases hg'
      obtain ⟨x, hx, htree, hin⟩ := named_of_done he hg hdone hm hkind
      exact ⟨x, hx, htree, hbound (fun m' => kind_of_named he hg hm hkind hx) hin⟩
  case super =>
    intro f g' hf hg' m hm hkind d hd
    rcases Nat.lt_succ_iff_lt_or_eq.1 hf with hlt | rfl
    . have hwords := Function.words_eq_iff.1 (hbefore hlt)
      exact hreaches (hb.super f g' hlt hg' m hm hkind d (hwords.2.1.symm.trans hd))
    . rw [hg] at hg'
      cases hg'
      have hwords := Function.words_eq_iff.1 (hsame.words_eq (c'.thisOwner f))
      rw [hsame.thisOwner_eq] at hd
      exact hsame.reaches (hsuper m hm hkind d (hwords.2.1.symm.trans hd))
  case superCall =>
    intro f g' hf hg' m hm hkind x hx hxkind d hd
    rcases Nat.lt_succ_iff_lt_or_eq.1 hf with hlt | rfl
    . have hwords := Function.words_eq_iff.1 (hbefore hlt)
      exact hreaches (hb.superCall f g' hlt hg' m hm hkind x hx hxkind d
        (hwords.2.2.1.symm.trans hd))
    . rw [hg] at hg'
      cases hg'
      have hwords := Function.words_eq_iff.1 (hsame.words_eq (c'.thisOwner f))
      rw [hsame.thisOwner_eq] at hd
      exact hsame.reaches (hsuperCall m hm hkind x hx hxkind d (hwords.2.2.1.symm.trans hd))

theorem settled_functions (he : e.IsSplit) {n k : Nat} (hk : k + n = e.functions.size)
    (hb : Settled e k b) (h : Ends (functions (List.range' k n)) b u b') :
    Settled e e.functions.size b' := by
  induction n generalizing k b with
  | zero =>
    obtain ⟨-, rfl⟩ := ends_pure.1 h
    rw [← hk]
    exact hb
  | succ n ih =>
    rw [List.range'_succ, functions] at h
    obtain ⟨_, c, hdeclare, h⟩ := ends_bind.1 h
    obtain ⟨_, c', hrefer, h⟩ := ends_bind.1 h
    have hlt : k < e.functions.size := by omega
    have hstep := settled_step he (Array.getElem?_eq_getElem hlt) hb
      (ends_bind.2 ⟨_, c, hdeclare, hrefer⟩)
    exact ih (by omega) hstep h

end Resolve

theorem Bindings.settled_of {e : Extraction} {b : Bindings} (he : e.IsSplit)
    (h : Bindings.of e = .ok b) : Settled e e.functions.size b := by
  have hrun := ends_of_run h
  rw [List.range_eq_range'] at hrun
  exact Resolve.settled_functions he (Nat.zero_add _) (settled_start he) hrun

end ScriptC
