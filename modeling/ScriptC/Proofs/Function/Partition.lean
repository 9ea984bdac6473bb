import Mathlib
import ScriptC.Proofs.Bindings.Linked
import ScriptC.Proofs.Function.Classes
import ScriptC.Proofs.Function.Script

/-!
The functions of a script as a partition of its nodes. Every node goes to one function, apart from
the directives that are used up and what stands around the constructor of a class.
-/

namespace ScriptC

open Pass

def Node.droppedNodes (tree : Node) : List Node :=
  ((Extract.prologue tree.parts).find? Extract.isUseStrict).elim [] preorder ++
    tree.preorder.flatMap dropped

namespace Extract

structure Parted (tree : Node) (bound : Nat) (e : Extraction) : Prop where
  exact : ∀ x, x < bound → Part.times x e.trees + (tree.droppedNodes.map (·.id)).count x =
    Part.times x tree.parts
  births : ∀ x, (e.functions.toList.map siteId).count (some x) ≤
    Part.tally Node.standing x tree.parts
  root : ∀ (c : Nat) (f : Function), e.functions[c]? = some f → bound ≤ f.node.id
  inner : ∀ (c : Nat) (f : Function), e.functions[c]? = some f →
    ∀ m ∈ Part.nodes f.node.parts, Fair bound tree.parts e m
  stems : ∃ ms : List Nat,
    (∀ x, (ms.map fun c => e.functions[c]?.bind siteId).count (some x) =
      Part.tally Node.memberValues x tree.parts) ∧
    ∀ (c : Nat) (f : Function), 0 < c → e.functions[c]? = some f → Stems tree.parts ms e c f

section Program

variable {tree : Node} {counters : Counters} {e : Extraction}

theorem partsAt_program (hformed : tree.IsFormed) (hkind : tree.kind = .program) :
    partsAt tree .item = tree.parts := by
  refine List.filter_eq_self.2 fun p hp => ?_
  have hrole := hformed.roles p hp
  rw [hkind] at hrole
  simpa using List.mem_singleton.1 hrole

theorem isTidy_block {id : Nat} {span : Span} {n : Node} :
    (Node.mk id span .block (partsAt n .item)).IsTidy := by
  refine ⟨fun r hitem _ => ?_, fun h => ?_, fun h => ?_⟩
  . rw [Node.IsSingle, Node.parts_mk, List.filter_eq_nil_iff.2]
    . exact Nat.zero_le _
    . intro p hp
      rw [role_of_mem_partsAt hp]
      simpa using hitem.symm
  . cases h
  . cases h

theorem isTidy_top {id : Nat} {span : Span} {body : Node} :
    (Node.mk id span (.functionExpression {}) [.node .body body]).IsTidy := by
  refine ⟨fun r _ _ => ?_, fun h => ?_, fun h => ?_⟩
  . exact List.length_filter_le _ _
  . cases h
  . cases h

theorem fit_program {i j : Nat} (hn : ∀ m ∈ tree.preorder, m.IsFormed)
    (htidy : ∀ m ∈ tree.preorder, m.IsTidy) :
    Fit [.node .body (Node.mk i tree.span (.functionExpression {})
      [.node .body (.mk j tree.span .block (partsAt tree .item))])] := by
  obtain ⟨hformed, hparts⟩ := isFormed_program (i := i) (j := j) hn
  refine fit_node.2 ⟨⟨hformed, isTidy_top⟩, ?_⟩
  refine fit_node.2 ⟨⟨(formed_node.1 hparts).1, isTidy_block⟩, fun m hm => ?_⟩
  have hmem : m ∈ tree.preorder := by
    rw [Node.preorder_eq]
    exact List.mem_cons_of_mem _ (mem_nodes_partsAt hm)
  exact ⟨hn m hmem, htidy m hmem⟩

theorem tally_block {h : Node → List Node} {x i : Nat} {span : Span} {parts : List Part} {r : Role}
    (hblock : h (.mk i span .block parts) = []) :
    Part.tally h x [.node r (.mk i span .block parts)] = Part.tally h x parts := by
  rw [Part.tally_node, hblock, Node.parts_mk, Part.tally_nil]
  simp

theorem dropped_top {i j : Nat} {span : Span} {parts : List Part} :
    (Node.mk i span (.functionExpression {}) [.node .body (.mk j span .block parts)]).dropped =
      ((prologue parts).find? isUseStrict).elim [] Node.preorder := rfl

theorem ends_program_moves (hn : tree.IsScript counters.node) (hkind : tree.kind = .program)
    (htidy : ∀ m ∈ tree.preorder, m.IsTidy) (h : Ends (program tree) { counters } () e) :
    ∃ node t u, t.functions.size = 1 ∧ counters.node ≤ node.id ∧ e.sites = u.sites ∧
      e.functions = u.functions.modify 0 (fun f => { f with node }) ∧
      Moves counters.node (fun x => (tree.droppedNodes.map (·.id)).count x)
        (fun x => Part.tally Node.memberValues x tree.parts) tree.parts node.parts t u := by
  have hitems := partsAt_program (hn.isFormed tree Node.mem_preorder_self) hkind
  obtain ⟨record, t, u, node, henters, hvisit, hend⟩ :=
    ends_enter (by rintro p ⟨⟩) (enters_of_program h)
  have hsize : t.functions.size = 1 := henters.size
  have hnumbers : t.counters.node = counters.node + 2 := henters.numbers
  have hfit := fit_program (i := counters.node + 1) (j := counters.node) hn.isFormed htidy
  obtain ⟨⟨hformed, htop⟩, hparts⟩ := fit_node.1 hfit
  have hmove : Mover counters.node (fun fn place n => Extract.visit n fn place) fun _ => True :=
    mover_visit
  obtain ⟨t', hsize', -, -, hid, hmoves⟩ := hmove.visitFunction (fun _ _ _ _ => trivial)
    hformed htop rfl hparts (fun _ _ => trivial) (hsize ▸ Nat.zero_lt_one) (by omega) hvisit
  refine ⟨node, t', u, by omega, ?_, by rw [hend], by rw [hend]; rfl, ?_⟩
  . rw [hid]
    exact Nat.le_of_lt (by simp only [Node.id_mk]; omega)
  . rw [hitems] at hmoves
    refine hmoves.balance ?_ ?_ ?_ ?_ fun _ => .inl
    . intro x hx
      have hroot : tree.dropped = [] := (dropped_of_not_site (by rw [hkind]; rfl)).1
      have hnew := count_of_lt (Nat.le_refl _) hx
      rw [Part.tally_node, Node.parts_mk, tally_block rfl, Node.times_eq, Node.droppedNodes,
        Node.preorder_eq, List.flatMap_cons, hroot, List.nil_append, List.map_append,
        List.count_append, Node.id_mk, hnew, Node.parts_mk, Part.times_nil, Part.tally_nil,
        dropped_top, ← Part.tally]
      omega
    . intro x
      rw [Node.parts_mk, tally_block rfl]
    . intro x
      rw [Node.parts_mk, tally_block rfl]
    . intro m hm
      rw [Node.parts_mk, Part.nodes_node, Part.nodes_nil, List.append_nil, Node.preorder_eq,
        List.mem_cons] at hm
      rcases hm with rfl | hm
      . exact .inr ⟨⟨rfl, Node.isComplete_of_isBare rfl⟩, .inl ⟨rfl, Nat.le_refl _⟩⟩
      . exact .inl hm

theorem parted_of (hn : tree.IsScript counters.node) (hkind : tree.kind = .program)
    (htidy : ∀ m ∈ tree.preorder, m.IsTidy) (h : Ends (program tree) { counters } () e) :
    Parted tree counters.node e := by
  obtain ⟨f₀, hf₀, -, -, -, hsite₀, -⟩ := ends_program_entered h
  obtain ⟨node, t, u, hsize, hid, hsites, hfunctions, hmoves⟩ :=
    ends_program_moves hn hkind htidy h
  have hget : ∀ i, e.functions[i]? = if 0 = i then u.functions[i]?.map fun f => { f with node }
      else u.functions[i]? := by
    intro i
    rw [hfunctions, Array.getElem?_modify]
  have hrest : ∀ i, 0 < i → e.functions[i]? = u.functions[i]? := by
    intro i hi
    rw [hget, if_neg (by omega)]
  have hnode₀ : f₀.node = node := by
    rw [hget, if_pos rfl] at hf₀
    obtain ⟨g, -, rfl⟩ := Option.map_eq_some_iff.1 hf₀
    rfl
  have hadded : ∀ {α : Type} (get : Function → α),
      e.functions.toList.map get = get f₀ :: added get t u :=
    fun get => added_cons (s := { counters }) get hsize hf₀ hrest
  have hfair : ∀ m, Fair counters.node tree.parts u m → Fair counters.node tree.parts e m :=
    fun m hm => hm.mono fun id hid => by rw [hsites]; exact hid
  refine ⟨?_, ?_, ?_, ?_, ?_⟩
  . intro x hx
    have hexact := hmoves.exact x hx
    have htrees : e.trees = .node .body node :: made t u := by
      unfold Extraction.trees
      rw [hadded, made_eq_added, hnode₀, added, added, List.map_drop, List.map_map]
      rfl
    rw [htrees, Node.times_eq, count_of_lt hid hx]
    omega
  . intro x
    have hnone : siteId f₀ = none := by rw [siteId, hsite₀]; rfl
    rw [hadded, hnone, List.count_cons]
    exact hmoves.births x
  . intro c f hf
    rcases Nat.eq_zero_or_pos c with rfl | hc
    . rw [hf₀] at hf
      cases hf
      rw [hnode₀]
      exact hid
    . exact hmoves.root c f (by omega) (hrest c hc ▸ hf)
  . intro c f hf m hm
    rcases Nat.eq_zero_or_pos c with rfl | hc
    . rw [hf₀] at hf
      cases hf
      rw [hnode₀] at hm
      exact hfair m (hmoves.fair m hm)
    . exact hfair m (hmoves.inner c f (by omega) (hrest c hc ▸ hf) m hm)
  . obtain ⟨ms, hms, hcount, hstems⟩ := hmoves.stems
    refine ⟨ms, fun x => ?_, fun c f hc hf => ?_⟩
    . rw [← hcount x]
      congr 1
      refine List.map_congr_left fun c hc => ?_
      have := hms c hc
      rw [hrest c (by omega)]
    . refine (hstems c f (by omega) (hrest c hc ▸ hf)).mono (fun i g hg => ?_)
        (covers_of_subset counters.node (List.Subset.refl _)) .rfl (.refl f)
      rw [hget]
      split
      . exact ⟨{ g with node }, by rw [hg]; rfl, rfl⟩
      . exact ⟨g, hg, rfl⟩

end Program

end Extract

namespace Node

variable {n tree : Node}

theorem nodes_part?_subset {r : Role} {c : Node} (h : n.part? r = some c) :
    c.preorder ⊆ Part.nodes n.parts :=
  fun _ hm => Part.mem_nodes_of_holds (holds_of_part? h) hm

theorem preorder_members_subset {m : Node} (hm : m ∈ n.members) :
    m.preorder ⊆ Part.nodes n.parts := by
  cases hbody : n.part? .body with
  | none =>
    rw [members, hbody] at hm
    cases hm
  | some body =>
    rw [members, hbody, Option.getD_some] at hm
    exact fun d hd => nodes_part?_subset hbody (preorder_subset (holds_of_mem_items hm) hd)

theorem dropped_subset : n.dropped ⊆ Part.nodes n.parts := by
  unfold dropped
  split
  . exact Extract.directive_subset n
  . split
    . cases hfind : n.members.find? isConstructor with
      | none => exact List.nil_subset _
      | some m =>
        have hsub := preorder_members_subset (List.mem_of_find?_eq_some hfind)
        have hinner : Part.nodes m.parts ⊆ Part.nodes n.parts := by
          refine List.Subset.trans ?_ hsub
          rw [preorder_eq]
          exact List.subset_cons_self _ _
        rw [Option.elim_some]
        refine List.cons_subset.2 ⟨hsub mem_preorder_self, List.append_subset.2 ⟨?_, ?_⟩⟩
        . cases hkey : m.part? .key with
          | none => exact List.nil_subset _
          | some key => exact List.Subset.trans (nodes_part?_subset hkey) hinner
        . intro d hd
          exact hinner (nodes_part?_subset (Option.mem_toList.1 hd) mem_preorder_self)
    . exact List.nil_subset _

theorem memberValues_subset : n.memberValues ⊆ Part.nodes n.parts := by
  unfold memberValues
  split
  . intro d hd
    obtain ⟨m, hm, hvalue⟩ := List.mem_filterMap.1 hd
    refine preorder_members_subset (List.mem_filter.1 hm).1 (preorder_subset ?_ mem_preorder_self)
    exact holds_of_part? hvalue
  . exact List.nil_subset _

theorem mem_preorder_of_mem_parts {m d : Node} (hm : m ∈ tree.preorder)
    (hd : d ∈ Part.nodes m.parts) :
    d ∈ tree.preorder := by
  refine preorder_trans hm ?_
  rw [preorder_eq]
  exact List.mem_cons_of_mem _ hd

end Node

namespace Extract

theorem tally_standing_le (x : Nat) (l : List Part) : Part.tally Node.standing x l ≤
    Part.times x l := by
  rw [Part.times_eq_tally]
  refine List.Sublist.count_le _ (List.Sublist.map _ ?_)
  induction Part.nodes l with
  | nil => exact .slnil
  | cons n rest ih =>
    rw [List.flatMap_cons, List.flatMap_cons]
    refine List.Sublist.append ?_ ih
    unfold Node.standing
    split
    . exact .refl _
    . exact List.nil_sublist _

theorem mem_of_tally_pos {h : Node → List Node} {x : Nat} {l : List Part}
    (hpos : 0 < Part.tally h x l) : ∃ n ∈ Part.nodes l, ∃ m ∈ h n, m.id = x := by
  obtain ⟨m, hm, hid⟩ := List.mem_map.1 (List.count_pos_iff.1 hpos)
  obtain ⟨n, hn, hm⟩ := List.mem_flatMap.1 hm
  exact ⟨n, hn, m, hm, hid⟩

theorem tally_pos_of_mem {h : Node → List Node} {l : List Part} {n m : Node} (hn : n ∈ Part.nodes l)
    (hm : m ∈ h n) : 0 < Part.tally h m.id l :=
  List.count_pos_iff.2 (List.mem_map_of_mem (List.mem_flatMap.2 ⟨n, hn, hm⟩))

section Script

variable {tree : Node} {bound : Nat} {e : Extraction}

theorem eq_of_id (hn : tree.IsScript bound) {m n : Node} (hm : m ∈ tree.preorder)
    (hn' : n ∈ tree.preorder) (hid : m.id = n.id) : m = n :=
  List.inj_on_of_nodup_map hn.nodup hm hn' hid

theorem mem_preorder_of_nodes {m : Node} (hm : m ∈ Part.nodes tree.parts) : m ∈ tree.preorder :=
  Node.mem_preorder_of_mem_parts Node.mem_preorder_self hm

theorem lt_of_mem_nodes (hn : tree.IsScript bound) {m : Node} (hm : m ∈ Part.nodes tree.parts) :
    m.id < bound :=
  hn.bound _ (List.mem_map_of_mem (mem_preorder_of_nodes hm))

theorem times_tree_le (hn : tree.IsScript bound) (x : Nat) : Part.times x tree.parts ≤ 1 := by
  have hone := List.nodup_iff_count_le_one.1 hn.nodup x
  rw [Node.ids, Node.preorder_eq, List.map_cons, List.count_cons] at hone
  exact Nat.le_trans (Nat.le_add_right _ _) hone

theorem not_mem_nodes_self (hn : tree.IsScript bound) : tree ∉ Part.nodes tree.parts := by
  have hnodup := hn.nodup
  rw [Node.ids, Node.preorder_eq, List.map_cons, List.nodup_cons] at hnodup
  exact fun hmem => hnodup.1 (List.mem_map_of_mem hmem)

theorem droppedNodes_subset : tree.droppedNodes ⊆ tree.preorder := by
  refine List.append_subset.2 ⟨?_, ?_⟩
  . intro m hm
    cases hd : (prologue tree.parts).find? isUseStrict with
    | none =>
      rw [hd] at hm
      cases hm
    | some d =>
      rw [hd] at hm
      obtain ⟨-, hheld⟩ := isDirective_of_mem_prologue (List.mem_of_find?_eq_some hd)
      exact Node.preorder_subset hheld hm
  . intro m hm
    obtain ⟨n, hn, hm⟩ := List.mem_flatMap.1 hm
    exact Node.mem_preorder_of_mem_parts hn (Node.dropped_subset hm)

namespace Parted

variable (hn : tree.IsScript bound) (he : e.IsSplit) (h : Parted tree bound e)

include hn h

theorem same_of_id {i : Nat} {f : Function} {m m' : Node} (hf : e.functions[i]? = some f)
    (hm' : m' ∈ Part.nodes f.node.parts) (hm : m ∈ Part.nodes tree.parts) (hid : m'.id = m.id) :
    Same m m' := by
  have hlt := lt_of_mem_nodes hn hm
  obtain ⟨hnew | ⟨n, hn', hsame⟩, -⟩ := h.inner i f hf m' hm'
  . omega
  . obtain rfl : n = m := eq_of_id hn (mem_preorder_of_nodes hn') (mem_preorder_of_nodes hm)
      (hsame.id.trans hid)
    exact hsame

theorem exists_place {m : Node} (hm : m ∈ Part.nodes tree.parts) (hkept : m ∉ tree.droppedNodes) :
    ∃ (i : Nat) (f : Function), e.functions[i]? = some f ∧ ∃ m' ∈ Part.nodes f.node.parts,
      Same m m' := by
  have hlt := lt_of_mem_nodes hn hm
  have hnone : (tree.droppedNodes.map (·.id)).count m.id = 0 := by
    rw [List.count_eq_zero]
    intro hmem
    obtain ⟨d, hd, hid⟩ := List.mem_map.1 hmem
    exact hkept (eq_of_id hn (droppedNodes_subset hd) (mem_preorder_of_nodes hm) hid ▸ hd)
  have hpos : 0 < Part.times m.id e.trees := by
    have := h.exact m.id hlt
    have := Part.times_pos_of_mem hm
    omega
  obtain ⟨m', hm', hid⟩ := List.mem_map.1 (List.count_pos_iff.1 hpos)
  obtain ⟨c, ⟨r, hc⟩, hm'⟩ := Part.exists_holds_of_mem_nodes hm'
  obtain ⟨f, hf, heq⟩ := List.mem_map.1 hc
  injection heq with _ heq
  rw [← heq, Node.preorder_eq, List.mem_cons] at hm'
  obtain ⟨i, hi⟩ := List.mem_iff_getElem?.1 hf
  rw [Array.getElem?_toList] at hi
  have hm' : m' ∈ Part.nodes f.node.parts := by
    refine hm'.resolve_left ?_
    rintro rfl
    have := h.root i f hi
    omega
  exact ⟨i, f, hi, m', hm', h.same_of_id hn hi hm' hm hid⟩

theorem not_inTree_of_dropped {m : Node} {i : Nat} (hm : m ∈ tree.droppedNodes) :
    ¬e.InTree i m.id := by
  intro hin
  have hpos := Extraction.IsSplit.times_pos_of_inTree hin
  have hlt := hn.bound _ (List.mem_map_of_mem (droppedNodes_subset hm))
  have hexact := h.exact m.id hlt
  have hone := times_tree_le hn m.id
  have hcount : 0 < (tree.droppedNodes.map (·.id)).count m.id :=
    List.count_pos_iff.2 (List.mem_map_of_mem hm)
  omega

include he

theorem exists_function {i : Nat} {f : Function} {m : Node} (hf : e.functions[i]? = some f)
    (hm : m ∈ Part.nodes f.node.parts) (hsite : m.kind.isSite = true) :
    m.IsDetached ∧ ∃ (c : Nat) (g : Function) (site : Node), e.sites.get? m.id = some c ∧
      e.functions[c]? = some g ∧ g.parent = some i ∧ g.site = some site ∧ Same m site := by
  obtain ⟨horigin, hsites⟩ := h.inner i f hf m hm
  obtain ⟨hdetached, hsome⟩ := hsites hsite
  obtain ⟨c, hc⟩ := Option.isSome_iff_exists.1 hsome
  obtain ⟨hpos, g, site, hg, hgsite, hid⟩ := he.sites m.id c hc
  obtain ⟨-, p, site', o, hp, hgsite', -, ho, hin⟩ := he.parent c g hpos hg
  obtain ⟨ms, -, hstems⟩ := h.stems
  obtain ⟨site'', -, -, n, hgsite'', -, -, hn', -, hsame, -⟩ := hstems c g hpos hg
  rw [hgsite] at hgsite' hgsite''
  cases hgsite'
  cases hgsite''
  have hthere : e.InTree p m.id := by
    refine ⟨o, ho, ?_⟩
    rw [← hid, Node.ids, Node.preorder_eq]
    exact List.mem_cons_of_mem _ hin
  have hhere : e.InTree i m.id :=
    ⟨f, hf, List.mem_map_of_mem (Node.mem_preorder_of_mem_parts Node.mem_preorder_self hm)⟩
  have hpi : p = i := he.eq_of_inTree hthere hhere
  have hsame' := h.same_of_id hn hf hm hn' (hid.symm.trans hsame.id.symm)
  exact ⟨hdetached, c, g, site, hc, hg, hpi ▸ hp, hgsite,
    ⟨hid.symm, hsame'.span.symm.trans hsame.span, hsame'.label.symm.trans hsame.label⟩⟩

omit he in
theorem eq_of_siteId {c c' x : Nat} {f f' : Function} (hf : e.functions[c]? = some f)
    (hf' : e.functions[c']? = some f') (hx : siteId f = some x)
      (hx' : siteId f' = some x) : c = c' := by
  have hone : (e.functions.toList.map siteId).count (some x) ≤ 1 :=
    Nat.le_trans (h.births x) (Nat.le_trans (tally_standing_le x _) (times_tree_le hn x))
  have hget : ∀ {c : Nat} {f : Function}, e.functions[c]? = some f → siteId f = some x →
      (e.functions.toList.map siteId)[c]? = some (some x) := by
    intro c f hf hx
    rw [List.getElem?_map, Array.getElem?_toList, hf, Option.map_some, hx]
  have hdistinct : ∀ {c c' : Nat}, c < c' → (e.functions.toList.map siteId)[c]? = some (some x) →
      (e.functions.toList.map siteId)[c']? = some (some x) → False := by
    intro c c' hlt hc hc'
    obtain ⟨hc, hcx⟩ := List.getElem?_eq_some_iff.1 hc
    obtain ⟨hc', hcx'⟩ := List.getElem?_eq_some_iff.1 hc'
    have hdup : List.Duplicate (some x) (e.functions.toList.map siteId) :=
      List.duplicate_iff_exists_distinct_get.2 ⟨⟨c, hc⟩, ⟨c', hc'⟩, hlt, hcx.symm, hcx'.symm⟩
    have htwo := (List.duplicate_iff_sublist.1 hdup).count_le (some x)
    simp only [List.count_cons_self, List.count_nil] at htwo
    omega
  rcases Nat.lt_trichotomy c c' with hlt | heq | hgt
  . exact (hdistinct hlt (hget hf hx) (hget hf' hx')).elim
  . exact heq
  . exact (hdistinct hgt (hget hf' hx') (hget hf hx)).elim

omit he in
theorem strict_iff {c : Nat} {f : Function} (hc : 0 < c) (hf : e.functions[c]? = some f) :
    ∃ site p g n, f.site = some site ∧ f.parent = some p ∧ e.functions[p]? = some g ∧
      n ∈ Part.nodes tree.parts ∧ n.kind.isSite = true ∧ Same n site ∧
      f.isConstructor = n.kind.isClass ∧
      (f.isStrict = true ↔ g.isStrict = true ∨ n.kind.isClass = true ∨
        (∃ cls ∈ Part.nodes tree.parts, n ∈ cls.memberValues) ∨
        n.kind.isFunction = true ∧ n.isStrictBody = true) := by
  obtain ⟨ms, hcount, hstems⟩ := h.stems
  obtain ⟨site, p, g, n, hsite, hp, hg, hn', hkind, hsame, hconstructor, hstrict⟩ :=
    hstems c f hc hf
  have hid : siteId f = some n.id := by rw [siteId, hsite, Option.map_some, hsame.id]
  have hmember : c ∈ ms ↔ ∃ cls ∈ Part.nodes tree.parts, n ∈ cls.memberValues := by
    constructor
    . intro hc
      have hpos : 0 < Part.tally Node.memberValues n.id tree.parts := by
        rw [← hcount, List.count_pos_iff, List.mem_map]
        exact ⟨c, hc, by rw [hf, Option.bind_some, hid]⟩
      obtain ⟨cls, hcls, m, hm, hmid⟩ := mem_of_tally_pos hpos
      have hm' := Node.mem_preorder_of_mem_parts (mem_preorder_of_nodes hcls)
        (Node.memberValues_subset hm)
      exact ⟨cls, hcls, eq_of_id hn hm' (mem_preorder_of_nodes hn') hmid ▸ hm⟩
    . rintro ⟨cls, hcls, hm⟩
      have hpos := tally_pos_of_mem hcls hm
      rw [← hcount, List.count_pos_iff, List.mem_map] at hpos
      obtain ⟨c', hc', hx⟩ := hpos
      obtain ⟨f', hf', hx⟩ := Option.bind_eq_some_iff.1 hx
      exact h.eq_of_siteId hn hf hf' hid hx ▸ hc'
  refine ⟨site, p, g, n, hsite, hp, hg, hn', hkind, hsame, hconstructor, ?_⟩
  rw [hstrict, hconstructor, ← hmember]
  simp only [Bool.or_eq_true, Bool.and_eq_true, decide_eq_true_eq, or_assoc]

end Parted

end Script

end Extract

namespace Extraction

open Lineage

variable {tree : Node} {counters : Counters} {e : Extraction}

theorem parent_iff {p i : Nat} : Parent e.lineage p i ↔
    ∃ f, e.functions[i]? = some f ∧ f.parent = some p := by
  unfold Parent Extraction.lineage
  simp only [Array.getElem?_map, Option.map_eq_some_iff]
  constructor
  . rintro ⟨_, ⟨f, hf, rfl⟩, hp⟩
    exact ⟨f, hf, hp⟩
  . rintro ⟨f, hf, hp⟩
    exact ⟨_, ⟨f, hf, rfl⟩, hp⟩

theorem idxOf_lt_of_inside (h : Forest e.functions none [0]
    (List.range e.functions.size) e.finished)
    {o i : Nat} (hi : Inside e.lineage o i) : e.finished.idxOf i < e.finished.idxOf o := by
  have hnodup : e.finished.Nodup := h.perm.nodup_iff.2 List.nodup_range
  have hchild : ∀ {p i : Nat}, Parent e.lineage p i → e.finished.idxOf i < e.finished.idxOf p := by
    intro p i hp
    obtain ⟨f, hf, hparent⟩ := parent_iff.1 hp
    have hmem : i ∈ List.range e.functions.size :=
      List.mem_range.2 (Array.getElem?_eq_some_iff.1 hf).1
    obtain ⟨f', hf', ⟨hnone, -⟩ | ⟨q, g, hq, hg, hparent', hchild⟩⟩ := h.parent_of_mem hmem
    . rw [hf] at hf'
      cases hf'
      rw [hparent] at hnone
      cases hnone
    . rw [hf] at hf'
      cases hf'
      rw [hparent] at hparent'
      cases hparent'
      exact h.idxOf_child_lt hnodup hq hg hchild
  have hwithin : ∀ {i : Nat}, Within e.lineage o i → e.finished.idxOf i ≤ e.finished.idxOf o := by
    intro i hi
    induction hi with
    | self => exact Nat.le_refl _
    | step hp _ ih => exact Nat.le_trans (Nat.le_of_lt (hchild hp)) ih
  obtain ⟨p, hp, hw⟩ := hi
  exact Nat.lt_of_lt_of_le (hchild hp) (hwithin hw)

end Extraction

def Node.asksStrict (n : Node) : Bool :=
  if n.kind == .program then Extract.asksStrict n.parts else n.kind.isFunction && n.isStrictBody

def Function.IsFrom (f : Function) (tree n : Node) : Prop :=
  f.site.elim (n = tree) fun site => n ∈ Part.nodes tree.parts ∧ Extract.Same n site

open Extract Lineage in
structure Extraction.IsPartition (e : Extraction) (tree : Node) (bound : Nat) : Prop where
  finished : e.finished.Perm (List.range e.functions.size) ∧
    ∀ o i, Inside e.lineage o i → e.finished.idxOf i < e.finished.idxOf o
  preorder : ∃ root, (∀ (i : Nat) (f : Function), e.functions[i]? = some f →
      (f.parent = none ↔ i = root)) ∧ root < e.functions.size ∧
    e.preorder root = List.range e.functions.size ∧ ∀ p i, Parent e.lineage p i → p < i
  sites : ∀ (i : Nat) (f : Function), e.functions[i]? = some f → ∀ m ∈ Part.nodes f.node.parts,
    m.kind.isSite = true → m.IsDetached ∧ ∃ (c : Nat) (g : Function) (site : Node),
      e.sites.get? m.id = some c ∧ e.functions[c]? = some g ∧ g.parent = some i ∧
        g.site = some site ∧ Same m site
  origin : ∀ (i : Nat) (f : Function), e.functions[i]? = some f → ∀ m ∈ Part.nodes f.node.parts,
    bound ≤ m.id ∨ ∃ n ∈ Part.nodes tree.parts, Same n m
  nodes : ∀ m ∈ Part.nodes tree.parts, m ∉ tree.droppedNodes → ∃! i : Nat, ∃ f : Function,
    e.functions[i]? = some f ∧ ∃ m' ∈ Part.nodes f.node.parts, Same m m'
  dropped : ∀ m ∈ tree.droppedNodes, ∀ i, ¬e.InTree i m.id
  strict : ∀ (i : Nat) (f : Function), e.functions[i]? = some f → ∃ n, f.IsFrom tree n ∧
    f.isConstructor = n.kind.isClass ∧ (f.isStrict = true ↔
      (∃ (p : Nat) (g : Function), f.parent = some p ∧ e.functions[p]? = some g ∧
        g.isStrict = true) ∨
      n.kind.isClass = true ∨ (∃ cls ∈ Part.nodes tree.parts, n ∈ cls.memberValues) ∨
      n.asksStrict = true)

open Extract in
/-- Taking a script apart leaves each of its nodes in one function. -/
theorem Extraction.isPartition_of {tree : Node} {counters : Counters} {e : Extraction}
    (hn : tree.IsScript counters.node) (hkind : tree.kind = .program)
    (htidy : ∀ m ∈ tree.preorder, m.IsTidy) (h : Extraction.of tree counters = .ok e) :
    e.IsPartition tree counters.node := by
  have hends := ends_of_run h
  have he := Extraction.isSplit_of hn h
  have hforest := forest_program hends
  have hparted := parted_of hn hkind htidy hends
  refine ⟨⟨hforest.perm, fun o i hi => idxOf_lt_of_inside hforest hi⟩, ?_, ?_, ?_, ?_, ?_, ?_⟩
  . obtain ⟨f₀, hf₀, hnone, -⟩ := he.program
    refine ⟨0, fun i f hf => ?_, (Array.getElem?_eq_some_iff.1 hf₀).1, ?_, fun p i hp => ?_⟩
    . constructor
      . intro hparent
        refine Nat.eq_zero_of_not_pos fun hpos => ?_
        obtain ⟨-, p, -, -, hp, -⟩ := he.parent i f hpos hf
        rw [hparent] at hp
        cases hp
      . rintro rfl
        rw [hf₀] at hf
        cases hf
        exact hnone
    . have hall := hforest.flatMap_descend (Nat.le_of_eq List.length_range)
      rwa [List.flatMap_singleton] at hall
    . exact he.isTree.before hp
  . exact fun i f hf m hm hsite => hparted.exists_function hn he hf hm hsite
  . exact fun i f hf m hm => (hparted.inner i f hf m hm).1
  . intro m hm hkept
    obtain ⟨i, f, hf, m', hm', hsame⟩ := hparted.exists_place hn hm hkept
    refine ⟨i, ⟨f, hf, m', hm', hsame⟩, ?_⟩
    rintro j ⟨g, hg, d, hd, hsame'⟩
    have hin : ∀ {i : Nat} {f : Function} {m' : Node}, e.functions[i]? = some f →
        m' ∈ Part.nodes f.node.parts → Same m m' → e.InTree i m.id := fun hf hm' hsame =>
      ⟨_, hf, hsame.id ▸ List.mem_map_of_mem (mem_preorder_of_nodes hm')⟩
    exact he.eq_of_inTree (hin hg hd hsame') (hin hf hm' hsame)
  . exact fun m hm i => hparted.not_inTree_of_dropped hn hm
  . intro i f hf
    rcases Nat.eq_zero_or_pos i with rfl | hpos
    . obtain ⟨f₀, hf₀, hparent, hstrict, hconstructor, hsite, -⟩ := ends_program_entered hends
      rw [hf₀] at hf
      cases hf
      refine ⟨tree, by rw [Function.IsFrom, hsite]; rfl, by rw [hconstructor, hkind]; rfl, ?_⟩
      have hmember : ¬∃ cls ∈ Part.nodes tree.parts, tree ∈ cls.memberValues := by
        rintro ⟨cls, hcls, hm⟩
        obtain ⟨c, hc, hcls⟩ := Part.exists_holds_of_mem_nodes hcls
        have hm := Node.mem_preorder_of_mem_parts hcls (Node.memberValues_subset hm)
        exact not_mem_nodes_self hn (Part.mem_nodes_of_holds hc hm)
      rw [hstrict, partsAt_program (hn.isFormed tree Node.mem_preorder_self) hkind]
      simp [Node.asksStrict, hkind, hparent, hmember, Kind.isClass]
    . obtain ⟨site, p, g, n, hsite, hp, hg, hn', hnsite, hsame, hconstructor, hstrict⟩ :=
        hparted.strict_iff hn hpos hf
      have hprogram : n.kind ≠ .program := fun hk => by
        rw [hk] at hnsite
        cases hnsite
      refine ⟨n, by rw [Function.IsFrom, hsite]; exact ⟨hn', hsame⟩, hconstructor, ?_⟩
      rw [hstrict]
      simp [Node.asksStrict, hprogram, hp, hg]

theorem Node.isTidy_iff {n : Node} : n.IsTidy ↔
    (∀ p ∈ n.parts, p.role ≠ .item → p.role ≠ .param →
      (n.parts.filter fun q => q.role == p.role).length ≤ 1) ∧
    (n.isConstructor = true → ∀ c ∈ n.part? .key, c.parts = []) ∧
    (n.kind = .methodDefinition → ∀ c ∈ n.part? .value, c.part? .name = none) := by
  constructor
  . exact fun h => ⟨fun p _ hitem hparam => h.single p.role hitem hparam, h.key, h.unnamed⟩
  . rintro ⟨hsingle, hkey, hunnamed⟩
    refine ⟨fun r hitem hparam => ?_, hkey, hunnamed⟩
    by_cases hr : ∃ p ∈ n.parts, p.role = r
    . obtain ⟨p, hp, rfl⟩ := hr
      exact hsingle p hp hitem hparam
    . rw [Node.IsSingle, List.filter_eq_nil_iff.2]
      . exact Nat.zero_le _
      . intro p hp
        simpa using fun heq => hr ⟨p, hp, heq⟩

instance {n : Node} : Decidable n.IsTidy := decidable_of_iff _ Node.isTidy_iff.symm

/-- The script `class A { constructor() {} m() {} } function f() { 'use strict'; }`. -/
def classAndFunction : Node :=
  let method (i : Nat) (key : String) (kind : MemberKind) : Part :=
    .node .item (.mk i default (.methodDefinition { kind })
      [.node .key (.mk (i + 1) default (.identifier key) []),
        .node .value (.mk (i + 2) default (.functionExpression {})
          [.node .body (.mk (i + 3) default .block [])])])
  let cls : Node := .mk 1 default .classDeclaration
    [.node .name (.mk 2 default (.identifier "A") []),
      .node .body (.mk 3 default .classBody [method 4 "constructor" .constructor,
        method 8 "m" .method])]
  let directive : Node := .mk 15 default .expressionStatement
    [.node .expression (.mk 16 default (.literal (.string "use strict") "'use strict'") [])]
  let function : Node := .mk 12 default (.functionDeclaration {})
    [.node .name (.mk 13 default (.identifier "f") []),
      .node .body (.mk 14 default .block [.node .item directive])]
  .mk 0 default .program [.node .item cls, .node .item function]

theorem Extraction.isPartition_of_classAndFunction :
    ∃ e, classAndFunction.IsScript 17 ∧ classAndFunction.kind = .program ∧
      (∀ m ∈ classAndFunction.preorder, m.IsTidy) ∧
      Extraction.of classAndFunction ⟨17, 0⟩ = .ok e ∧
      e.functions.toList.map (·.isStrict) = [false, true, true, true] ∧
      e.IsPartition classAndFunction 17 := by
  have hscript : classAndFunction.IsScript 17 := by decide +kernel
  have htidy : ∀ m ∈ classAndFunction.preorder, m.IsTidy := by decide +kernel
  have hstrict : ((Extraction.of classAndFunction ⟨17, 0⟩).toOption.map fun e =>
      e.functions.toList.map (·.isStrict)) = some [false, true, true, true] := by
    cbv
  cases he : Extraction.of classAndFunction ⟨17, 0⟩ with
  | error f =>
    rw [he] at hstrict
    cases hstrict
  | ok e =>
    rw [he] at hstrict
    exact ⟨e, hscript, rfl, htidy, rfl, Option.some.inj hstrict,
      isPartition_of hscript rfl htidy he⟩

end ScriptC
