import Mathlib
import ScriptC.Proofs.Analysis.Enriched
import ScriptC.Proofs.Bindings.Captures
import ScriptC.Proofs.Flow.Exprs
import ScriptC.Proofs.Function.Records
import ScriptC.Proofs.Function.Script
import ScriptC.Proofs.Lower.Texts

/-!
Function objects and what they capture. The code of a function reaches every declaration that it
uses, and hands each function that it makes the cells of what that one captures, in order.
-/

namespace ScriptC

open Lineage

namespace Captures

variable {c : Captures} {d i : Nat}

theorem decls_of_index? (h : c.index? d = some i) : c.decls[i]? = some d := by
  unfold index? at h
  rw [List.findIdx?_eq_some_iff_getElem] at h
  obtain ⟨hi, hd, -⟩ := h
  unfold decls
  rw [List.getElem?_map, List.getElem?_eq_getElem hi]
  simpa using hd

theorem not_mem_decls (h : c.index? d = none) : d ∉ c.decls := by
  unfold index? at h
  rw [List.findIdx?_eq_none_iff] at h
  intro hd
  obtain ⟨p, hp, rfl⟩ := List.mem_map.1 hd
  simpa using h p hp

end Captures

theorem Node.map_part? (n : Node) (r : Role) :
    (n.part? r).map (fun c => (c.id, c.kind == .super)) =
      (n.parts.map Part.sketch).findSome? fun s => if s.1 == r then s.2 else none := by
  unfold part?
  induction n.parts with
  | nil => rfl
  | cons p rest ih =>
    rw [List.map_cons, List.findSome?_cons, List.findSome?_cons, ← ih]
    cases p with
    | node role | hole role =>
      by_cases hr : role = r <;> simp [Part.sketch, Part.role, Part.node?, hr]

theorem Node.part?_of_shape {m m' c : Node} {r : Role} (h : m'.shape = m.shape)
    (hc : m.part? r = some c) :
    ∃ c', m'.part? r = some c' ∧ c'.id = c.id ∧ (c'.kind == .super) = (c.kind == .super) := by
  have hparts : m'.parts.map Part.sketch = m.parts.map Part.sketch := congrArg (·.2.2) h
  have hmap := m'.map_part? r
  rw [hparts, ← m.map_part? r, hc, Option.map_some, Option.map_eq_some_iff] at hmap
  obtain ⟨c', hc', heq⟩ := hmap
  rw [Prod.mk.injEq] at heq
  exact ⟨c', hc', heq⟩

structure Prepared (e : Extraction) (b b' : Bindings) : Prop where
  split : e.IsSplit
  settled : b.Settled e e.functions.size
  enriches : b.Enriches b'
  records : ∀ (f : Nat) (g : Function), e.functions[f]? = some g → ∃ u, Extract.IsRecord u g

theorem Extract.Recorded.exists_record {seed : Nat} {e : Extraction} (h : Extract.Recorded seed e)
    {f : Nat} {g : Function} (hg : e.functions[f]? = some g) : ∃ u, Extract.IsRecord u g := by
  obtain ⟨us, -, -, hrecords⟩ := h.numbers
  rw [← Array.getElem?_toList] at hg
  obtain ⟨hlt, hget⟩ := List.getElem?_eq_some_iff.1 hg
  have hrecord := hrecords.get (by rw [hrecords.length_eq]; exact hlt) hlt
  simp only [List.get_eq_getElem, hget] at hrecord
  exact ⟨_, hrecord⟩

namespace Prepared

open Bindings

theorem of_analysis {tree : Node} {counters : Counters} {e : Extraction} {b : Bindings}
    {a : Analysis} (htree : tree.IsScript counters.node) (he : Extraction.of tree counters = .ok e)
    (hb : Bindings.of e = .ok b) (ha : Analysis.of b = .ok a) : Prepared e b a.bindings where
  split := Extraction.isSplit_of htree he
  settled := Bindings.settled_of (Extraction.isSplit_of htree he) hb
  enriches := Analysis.enriches_of ha
  records _ _ hg := (Extraction.recorded_of he).exists_record hg

variable {e : Extraction} {b b' : Bindings} {fn : Nat} {g : Function} {m : Node}

theorem counters_pos (h : Prepared e b b') : 0 < e.counters.node := by
  obtain ⟨f, hf, -⟩ := h.split.program
  have hroot : e.InTree 0 f.node.id := ⟨f, hf, List.mem_map_of_mem Node.mem_preorder_self⟩
  have := h.split.lt_of_inTree hroot
  omega

theorem exists_inTree_of_site (h : Prepared e b b') {id child : Nat}
    (hchild : b'.sites.get? id = some child) : ∃ p, e.InTree p id ∧ Parent e.lineage p child := by
  rw [h.enriches.sites, h.settled.linked.sites] at hchild
  obtain ⟨hpos, f, site, hf, hsite, rfl⟩ := h.split.sites id child hchild
  obtain ⟨-, p, site', g, hparent, hsite', -, hg, hin⟩ := h.split.parent child f hpos hf
  rw [hsite] at hsite'
  cases hsite'
  refine ⟨p, ⟨g, hg, ?_⟩, f.lineage, ?_, hparent⟩
  . rw [Node.ids, Node.preorder_eq, List.map_cons]
    exact List.mem_cons_of_mem _ hin
  . unfold Extraction.lineage
    rw [Array.getElem?_map, hf]
    rfl

theorem function_eq_default (h : Prepared e b b') (hg : e.functions[fn]? = none) :
    b'.function fn = default := by
  have hsize := congrArg Array.size h.settled.linked.functions
  simp only [Array.size_map] at hsize
  have hnone : b'.functions[fn]? = none := by
    rw [Array.getElem?_eq_none_iff] at hg ⊢
    rw [h.enriches.size_eq, hsize]
    exact hg
  unfold Bindings.function
  rw [Array.getD_eq_getD_getElem?, hnone]
  rfl

theorem exists_function (h : Prepared e b b') (hm : m ∈ Part.nodes (b'.function fn).node.parts) :
    ∃ g, e.functions[fn]? = some g := by
  cases hg : e.functions[fn]? with
  | some g => exact ⟨g, rfl⟩
  | none =>
    rw [h.function_eq_default hg] at hm
    cases hm

theorem origin (h : Prepared e b b') (hg : e.functions[fn]? = some g)
    (hm : m ∈ Part.nodes (b'.function fn).node.parts) :
    (∃ m₀ ∈ Part.nodes g.innerParts, m.shape = m₀.shape) ∨
      m.kind ∈ [.literal, .member, .globalObject, .identifier] ∧
        (b.counters.node ≤ m.id ∨ ∃ m₀ ∈ Part.nodes g.innerParts, m.id = m₀.id) := by
  have hfn := (Array.getElem?_eq_some_iff.1 hg).1
  have htree := h.settled.tree fn g hfn hg
  rcases h.enriches.trees fn m hm with ⟨m₁, hm₁, hshape⟩ | ⟨hkind, hid⟩
  . obtain ⟨m₀, hm₀, hshape' | ⟨-, hkind, hid⟩⟩ := Node.exists_of_becomes htree hm₁
    . exact .inl ⟨m₀, hm₀, hshape.trans hshape'⟩
    . rw [← Node.kind_of_shape hshape] at hkind
      rw [← Node.id_of_shape hshape] at hid
      exact .inr ⟨by simp [hkind], .inr ⟨m₀, hm₀, hid⟩⟩
  . refine .inr ⟨List.mem_cons_of_mem _ hkind, hid.imp_right ?_⟩
    rintro ⟨m₁, hm₁, hid⟩
    obtain ⟨m₀, hm₀, hcase⟩ := Node.exists_of_becomes htree hm₁
    refine ⟨m₀, hm₀, hid.trans ?_⟩
    exact hcase.elim Node.id_of_shape fun h => h.2.2

theorem reaches_resolved (h : Prepared e b b') (hg : e.functions[fn]? = some g)
    (hm : m ∈ Part.nodes (b'.function fn).node.parts) {d : Nat} (hd : b'.resolved? m = some d) :
    b.Reaches fn d := by
  rw [h.enriches.resolved?_eq] at hd
  obtain ⟨u, hu, hd⟩ := Option.bind_eq_some_iff.1 hd
  obtain ⟨decl, hdecl, hcase⟩ := h.settled.linked.uses m.id u d hu hd
  have hcounters := h.settled.linked.counters
  have hold : ∀ m₀ ∈ Part.nodes g.innerParts, m.id = m₀.id → b.Reaches fn d := by
    intro m₀ hm₀ hid
    have htree := Resolve.inTree_of_mem h.split hg hm₀
    rw [← hid] at htree
    rcases hcase with ⟨f, hf, hcase⟩ | hnew
    . obtain rfl := h.split.eq_of_inTree htree hf
      exact ⟨decl, hdecl, hcase⟩
    . have := h.split.lt_of_inTree htree
      omega
  rcases h.origin hg hm with ⟨m₀, hm₀, hshape⟩ | ⟨-, hlow | ⟨m₀, hm₀, hid⟩⟩
  . exact hold m₀ hm₀ (Node.id_of_shape hshape)
  . rcases hcase with ⟨f, hf, -⟩ | hnew
    . have := h.split.lt_of_inTree hf
      omega
    . omega
  . exact hold m₀ hm₀ hid

theorem parent_of_site_mem (h : Prepared e b b') (hg : e.functions[fn]? = some g)
    (hm : m ∈ Part.nodes (b'.function fn).node.parts) {child : Nat}
    (hchild : b'.sites.get? m.id = some child) : Parent e.lineage fn child := by
  have hold : ∀ m₀ ∈ Part.nodes g.innerParts, m.id = m₀.id → Parent e.lineage fn child := by
    intro m₀ hm₀ hid
    obtain ⟨p, hp, hparent⟩ := h.exists_inTree_of_site hchild
    have htree := Resolve.inTree_of_mem h.split hg hm₀
    rw [← hid] at htree
    rwa [h.split.eq_of_inTree htree hp]
  rcases h.origin hg hm with ⟨m₀, hm₀, hshape⟩ | ⟨-, hlow | ⟨m₀, hm₀, hid⟩⟩
  . exact hold m₀ hm₀ (Node.id_of_shape hshape)
  . obtain ⟨p, hp, -⟩ := h.exists_inTree_of_site hchild
    have := h.split.lt_of_inTree hp
    have := h.settled.linked.counters
    omega
  . exact hold m₀ hm₀ hid

theorem words_thisOwner (h : Prepared e b b') (hg : e.functions[fn]? = some g) :
    b.HasWords (b.thisOwner fn) := by
  have hlt : fn < e.lineage.size := by
    unfold Extraction.lineage
    rw [Array.size_map]
    exact (Array.getElem?_eq_some_iff.1 hg).1
  obtain ⟨o, l, hthis, -, hl, harrow⟩ := h.split.isTree.exists_thisOwner hlt
  unfold Extraction.lineage at hl
  rw [Array.getElem?_map, Option.map_eq_some_iff] at hl
  obtain ⟨f, hf, rfl⟩ := hl
  have ho : b.thisOwner fn = o := by
    unfold thisOwner
    rw [lineage_of_frame h.settled.linked.functions, hthis]
    rfl
  rw [ho]
  exact h.settled.own o f (Array.getElem?_eq_some_iff.1 hf).1 hf harrow

theorem shape_of_kind (h : Prepared e b b') (hg : e.functions[fn]? = some g)
    (hm : m ∈ Part.nodes (b'.function fn).node.parts)
    (hkind : m.kind ∉ [.literal, .member, .globalObject, .identifier]) :
    ∃ m₀ ∈ Part.nodes g.innerParts, m.shape = m₀.shape ∧ e.InTree fn m.id := by
  rcases h.origin hg hm with ⟨m₀, hm₀, hshape⟩ | ⟨hplain, -⟩
  . refine ⟨m₀, hm₀, hshape, ?_⟩
    rw [Node.id_of_shape hshape]
    exact Resolve.inTree_of_mem h.split hg hm₀
  . exact (hkind hplain).elim

theorem words_eq (h : Prepared e b b') (i : Nat) :
    (b'.function i).words = (b.function i).words := by
  have hwords := congrArg Function.words (h.enriches.given_eq (i := i))
  exact hwords

theorem this_of_constructor (h : Prepared e b b') (hctor : (b'.function fn).isConstructor = true) :
    ∃ this, (b'.function fn).this = some this ∧ b.DeclIn fn this := by
  have hgiven := congrArg (·.isConstructor) (h.enriches.given_eq (i := fn))
  change (b'.function fn).isConstructor = (b.function fn).isConstructor at hgiven
  cases hg : e.functions[fn]? with
  | none =>
    rw [h.function_eq_default hg] at hctor
    cases hctor
  | some g =>
    have hframe := (h.settled.linked.frame_function hg).1
    have hsame := congrArg (·.isConstructor) hframe
    change (b.function fn).isConstructor = g.isConstructor at hsame
    rw [hgiven, hsame] at hctor
    obtain ⟨u, hrecord⟩ := h.records fn g hg
    obtain ⟨this, target, value, hwords, hdecl, -⟩ := h.settled.own fn g
      (Array.getElem?_eq_some_iff.1 hg).1 hg (hrecord.notArrow hctor)
    have hthis := (congrArg (·.2.1) (h.words_eq fn)).trans (congrArg (·.2.1) hwords)
    exact ⟨this, hthis, hdecl⟩

theorem unreserved_cname (h : Prepared e b b') (child : Nat) :
    C.Unreserved (b'.function child).cname.toList := by
  cases hg : e.functions[child]? with
  | none =>
    rw [h.function_eq_default hg]
    unfold C.Unreserved
    decide
  | some g =>
    obtain ⟨u, hrecord⟩ := h.records child g hg
    have hgiven := congrArg (·.cname) (h.enriches.given_eq (i := child))
    have hframe := congrArg (·.cname) (h.settled.linked.frame_function hg).1
    have hname : (b'.function child).cname = g.cname := hgiven.trans hframe
    have htext : (b'.function child).cname.toList =
        "func_".toList ++ (C.identText g.name).toList ++ '_' :: u.repr.toList := by
      simp [hname, hrecord.cname, ToString.toString]
    have hall : (b'.function child).cname.toList.all C.isNameChar = true := by
      simp only [htext, List.all_append, List.all_cons, C.isNameChar_identText, C.isNameChar_digits]
      decide
    unfold C.Unreserved
    rw [C.words_of_all hall, List.forall_mem_singleton, htext]
    simp [C.isReserved, C.isTemporary, C.stems, List.isPrefixOf_cons_cons]

end Prepared

namespace Lower

/--
The arguments with which a function makes another one inside of it. For each declaration that is
captured there is its own cell: the variable that points to it, or the capture of the function
itself.
-/
def HandsOn (b : Bindings) (names : CNames) (fn : Nat) (args : List C.Expr) : Prop :=
  ∃ child name cells, Parent b.lineage fn child ∧
    args = functionArgs (b.function child) (.lit name) ++ cells ∧
    List.Forall₂ (fun d c => (b.decl d).isCaptured = true ∧
      if (b.decl d).owner = fn then ∃ s, names.name? d = some s ∧ c = C.Expr.var s
      else ∃ i : Nat, (b.function fn).captures.decls[i]? = some d ∧
        c = C.Expr.var s!"closures[{i}]") (b.function child).captures.decls cells

structure Caches (plan : Plan) (caches : Nat → Nat → Prop) : Prop where
  zero : ∀ fn slot, plan.analysis.slots.get? 0 = some slot → caches fn slot
  node : ∀ fn, ∀ m ∈ Part.nodes (plan.analysis.bindings.function fn).node.parts,
    ∀ slot, plan.analysis.slots.get? m.id = some slot → caches fn slot

def capturing {plan : Plan} {e : Extraction} {b : Bindings} {caches : Nat → Nat → Prop}
    (h : Prepared e b plan.analysis.bindings) {names : CNames} {last : Nat}
    (hnames : names.Proper plan.analysis.bindings last) (hcaches : Caches plan caches) :
    Knowledge plan where
  at_ fn := Calls.reading {
    plan, fn
    final := fun t => t.Le names
    faults := fun f => ¬f.IsCapture
    reaches := b.Reaches fn
    makes := Parent e.lineage fn
    allows := fun f args => f = Engine.newFunction → HandsOn plan.analysis.bindings names fn args
    final_of_le := .trans
    faults_of_other := fun _ hf _ => hf
    faults_capture := by
      rintro d ⟨decl, hdecl, hcase⟩ howner hindex
      rw [h.enriches.owner_eq, Bindings.decl_of_get? hdecl] at howner
      rw [h.enriches.captures_eq] at hindex
      exact absurd (hcase.resolve_left howner) (Captures.not_mem_decls hindex)
    reaches_zero := by
      intro d hd
      obtain ⟨u, hu, hd⟩ := Option.bind_eq_some_iff.1 hd
      rw [h.enriches.uses] at hu
      obtain ⟨-, -, ⟨f, hf, -⟩ | hnew⟩ := h.settled.linked.uses 0 u d hu hd
      . exact absurd (h.split.pos_of_inTree hf) (Nat.lt_irrefl 0)
      . have := h.counters_pos
        omega
    makes_zero := by
      intro child hchild
      obtain ⟨p, hp, -⟩ := h.exists_inTree_of_site hchild
      exact absurd (h.split.pos_of_inTree hp) (Nat.lt_irrefl 0)
    reaches_captures := by
      intro child hparent d hd
      rw [h.enriches.captures_eq] at hd
      obtain ⟨decl, p, hdecl, -, hparent', hcase⟩ := h.settled.linked.captures child d hd
      rw [hparent.unique hparent']
      exact ⟨decl, hdecl, hcase⟩
    allows_ordinary := by
      rintro f args hf rfl
      exact absurd hf (by decide)
    allows_function := by
      intro child name cells hparent hcells _
      have hlineage : plan.analysis.bindings.lineage = e.lineage := by
        rw [h.enriches.lineage_eq, Bindings.lineage_of_frame h.settled.linked.functions]
      refine ⟨child, name, cells, by rwa [hlineage], rfl, ?_⟩
      have hcaptured : ∀ d ∈ (plan.analysis.bindings.function child).captures.decls,
          (plan.analysis.bindings.decl d).isCaptured = true := by
        intro d hd
        rw [h.enriches.captures_eq] at hd
        rw [h.enriches.isCaptured_eq]
        exact (h.settled.linked.captures_path h.split hd).1
      refine ((List.forall₂_and_left _ _).2 ⟨hcaptured, hcells⟩).imp ?_
      rintro d c ⟨hd, hc⟩
      refine ⟨hd, ?_⟩
      by_cases howner : (plan.analysis.bindings.decl d).owner = fn
      . rw [IsCell, if_pos howner] at hc
        rw [if_pos howner]
        obtain ⟨s, ⟨t, hle, hs⟩, rfl⟩ := hc
        exact ⟨s, hle d s hs, by rw [if_pos hd]⟩
      . rw [IsCell, if_neg howner] at hc
        rw [if_neg howner]
        obtain ⟨i, hi, rfl⟩ := hc
        exact ⟨i, Captures.decls_of_index? hi, rfl⟩ } (.using (caches fn))
    (fun t hle => ⟨last, hnames.of_le hle⟩) (fun child _ => h.unreserved_cname child)
    (hcaches.zero fn)
  plan_eq _ := rfl
  fn_eq _ := rfl

theorem fitsFunction_of_suits {S : Setting} (hstack : S.stack = 0) (hreserved : S.reserved = none)
    (h : ∀ m ∈ Part.nodes S.function.node.parts, S.Suits m) (hwhole : S.Whole) :
      S.FitsFunction := by
  have hfits : ∀ n, (∀ m ∈ n.preorder, m ∈ Part.nodes S.function.node.parts) → S.Fits n :=
    fun n hn => Setting.fits_of_reserved_none hreserved fun m hm => h m (hn m hm)
  refine ⟨hstack, fun p hp => ?_, fun c hc => ?_, hwhole⟩
  . exact hfits p fun m hm => Part.mem_nodes_of_holds (Node.holds_of_mem_nodesAt hp) hm
  . refine hfits c fun m hm => ?_
    unfold Function.body at hc
    cases hbody : S.function.node.part? .body with
    | none =>
      rw [hbody] at hc
      cases hc
    | some body =>
      rw [hbody] at hc
      exact Part.mem_nodes_of_holds (Node.holds_of_part? hbody)
        (Node.preorder_subset (Node.holds_of_mem_items hc) hm)

section

variable {plan : Plan} {e : Extraction} {b : Bindings} (h : Prepared e b plan.analysis.bindings)
  {names : CNames} {last : Nat} (hnames : names.Proper plan.analysis.bindings last)
  {caches : Nat → Nat → Prop} (hcaches : Caches plan caches) {fn : Nat} {m : Node}

theorem suits_capturing (hm : m ∈ Part.nodes (plan.analysis.bindings.function fn).node.parts) :
    ((capturing h hnames hcaches).at_ fn).Suits m := by
  obtain ⟨g, hg⟩ := h.exists_function hm
  have hfn := (Array.getElem?_eq_some_iff.1 hg).1
  obtain ⟨this, target, value, hwords, -⟩ := h.words_thisOwner hg
  have howner : (plan.analysis.bindings.function (plan.analysis.bindings.thisOwner fn)).words =
      ((b.function (b.thisOwner fn)).lineage, some this, some target, some value) := by
    rw [h.enriches.thisOwner_eq, h.words_eq, hwords]
  simp only [Function.words, Prod.mk.injEq] at hwords howner
  have hin : ∀ kind, m.kind = kind → kind ∉ [.literal, .member, .globalObject, .identifier] →
      ∃ m₀ ∈ Part.nodes g.innerParts, m.shape = m₀.shape ∧ e.InTree fn m.id := by
    rintro kind rfl hkind
    exact h.shape_of_kind hg hm hkind
  constructor
  case resolved => exact fun d hd => h.reaches_resolved hg hm hd
  case site => exact fun child hchild => h.parent_of_site_mem hg hm hchild
  case cached => exact fun slot hslot => hcaches.node fn m hm slot hslot
  case super =>
    intro hkind
    obtain ⟨m₀, hm₀, hshape, -⟩ := hin _ hkind (by decide)
    change b.Reaches fn
      ((plan.analysis.bindings.function (plan.analysis.bindings.thisOwner fn)).this.getD 0)
    rw [howner.2.1]
    exact h.settled.super fn g hfn hg m₀ hm₀ ((Node.kind_of_shape hshape).symm.trans hkind) this
      hwords.2.1
  case superCall =>
    intro hkind hcallee d hd
    obtain ⟨m₀, hm₀, hshape, -⟩ := hin _ hkind (by decide)
    obtain ⟨c, hc, hsuper⟩ := (Option.any_eq_true _ _).1 hcallee
    obtain ⟨c₀, hc₀, -, hsame⟩ := Node.part?_of_shape hshape.symm hc
    have hpart := Extract.partsAt_subset _ _ (Node.exists_of_part? hc₀)
    refine h.settled.superCall fn g hfn hg m₀ hm₀ ((Node.kind_of_shape hshape).symm.trans hkind) c₀
      hpart ?_ d ?_
    . simpa using hsame.trans hsuper
    . change (plan.analysis.bindings.function (plan.analysis.bindings.thisOwner fn)).newTarget =
        some d at hd
      rw [howner.2.2.1] at hd
      rwa [hwords.2.2.1]
  case ownName =>
    intro hkind d hd
    obtain ⟨c, hc, hresolved⟩ := Option.bind_eq_some_iff.1 hd
    obtain ⟨r, hpart⟩ := Node.holds_of_part? hc
    exact h.reaches_resolved hg (Resolve.mem_nodes_of_part hm hpart) hresolved
  case declared =>
    intro hkind
    obtain ⟨m₀, hm₀, hshape, -⟩ := hin m.kind rfl (by rcases hkind with h | h <;> rw [h] <;> decide)
    rw [Node.kind_of_shape hshape] at hkind
    obtain ⟨c₀, hc₀, -, u, d, decl, hu, hd, hdecl, howner⟩ :=
      h.settled.named fn g hfn hg m₀ hm₀ hkind
    obtain ⟨c, hc, hid, -⟩ := Node.part?_of_shape hshape hc₀
    have hresolved : plan.analysis.bindings.resolved? c = some d := by
      rw [h.enriches.resolved?_eq]
      unfold Bindings.resolved? Bindings.use?
      rw [hid, hu]
      exact hd
    change b.Reaches fn (((m.part? .name).bind plan.analysis.bindings.resolved?).getD 0)
    rw [hc, Option.bind_some, hresolved]
    exact ⟨decl, hdecl, .inl howner⟩
  case hoisted =>
    intro hkind outer houter
    obtain ⟨-, -, -, htree⟩ := hin _ hkind (by decide)
    change plan.analysis.bindings.aliases.get? m.id = some outer at houter
    rw [h.enriches.aliases] at houter
    obtain ⟨-, -, f, u, d, decl, hf, hu, hd, hdecl, rfl⟩ :=
      h.settled.linked.aliases m.id outer houter
    have hresolved : plan.analysis.bindings.resolved? outer = some d := by
      rw [h.enriches.resolved?_eq]
      unfold Bindings.resolved? Bindings.use?
      rw [hu]
      exact hd
    change b.Reaches fn ((plan.analysis.bindings.resolved? outer).getD 0)
    rw [hresolved]
    exact ⟨decl, hdecl, .inl (h.split.eq_of_inTree hf htree)⟩
  case full => exact False.elim

theorem fitsFunction_capturing (fn : Nat) : ((capturing h hnames hcaches).at_ fn).FitsFunction := by
  refine fitsFunction_of_suits rfl rfl (fun m hm => suits_capturing h hnames hcaches hm) ?_
  intro hderived
  change ((plan.analysis.bindings.function fn).isConstructor &&
    (plan.analysis.bindings.function fn).isDerived) = true at hderived
  change b.Reaches fn ((plan.analysis.bindings.function fn).this.getD 0)
  rw [Bool.and_eq_true] at hderived
  obtain ⟨this, hthis, decl, hdecl, howner⟩ := h.this_of_constructor hderived.1
  rw [hthis]
  exact ⟨decl, hdecl, .inl howner⟩

theorem not_fails_newFunction {child : Nat} {w : Writer} {f : Fault}
    (hcaptures : (plan.analysis.bindings.function child).captures.decls = []) :
    ¬Fails plan (newFunction child) w f := by
  intro hf
  unfold newFunction at hf
  rcases fails_bind.1 hf with hf | ⟨b, w₁, hb, hrest⟩
  . exact not_fails_bindings hf
  rw [(runs_bindings.1 hb).1] at hrest
  rcases fails_bind.1 hrest with hf | ⟨_, w₂, -, hrest⟩
  . exact not_fails_modify hf
  rcases fails_bind.1 hrest with hf | ⟨name, w₃, -, hrest⟩
  . exact not_fails_string hf
  rw [hcaptures] at hrest
  rcases fails_bind.1 hrest with hf | ⟨cells, w₄, -, hrest⟩
  . exact not_fails_pure hf
  dsimp only at hrest
  split at hrest <;> exact not_fails_pure hrest

theorem slot_of_storage {d : Nat} {w w' : Writer} {x : C.Expr}
    (howner : (plan.analysis.bindings.decl d).owner ≠ w.fn) (hr : Runs plan (storage d) w x w') :
    ∃ i : Nat, (plan.analysis.bindings.function w.fn).captures.decls[i]? = some d ∧
      x = .var s!"(*closures[{i}])" := by
  obtain ⟨b, w₁, hb, hread⟩ := runs_bind.1 hr
  obtain ⟨rfl, rfl⟩ := runs_bindings.1 hb
  obtain ⟨v, w₂, hv, hcase⟩ := runs_bind.1 hread
  obtain ⟨rfl, rfl⟩ := runs_get.1 hv
  rw [if_neg (by simpa using howner)] at hcase
  obtain ⟨i, w₃, hslot, hpure⟩ := runs_bind.1 hcase
  refine ⟨i, ?_, (runs_pure.1 hpure).1⟩
  obtain ⟨f, w₄, hf, hindex⟩ := runs_bind.1 hslot
  obtain ⟨rfl, rfl⟩ := runs_function.1 hf
  split at hindex
  . next j hj =>
    rw [(runs_pure.1 hindex).1]
    exact Captures.decls_of_index? hj
  . obtain ⟨_, _, -, hthrow⟩ := runs_bind.1 hindex
    exact (not_runs_throw hthrow).elim

theorem pointee_of_storage {d : Nat} {w w' : Writer} {x : C.Expr}
    (howner : (plan.analysis.bindings.decl d).owner = w.fn)
    (hcaptured : (plan.analysis.bindings.decl d).isCaptured = true)
    (hr : Runs plan (storage d) w x w') :
    ∃ s, w'.names.name? d = some s ∧ x = .var ("(*" ++ s ++ ")") := by
  obtain ⟨b, w₁, hb, hread⟩ := runs_bind.1 hr
  obtain ⟨rfl, rfl⟩ := runs_bindings.1 hb
  obtain ⟨v, w₂, hv, hcase⟩ := runs_bind.1 hread
  obtain ⟨rfl, rfl⟩ := runs_get.1 hv
  rw [if_pos (by simpa using howner)] at hcase
  obtain ⟨name, w₃, hname, hpure⟩ := runs_bind.1 hcase
  obtain ⟨rfl, rfl⟩ := runs_pure.1 hpure
  exact ⟨name, name?_of_runs_nameOf hname, by rw [if_pos hcaptured]⟩

theorem caches_all (plan : Plan) : Caches plan fun _ _ => True :=
  ⟨fun _ _ _ => trivial, fun _ _ _ _ _ => trivial⟩

include h in
theorem not_isCapture_of_compile {f : Fault} (hf : plan.compile = .error f) : ¬f.IsCapture := by
  have hnames := proper_startOf plan
  rcases faults_of_compile (capturing h hnames (caches_all plan))
    (fitsFunction_capturing h hnames (caches_all plan)) hf with ⟨fn, hf⟩ | ⟨w, -, -, hf⟩
  . exact hf
  . refine absurd hf (not_fails_newFunction ?_)
    rw [h.enriches.captures_eq]
    exact h.settled.linked.root_captures h.split

/-- A call makes the function `f` with some cells, maybe as a coroutine. -/
def Makes (f : Function) (cells : List C.Expr) (x : C.Expr) : Prop :=
  ∃ name made, made = .call Engine.newFunction (functionArgs f name ++ cells) ∧
    (x = made ∨ ∃ kind, x = .callEnv Engine.newCoroutine [made, kind])

theorem makes_of_newFunction {child : Nat} {w w' : Writer} {x : C.Expr}
    (hcaptures : (plan.analysis.bindings.function child).captures.decls = [])
    (hr : Runs plan (newFunction child) w x w') :
    Makes (plan.analysis.bindings.function child) [] x := by
  unfold newFunction at hr
  obtain ⟨_, _, hb, hmade⟩ := runs_bind.1 hr
  obtain ⟨rfl, rfl⟩ := runs_bindings.1 hb
  obtain ⟨_, _, -, hmade⟩ := runs_bind.1 hmade
  obtain ⟨name, _, -, hmade⟩ := runs_bind.1 hmade
  obtain ⟨cells, _, hcells, hmade⟩ := runs_bind.1 hmade
  rw [hcaptures] at hcells
  obtain ⟨rfl, -⟩ := runs_pure.1 hcells
  dsimp only at hmade
  refine ⟨name, _, rfl, ?_⟩
  split at hmade
  . exact .inl (runs_pure.1 hmade).1
  . exact .inr ⟨_, (runs_pure.1 hmade).1⟩

include h in
theorem FileRun.makes {code : String} {blocks : List C.Stmt} {v w : Writer} {program : C.Expr}
    (hfile : FileRun plan code blocks v program w) :
    Makes (plan.analysis.bindings.function 0) [] program := by
  obtain ⟨_, _, -, hmade⟩ := runs_bind.1 hfile.main
  refine makes_of_newFunction ?_ hmade
  rw [h.enriches.captures_eq]
  exact h.settled.linked.root_captures h.split

theorem FileRun.proper {code : String} {blocks : List C.Stmt} {v w : Writer} {program : C.Expr}
    (hfile : FileRun plan code blocks v program w) :
    v.names.Proper plan.analysis.bindings v.lastName :=
  ((functionBlocks_bodied (ordinary plan) (fun fn _ => fitsFunction_ordinary plan fn)
    (proper_startOf plan)).1 blocks v hfile.functions).1

theorem isOpen_capturing (fn : Nat) : ((capturing h hnames hcaches).at_ fn).IsOpen := by
  constructor
  case shows => exact fun _ => trivial
  case temporary =>
    rintro _ ⟨stem, hstem, id, rfl⟩
    exact C.uses_temporary hstem id
  case name =>
    intro last text htext
    have hfree := C.unreserved_isName htext
    refine ⟨C.uses_of_unreserved hfree, C.uses_of_unreserved ?_⟩
    rw [String.toList_append]
    exact (C.unreserved_cons (c := '*') (by decide)).2 hfree
  case calls => exact fun f args hf heq => absurd heq hf

theorem FileRun.holds {code : String} {blocks : List C.Stmt} {v w : Writer} {program : C.Expr}
    (hfile : FileRun plan code blocks v program w) :
    List.Forall₂ (fun fn st => st.Holds ((capturing h hfile.proper hcaches).at_ fn).Part)
      (List.range plan.analysis.bindings.functions.size) blocks := by
  obtain ⟨-, -, hbodied⟩ := (functionBlocks_bodied (capturing h hfile.proper hcaches)
    (fun fn _ => fitsFunction_capturing h hfile.proper hcaches fn) (proper_startOf plan)).1
    blocks v hfile.functions
  refine (hbodied fun _ _ => CNames.Le.refl _).imp fun fn st hst => ?_
  have hfits := fitsFunction_capturing h hfile.proper hcaches fn
  exact (Composes.mk (sound_upTo _) hfits.whole (isOpen_capturing h hfile.proper hcaches fn)).bodied
    hfits hst

def termsOf (b : Bindings) (names : CNames) (fn : Nat) (caches : Nat → Prop) : C.Expr.Terms where
  allows f args := f = Engine.newFunction → HandsOn b names fn args
  reads := C.Uses caches
  stores := C.Uses caches
  guards _ := False

theorem every_of_part {fn : Nat} {x : C.Expr}
    (hx : x = .missing ∨ ((capturing h hnames hcaches).at_ fn).Part x) :
    x.Every (termsOf plan.analysis.bindings names fn (caches fn)) := by
  rcases hx with rfl | hx
  . trivial
  . exact hx.every (fun _ _ => And.left) (fun _ htext => ⟨htext, htext⟩) (Setting.not_rows rfl)

/--
The code of a function with the variables that point to cells: they are declared and set to new
cells only, and what a function is made with are such variables or captures that are handed on.
-/
structure KeepsCells (b : Bindings) (names : CNames) (fn : Nat) (st : C.Stmt) : Prop where
  calls : ∀ x ∈ st.exprs, x.EveryCall fun f args => f = Engine.newFunction → HandsOn b names fn args
  decls : ∀ d ∈ st.decls, ∀ k, (b.decl k).isCaptured = true → names.name? k = some d.name →
    d.type = Engine.typeValue ++ " *" ∧ ∃ v, d.init = .callEnv Engine.newCell [v]
  stores : ∀ x ∈ st.exprs, ∀ p ∈ x.stores, ∀ k s, (b.decl k).isCaptured = true →
    names.name? k = some s → p.1 = .var s → ∃ v, p.2 = .callEnv Engine.newCell [v]
  lines : ∀ text ∈ st.texts, C.isIdle text = true

include h in
theorem FileRun.keepsCells {code : String} {blocks : List C.Stmt} {v w : Writer} {program : C.Expr}
    (hfile : FileRun plan code blocks v program w) :
    List.Forall₂ (KeepsCells plan.analysis.bindings v.names)
      (List.range plan.analysis.bindings.functions.size) blocks := by
  refine (hfile.holds h (caches_all plan)).imp fun fn st hst => ?_
  constructor
  case calls =>
    intro x hx
    have hevery := every_of_part h hfile.proper (caches_all plan) (hst.exprs x hx)
    exact (C.Expr.every_iff_everyCall (fun _ _ _ => trivial) (fun _ _ _ => trivial) fun _ => id).1
      hevery
  case decls =>
    intro d hd k hk hname
    exact hst.keepsCell d hd ((hfile.proper.cell k _ hname).trans hk)
  case stores =>
    rintro x hx ⟨target, value⟩ hp k s hk hname rfl
    rcases hst.exprs x hx with rfl | hpart
    . simp [C.Expr.stores] at hp
    . exact (hpart.stores (Setting.not_rows rfl) _ hp).2 ((hfile.proper.cell k s hname).trans hk)
  case lines => exact hst.isIdle

end

structure IsConveyed (e : Extraction) (b : Bindings) (f d : Nat) : Prop where
  captured : (b.decl d).isCaptured = true
  inside : Inside e.lineage (b.decl d).owner f
  between : ∀ g, Inside e.lineage (b.decl d).owner g → Within e.lineage g f →
    d ∈ (b.function g).captures.decls
  above : ∀ g, Within e.lineage g (b.decl d).owner → d ∉ (b.function g).captures.decls

structure ClosuresComplete (e : Extraction) (b : Bindings) : Prop where
  uses : ∀ f d, b.Uses e f d → (b.decl d).owner ≠ f → IsConveyed e b f d
  root : (b.function 0).captures.decls = []
  needed : ∀ d decl, b.decls.get? d = some decl → decl.isCaptured = true →
    ∃ f, f ≠ decl.owner ∧ b.Uses e f d
  faults : ∀ (plan : Plan) f, Analysis.of b = .ok plan.analysis → plan.compile = .error f →
    ¬f.IsCapture
  cells : ∀ (plan : Plan) c, Analysis.of b = .ok plan.analysis → plan.compile = .ok c →
    ∃ blocks v program w, FileRun plan c.code blocks v program w ∧
      (∀ d d' s, (plan.analysis.bindings.decl d).isCaptured = true → v.names.name? d = some s →
        v.names.name? d' = some s → d = d') ∧
      List.Forall₂ (KeepsCells plan.analysis.bindings v.names)
        (List.range plan.analysis.bindings.functions.size) blocks ∧
      Makes (plan.analysis.bindings.function 0) [] program
  slots : ∀ (plan : Plan) d w x w', Analysis.of b = .ok plan.analysis →
    (plan.analysis.bindings.decl d).owner ≠ w.fn → Runs plan (storage d) w x w' →
    ∃ i : Nat, (plan.analysis.bindings.function w.fn).captures.decls[i]? = some d ∧
      x = .var s!"(*closures[{i}])"
  own : ∀ (plan : Plan) d w x w', Analysis.of b = .ok plan.analysis →
    (plan.analysis.bindings.decl d).owner = w.fn →
    (plan.analysis.bindings.decl d).isCaptured = true → Runs plan (storage d) w x w' →
    ∃ s, w'.names.name? d = some s ∧ x = .var ("(*" ++ s ++ ")")

/-- The script `function f(x) { return () => x; }`. -/
def nestedScript : Node :=
  let use : Node := .mk 7 default (.identifier "x") []
  let arrow : Node := .mk 6 default (.arrowFunction { exprBody := true }) [.node .body use]
  let body : Node := .mk 4 default .block
    [.node .item (.mk 5 default .returnStatement [.node .argument arrow])]
  let outer : Node := .mk 1 default (.functionDeclaration {})
    [.node .name (.mk 2 default (.identifier "f") []),
      .node .param (.mk 3 default (.identifier "x") []), .node .body body]
  .mk 0 default .program [.node .item outer]

end Lower
end ScriptC
