import ScriptC.Bindings.Resolve
import ScriptC.Proofs.Function.Lineage
import ScriptC.Proofs.Function.Split

/-!
What holds while the names of a script are looked at: scopes belong to functions and lead from one
to the next around it, a declaration belongs to the function that it stands in, and a use leads to a
declaration of its own function or to one that its function captures.
-/

namespace ScriptC

open Pass

def Extraction.InTree (e : Extraction) (f id : Nat) : Prop :=
  ∃ g, e.functions[f]? = some g ∧ id ∈ g.node.ids

def Extraction.lineage (e : Extraction) : Array Lineage := e.functions.map (·.lineage)

def Function.frame (f : Function) : Function :=
  { f with
    node := default, scope := 0, arguments := none, this := none, newTarget := none
    functionValue := none, self := none, vars := [], lexicals := [], captures := {} }

def Function.words (f : Function) : Lineage × Option Nat × Option Nat × Option Nat :=
  (f.lineage, f.this, f.newTarget, f.functionValue)

theorem Function.words_eq_iff {f : Function} {w : Lineage × Option Nat × Option Nat × Option Nat} :
    f.words = w ↔
      f.lineage = w.1 ∧ f.this = w.2.1 ∧ f.newTarget = w.2.2.1 ∧ f.functionValue = w.2.2.2 := by
  simp [words, Prod.ext_iff]

namespace Extraction.IsSplit

variable {e : Extraction} {f g id : Nat}

theorem times_pos_of_inTree (hid : e.InTree f id) : 0 < Part.times id e.trees := by
  obtain ⟨g, hg, hid⟩ := hid
  obtain ⟨m, hm, rfl⟩ := List.mem_map.1 hid
  apply Part.times_pos_of_mem
  refine Part.mem_nodes_of_holds ⟨.body, List.mem_map.2 ⟨g, ?_, rfl⟩⟩ hm
  rw [← Array.getElem?_toList] at hg
  exact List.mem_of_getElem? hg

theorem pos_of_inTree (h : e.IsSplit) (hid : e.InTree f id) : 0 < id :=
  (h.bound id (times_pos_of_inTree hid)).1

theorem lt_of_inTree (h : e.IsSplit) (hid : e.InTree f id) : id < e.counters.node :=
  (h.bound id (times_pos_of_inTree hid)).2

theorem eq_of_inTree (h : e.IsSplit) (hf : e.InTree f id) (hg : e.InTree g id) : f = g := by
  have hsplit : ∀ {f g : Nat}, f < g → e.InTree f id → e.InTree g id → False := by
    rintro f g hlt ⟨r, hr, hidr⟩ ⟨t, ht, hidt⟩
    have hone := h.once id
    rw [← Array.getElem?_toList] at hr ht
    obtain ⟨hf, hr⟩ := List.getElem?_eq_some_iff.1 hr
    have hdrop : e.functions.toList = e.functions.toList.take (f + 1) ++
        e.functions.toList.drop (f + 1) := (List.take_append_drop _ _).symm
    have hleft : r ∈ e.functions.toList.take (f + 1) := by
      rw [List.mem_take_iff_getElem]
      exact ⟨f, by omega, hr⟩
    have hright : t ∈ e.functions.toList.drop (f + 1) := by
      apply List.mem_of_getElem? (i := g - (f + 1))
      rw [List.getElem?_drop, ← ht]
      congr 1
      omega
    unfold Extraction.trees at hone
    rw [hdrop, List.map_append, Part.times_append] at hone
    have hcount : ∀ (l : List Function) (t : Function), t ∈ l → id ∈ t.node.ids →
        0 < Part.times id (l.map fun f => .node .body f.node) := by
      intro l t ht hid
      obtain ⟨m, hm, rfl⟩ := List.mem_map.1 hid
      exact Part.times_pos_of_mem (Part.mem_nodes_of_holds ⟨.body, List.mem_map.2 ⟨t, ht, rfl⟩⟩ hm)
    have := hcount _ r hleft hidr
    have := hcount _ t hright hidt
    omega
  rcases Nat.lt_trichotomy f g with hlt | heq | hgt
  . exact (hsplit hlt hf hg).elim
  . exact heq
  . exact (hsplit hgt hg hf).elim

theorem isTree (h : e.IsSplit) : Lineage.IsTree e.lineage where
  before := by
    rintro p f ⟨l, hl, hp⟩
    unfold Extraction.lineage at hl
    rw [Array.getElem?_map, Option.map_eq_some_iff] at hl
    obtain ⟨g, hg, rfl⟩ := hl
    have hpos : 0 < f := by
      rcases Nat.eq_zero_or_pos f with rfl | hpos
      . obtain ⟨root, hroot, hnone, -⟩ := h.program
        rw [hg] at hroot
        cases hroot
        rw [Function.lineage, hnone] at hp
        cases hp
      . exact hpos
    obtain ⟨-, p', site, r, hparent, -, hlt, -⟩ := h.parent f g hpos hg
    rw [Function.lineage, hparent] at hp
    cases hp
    exact hlt
  below := by
    intro f hpos hf
    unfold Extraction.lineage at hf ⊢
    rw [Array.size_map] at hf
    obtain ⟨g, hg⟩ : ∃ g, e.functions[f]? = some g := ⟨_, Array.getElem?_eq_getElem hf⟩
    obtain ⟨-, p, site, r, hparent, -⟩ := h.parent f g hpos hg
    refine ⟨p, g.lineage, ?_, hparent⟩
    rw [Array.getElem?_map, hg]
    rfl
  root := by
    obtain ⟨g, hg, hparent, -, harrow⟩ := h.program
    refine ⟨g.lineage, ?_, hparent, harrow⟩
    unfold Extraction.lineage
    rw [Array.getElem?_map, hg]
    rfl

end Extraction.IsSplit

namespace Bindings

inductive Uses (e : Extraction) (b : Bindings) (f d : Nat) : Prop
  | name {id : Nat} {u : Binding} : e.InTree f id → b.uses.get? id = some u → u.decl? = some d →
    Uses e b f d
  | superThis {g : Function} {n : Node} : e.functions[f]? = some g → n ∈ g.node.preorder →
    n.kind = .super → (b.function (b.thisOwner f)).this = some d → Uses e b f d
  | superTarget {g : Function} {m n : Node} : e.functions[f]? = some g → m ∈ g.node.preorder →
    m.kind = .call → .node .callee n ∈ m.parts → n.kind = .super →
    (b.function (b.thisOwner f)).newTarget = some d → Uses e b f d

theorem map_function {β : Type} {b b' : Bindings} {g : Function → β}
    (h : b'.functions.map g = b.functions.map g) (i : Nat) :
    g (b'.function i) = g (b.function i) := by
  have hi := congrArg (·[i]?) h
  simp only [Array.getElem?_map] at hi
  unfold function
  rw [Array.getD_eq_getD_getElem?, Array.getD_eq_getD_getElem?]
  cases hb : b.functions[i]? <;> cases hb' : b'.functions[i]? <;> simp_all

theorem lineage_of_words {b b' : Bindings}
    (h : b'.functions.map (·.words) = b.functions.map (·.words)) : b'.lineage = b.lineage := by
  have hmap := congrArg (Array.map Prod.fst) h
  simp only [Array.map_map] at hmap
  exact hmap

theorem Uses.transferOf {e : Extraction} {b b' : Bindings} {f d : Nat} (h : Uses e b f d)
    (huses : ∀ id u, e.InTree f id → b.uses.get? id = some u → u.decl? = some d →
      ∃ u', b'.uses.get? id = some u' ∧ u'.decl? = some d)
    (hlineage : b'.lineage = b.lineage)
    (hthis : ∀ i, (b.function i).this = some d → (b'.function i).this = some d)
    (htarget : ∀ i, (b.function i).newTarget = some d → (b'.function i).newTarget = some d) :
    Uses e b' f d := by
  have howner : b'.thisOwner f = b.thisOwner f := by
    unfold thisOwner
    rw [hlineage]
  cases h with
  | name htree hu hd =>
    obtain ⟨u', hu', hd'⟩ := huses _ _ htree hu hd
    exact .name htree hu' hd'
  | superThis hf hn hk h => exact .superThis hf hn hk (howner ▸ hthis _ h)
  | superTarget hf hm hk hn hk' h => exact .superTarget hf hm hk hn hk' (howner ▸ htarget _ h)

theorem Uses.transfer {e : Extraction} {b b' : Bindings} {f d : Nat} (h : Uses e b f d)
    (huses : ∀ id u, e.InTree f id → b.uses.get? id = some u → u.decl? = some d →
      ∃ u', b'.uses.get? id = some u' ∧ u'.decl? = some d)
    (hwords : b'.functions.map (·.words) = b.functions.map (·.words)) : Uses e b' f d := by
  refine h.transferOf huses (lineage_of_words hwords) ?_ ?_
  . intro i hi
    exact (Function.words_eq_iff.1 (map_function hwords i)).2.1.trans hi
  . intro i hi
    exact (Function.words_eq_iff.1 (map_function hwords i)).2.2.1.trans hi

/-- What is known of the names of the first functions of a script. -/
structure Linked (e : Extraction) (k : Nat) (b : Bindings) : Prop where
  counters : e.counters.node ≤ b.counters.node
  functions : b.functions.map (·.frame) = e.functions.map (·.frame)
  sites : b.sites = e.sites
  scopes : ∀ (j : Nat) (s : Scope), b.scopes[j]? = some s → s.owner < k ∧
    (∀ p, s.parent = some p → ∃ t, b.scopes[p]? = some t ∧
      (t.owner = s.owner ∨ Lineage.Parent e.lineage t.owner s.owner)) ∧
    ∀ name d, (name, d) ∈ s.names → ∃ decl, b.decls.get? d = some decl ∧ decl.owner = s.owner
  decls : ∀ d decl, b.decls.get? d = some decl → decl.owner < k ∧
    (e.InTree decl.owner d ∨ e.counters.node ≤ d ∧ d < b.counters.node)
  scopeOf : ∀ id j, b.scopeOf.get? id = some j → ∃ s, b.scopes[j]? = some s ∧ e.InTree s.owner id
  uses : ∀ id u d, b.uses.get? id = some u → u.decl? = some d → ∃ decl, b.decls.get? d = some decl ∧
    ((∃ f, e.InTree f id ∧ (decl.owner = f ∨ d ∈ (b.function f).captures.decls)) ∨
      e.counters.node ≤ id ∧ id < b.counters.node)
  aliases : ∀ id outer, b.aliases.get? id = some outer → e.counters.node ≤ outer.id ∧
    outer.id < b.counters.node ∧ ∃ f u d decl, e.InTree f id ∧ b.uses.get? outer.id = some u ∧
      u.decl? = some d ∧ b.decls.get? d = some decl ∧ decl.owner = f
  captures : ∀ f d, d ∈ (b.function f).captures.decls → ∃ decl p, b.decls.get? d = some decl ∧
    decl.isCaptured = true ∧ Lineage.Parent e.lineage p f ∧
    (decl.owner = p ∨ d ∈ (b.function p).captures.decls)
  captured : ∀ d decl, b.decls.get? d = some decl → decl.isCaptured = true →
    ∃ f, f ≠ decl.owner ∧ Uses e b f d

def Quiet (fn : Nat) (b : Bindings) : Prop :=
  ∀ d decl, b.decls.get? d = some decl → decl.owner = fn → decl.isCaptured = false

def BoundIn (b : Bindings) (fn id : Nat) : Prop :=
  ∃ u d decl, b.uses.get? id = some u ∧ u.decl? = some d ∧ b.decls.get? d = some decl ∧
    decl.owner = fn

def DeclIn (b : Bindings) (fn d : Nat) : Prop :=
  ∃ decl, b.decls.get? d = some decl ∧ decl.owner = fn

def ScopeIn (b : Bindings) (fn i : Nat) : Prop :=
  ∃ s, b.scopes[i]? = some s ∧ s.owner = fn

def Usable (e : Extraction) (fn : Nat) (b : Bindings) (id : Nat) : Prop :=
  e.InTree fn id ∨ e.counters.node ≤ id ∧ id < b.counters.node ∧
    (∀ site outer, b.aliases.get? site = some outer → outer.id ≠ id) ∧
    ∀ decl, b.decls.get? id = some decl → decl.owner = fn

structure Stage (e : Extraction) (fn : Nat) (b : Bindings) : Prop where
  linked : Linked e (fn + 1) b
  quiet : Quiet fn b
  idle : (b.function fn).captures.decls = []

structure Declares (e : Extraction) (fn : Nat) (b b' : Bindings) : Prop where
  numbers : b.counters.node ≤ b'.counters.node
  scopes : ∀ (i : Nat) (s : Scope), b.scopes[i]? = some s → ∃ s', b'.scopes[i]? = some s' ∧
    s'.owner = s.owner ∧ s'.parent = s.parent ∧ s'.isFunction = s.isFunction
  functions : b'.functions.map (fun f => (f.node, f.words, f.captures)) =
    b.functions.map fun f => (f.node, f.words, f.captures)
  stage : Stage e fn b'
  bound : ∀ f id, e.InTree f id → b.BoundIn f id → b'.BoundIn f id
  decls : ∀ f d, b.DeclIn f d → b'.DeclIn f d

variable {e : Extraction} {fn : Nat} {b b' : Bindings}

theorem Declares.refl (hb : Stage e fn b) : Declares e fn b b where
  numbers := Nat.le_refl _
  scopes _ s h := ⟨s, h, rfl, rfl, rfl⟩
  functions := rfl
  stage := hb
  bound _ _ _ := id
  decls _ _ := id

theorem Declares.trans {c : Bindings} (h : Declares e fn b c) (h' : Declares e fn c b') :
    Declares e fn b b' where
  numbers := Nat.le_trans h.numbers h'.numbers
  scopes i s hs := by
    obtain ⟨t, ht, howner, hparent, hfunction⟩ := h.scopes i s hs
    obtain ⟨u, hu, howner', hparent', hfunction'⟩ := h'.scopes i t ht
    exact ⟨u, hu, howner'.trans howner, hparent'.trans hparent, hfunction'.trans hfunction⟩
  functions := h'.functions.trans h.functions
  stage := h'.stage
  bound f id htree hid := h'.bound f id htree (h.bound f id htree hid)
  decls f d hd := h'.decls f d (h.decls f d hd)

theorem Declares.scopeIn {i : Nat} (h : Declares e fn b b') (hi : b.ScopeIn fn i) :
    b'.ScopeIn fn i := by
  obtain ⟨s, hs, howner⟩ := hi
  obtain ⟨s', hs', howner', -⟩ := h.scopes i s hs
  exact ⟨s', hs', howner'.trans howner⟩

theorem owner_of_usable (he : e.IsSplit) (h : Stage e fn b) {id : Nat} (hid : Usable e fn b id)
    {decl : Declaration} (hdecl : b.decls.get? id = some decl) : decl.owner = fn := by
  rcases hid with htree | ⟨-, -, -, howner⟩
  . rcases (h.linked.decls id decl hdecl).2 with hin | ⟨hle, -⟩
    . exact he.eq_of_inTree hin htree
    . have := he.lt_of_inTree htree
      omega
  . exact howner decl hdecl

theorem Stage.captured_of_eq (h : Stage e fn b) (hdecls : b'.decls = b.decls)
    (huses : b'.uses = b.uses) (hwords : b'.functions.map (·.words) = b.functions.map (·.words)) :
    ∀ d decl, b'.decls.get? d = some decl → decl.isCaptured = true →
      ∃ f, f ≠ decl.owner ∧ Uses e b' f d := by
  intro d decl hdecl hcaptured
  rw [hdecls] at hdecl
  obtain ⟨f, hf, hused⟩ := h.linked.captured d decl hdecl hcaptured
  refine ⟨f, hf, hused.transfer ?_ hwords⟩
  intro id u _ hu hd
  exact ⟨u, huses ▸ hu, hd⟩

theorem declares_setScope (hb : Stage e fn b) {n : Node} {sc : Nat} {u : Unit}
    (hn : e.InTree fn n.id)
    (hsc : b.ScopeIn fn sc) (h : Ends (Resolve.setScope n sc) b u b') : Declares e fn b b' := by
  cases ends_modify.1 h
  refine ⟨Nat.le_refl _, fun i s hs => ⟨s, hs, rfl, rfl, rfl⟩, rfl, ?_,
    fun _ _ _ => id, fun _ _ => id⟩
  refine ⟨{ hb.linked with scopeOf := ?_, captured := hb.captured_of_eq rfl rfl rfl }, hb.quiet,
    hb.idle⟩
  intro id j hj
  dsimp only at hj ⊢
  rw [Table.get?_insert] at hj
  split at hj
  . next heq =>
    cases hj
    obtain ⟨s, hs, rfl⟩ := hsc
    exact ⟨s, hs, heq ▸ hn⟩
  . exact hb.linked.scopeOf id j hj

theorem Stage.not_inTree_of_uses (he : e.IsSplit) (h : Stage e fn b) {id f d : Nat} {u : Binding}
    {decl : Declaration} (hid : Usable e fn b id) (hf : e.InTree f id)
    (hu : b.uses.get? id = some u) (hd : u.decl? = some d) (hdecl : b.decls.get? d = some decl) :
    decl.owner = f := by
  have htree : e.InTree fn id := by
    rcases hid with htree | ⟨hle, -⟩
    . exact htree
    . have := he.lt_of_inTree hf
      omega
  obtain rfl := he.eq_of_inTree hf htree
  obtain ⟨decl', hdecl', hcase⟩ := h.linked.uses id u d hu hd
  rw [hdecl] at hdecl'
  cases hdecl'
  rcases hcase with ⟨g, hg, howner⟩ | ⟨hle, -⟩
  . obtain rfl := he.eq_of_inTree hg hf
    rcases howner with howner | hcaptured
    . exact howner
    . rw [h.idle] at hcaptured
      cases hcaptured
  . have := he.lt_of_inTree hf
    omega

theorem declares_bindTo (he : e.IsSplit) (hb : Stage e fn b) {id : Node} {d : Nat}
    {throughWith : Bool} {u : Unit}
    (hid : Usable e fn b id.id) (hd : b.DeclIn fn d)
    (h : Ends (Resolve.bindTo id d throughWith) b u b') :
    Declares e fn b b' ∧ b'.BoundIn fn id.id := by
  unfold Resolve.bindTo at h
  generalize hbinding : (if throughWith = true then Binding.viaWith d else .direct d) = binding at h
  have hdecl? : binding.decl? = some d := by
    rw [← hbinding]
    cases throughWith <;> rfl
  cases ends_modify.1 h
  obtain ⟨decl, hdecl, howner⟩ := hd
  refine ⟨⟨Nat.le_refl _, fun i s hs => ⟨s, hs, rfl, rfl, rfl⟩, rfl, ?_, ?_, fun _ _ h => h⟩, ?_⟩
  . refine ⟨{ hb.linked with uses := ?_, aliases := ?_, captured := ?_ }, hb.quiet, hb.idle⟩
    . intro id' u d' hu hd'
      dsimp only at hu ⊢
      rw [Table.get?_insert] at hu
      split at hu
      . next heq =>
        cases hu
        rw [hdecl?] at hd'
        cases hd'
        refine ⟨decl, hdecl, ?_⟩
        rcases hid with htree | ⟨hle, hlt, -⟩
        . exact .inl ⟨fn, heq ▸ htree, .inl howner⟩
        . exact .inr ⟨heq ▸ hle, heq ▸ hlt⟩
      . exact hb.linked.uses id' u d' hu hd'
    . intro site outer hsite
      obtain ⟨hle, hlt, f, u, d', decl', hf, hu, hd', hdecl', howner'⟩ :=
        hb.linked.aliases site outer hsite
      refine ⟨hle, hlt, f, u, d', decl', hf, ?_, hd', hdecl', howner'⟩
      dsimp only
      rw [Table.get?_insert, if_neg ?_]
      . exact hu
      . rcases hid with htree | ⟨-, -, halias, -⟩
        . have := he.lt_of_inTree htree
          omega
        . exact Ne.symm (halias site outer hsite)
    . intro d' decl' hdecl' hcaptured
      obtain ⟨f, hf, huses⟩ := hb.linked.captured d' decl' hdecl' hcaptured
      refine ⟨f, hf, huses.transfer ?_ rfl⟩
      intro id' u htree hu hd'
      refine ⟨u, ?_, hd'⟩
      dsimp only
      rw [Table.get?_insert, if_neg ?_]
      . exact hu
      . rintro rfl
        exact hf (hb.not_inTree_of_uses he hid htree hu hd' hdecl').symm
  . rintro f id' htree ⟨u, d', decl', hu, hd', hdecl', howner'⟩
    unfold BoundIn
    dsimp only
    rw [Table.get?_insert]
    by_cases heq : id.id = id'
    . rw [if_pos heq]
      obtain rfl : f = fn := by
        rcases hid with hid | ⟨hle, -⟩
        . exact he.eq_of_inTree htree (heq ▸ hid)
        . have := he.lt_of_inTree htree
          omega
      exact ⟨binding, d, decl, rfl, hdecl?, hdecl, howner⟩
    . rw [if_neg heq]
      exact ⟨u, d', decl', hu, hd', hdecl', howner'⟩
  . refine ⟨binding, d, decl, ?_, hdecl?, hdecl, howner⟩
    dsimp only
    exact Table.get?_insert_self

theorem scopes_modify {scopes : Scopes} {i j : Nat} {change : Scope → Scope} {s : Scope}
    (h : (scopes.modify i change)[j]? = some s) :
    ∃ t, scopes[j]? = some t ∧ (s = t ∨ j = i ∧ s = change t) := by
  rw [Array.getElem?_modify] at h
  split at h
  . next heq =>
    obtain ⟨t, ht, rfl⟩ := Option.map_eq_some_iff.1 h
    exact ⟨t, ht, .inr ⟨heq.symm, rfl⟩⟩
  . exact ⟨s, h, .inl rfl⟩

theorem exists_scopes_modify {scopes : Scopes} {i j : Nat} {change : Scope → Scope} {s : Scope}
    (hchange : ∀ s, (change s).owner = s.owner ∧ (change s).parent = s.parent ∧
      (change s).isFunction = s.isFunction)
    (h : scopes[j]? = some s) : ∃ s', (scopes.modify i change)[j]? = some s' ∧
      s'.owner = s.owner ∧ s'.parent = s.parent ∧ s'.isFunction = s.isFunction := by
  rw [Array.getElem?_modify, h]
  split
  . exact ⟨_, rfl, hchange s⟩
  . exact ⟨s, rfl, rfl, rfl, rfl⟩

theorem Linked.scopes_modify_names {k i : Nat} (h : Linked e k b) {change : Scope → Scope}
    {decls : Std.TreeMap Nat Declaration}
    (hchange : ∀ s, (change s).owner = s.owner ∧ (change s).parent = s.parent ∧
      (change s).isFunction = s.isFunction)
    (hdecls : ∀ d decl, b.decls.get? d = some decl →
      ∃ decl', decls.get? d = some decl' ∧ decl'.owner = decl.owner)
    (hnames : ∀ s, b.scopes[i]? = some s → ∀ p ∈ (change s).names, p ∈ s.names ∨
      ∃ decl, decls.get? p.2 = some decl ∧ decl.owner = s.owner) :
    (∀ (j : Nat) (s : Scope), (b.scopes.modify i change)[j]? = some s → s.owner < k ∧
      (∀ p, s.parent = some p → ∃ t, (b.scopes.modify i change)[p]? = some t ∧
        (t.owner = s.owner ∨ Lineage.Parent e.lineage t.owner s.owner)) ∧
      ∀ name d, (name, d) ∈ s.names → ∃ decl, decls.get? d = some decl ∧ decl.owner = s.owner) ∧
    ∀ id j, b.scopeOf.get? id = some j →
      ∃ s, (b.scopes.modify i change)[j]? = some s ∧ e.InTree s.owner id := by
  constructor
  . intro j s hs
    obtain ⟨t, ht, hcase⟩ := scopes_modify hs
    obtain ⟨hk, hparent, hold⟩ := h.scopes j t ht
    have hplace : s.owner = t.owner ∧ s.parent = t.parent := by
      rcases hcase with rfl | ⟨-, rfl⟩
      . exact ⟨rfl, rfl⟩
      . exact ⟨(hchange t).1, (hchange t).2.1⟩
    rw [hplace.1, hplace.2]
    refine ⟨hk, ?_, ?_⟩
    . intro p hp
      obtain ⟨u, hu, howner⟩ := hparent p hp
      obtain ⟨u', hu', howner', -⟩ := exists_scopes_modify (i := i) hchange hu
      exact ⟨u', hu', howner' ▸ howner⟩
    . intro name d hd
      have hkept : (name, d) ∈ t.names → ∃ decl, decls.get? d = some decl ∧
        decl.owner = t.owner := by
        intro hmem
        obtain ⟨decl, hdecl, howner⟩ := hold name d hmem
        obtain ⟨decl', hdecl', howner'⟩ := hdecls d decl hdecl
        exact ⟨decl', hdecl', howner'.trans howner⟩
      rcases hcase with rfl | ⟨rfl, rfl⟩
      . exact hkept hd
      . rcases hnames t ht _ hd with hmem | hnew
        . exact hkept hmem
        . exact hnew
  . intro id j hj
    obtain ⟨s, hs, htree⟩ := h.scopeOf id j hj
    obtain ⟨s', hs', howner, -⟩ := exists_scopes_modify (i := i) hchange hs
    exact ⟨s', hs', howner ▸ htree⟩

theorem declares_noteCrossing (hb : Stage e fn b) {i : Nat} {name : String} {u : Unit}
    (h : Ends (Resolve.modifyScope i (·.noteCrossing name)) b u b') : Declares e fn b b' := by
  cases ends_modify.1 h
  have hchange : ∀ s : Scope, (s.noteCrossing name).owner = s.owner ∧
      (s.noteCrossing name).parent = s.parent ∧
      (s.noteCrossing name).isFunction = s.isFunction ∧ (s.noteCrossing name).names = s.names := by
    intro s
    unfold Scope.noteCrossing
    split <;> exact ⟨rfl, rfl, rfl, rfl⟩
  have hplace := fun s => (⟨(hchange s).1, (hchange s).2.1, (hchange s).2.2.1⟩ : _ ∧ _ ∧ _)
  refine ⟨Nat.le_refl _, fun j s hs => exists_scopes_modify hplace hs, rfl, ?_,
    fun _ _ _ => id, fun _ _ => id⟩
  obtain ⟨hscopes, hscopeOf⟩ := hb.linked.scopes_modify_names (i := i) hplace
    (fun d decl hd => ⟨decl, hd, rfl⟩) fun s _ p hp => .inl ((hchange s).2.2.2 ▸ hp)
  exact ⟨{ hb.linked with
    scopes := hscopes, scopeOf := hscopeOf, captured := hb.captured_of_eq rfl rfl rfl },
    hb.quiet, hb.idle⟩

theorem declares_declareName (hb : Stage e fn b) {i d : Nat} {name : String} {u : Unit}
    (hscope : b.ScopeIn fn i)
    (hd : b.DeclIn fn d) (h : Ends (Resolve.modifyScope i (·.declare name d)) b u b') :
    Declares e fn b b' := by
  cases ends_modify.1 h
  have hchange : ∀ s : Scope, (s.declare name d).owner = s.owner ∧
      (s.declare name d).parent = s.parent ∧ (s.declare name d).isFunction = s.isFunction :=
    fun s => ⟨rfl, rfl, rfl⟩
  refine ⟨Nat.le_refl _, fun j s hs => exists_scopes_modify hchange hs, rfl, ?_,
    fun _ _ _ => id, fun _ _ => id⟩
  obtain ⟨hscopes, hscopeOf⟩ := hb.linked.scopes_modify_names (i := i) hchange
    (fun d decl hd => ⟨decl, hd, rfl⟩) (by
      intro s hs p hp
      unfold Scope.declare at hp
      rcases List.mem_cons.1 hp with rfl | hp
      . obtain ⟨s', hs', hs'o⟩ := hscope
        rw [hs] at hs'
        cases hs'
        obtain ⟨decl, hdecl, ho⟩ := hd
        exact .inr ⟨decl, hdecl, ho.trans hs'o.symm⟩
      . exact .inl (List.mem_filter.1 hp).1)
  exact ⟨{ hb.linked with
    scopes := hscopes, scopeOf := hscopeOf, captured := hb.captured_of_eq rfl rfl rfl },
    hb.quiet, hb.idle⟩

theorem declares_insertDecl (he : e.IsSplit) (hb : Stage e fn b) {id : Nat} {d : Declaration}
    (hid : Usable e fn b id) (howner : d.owner = fn)
    (hcaptured : d.isCaptured = false) :
    Declares e fn b { b with decls := b.decls.insert id d } := by
  have hget : ∀ i, (b.decls.insert id d).get? i = if id = i then some d else b.decls.get? i :=
    fun i => Table.get?_insert
  have hkept : ∀ i decl, b.decls.get? i = some decl →
      ∃ decl', (b.decls.insert id d).get? i = some decl' ∧ decl'.owner = decl.owner := by
    intro i decl hi
    rw [hget]
    split
    . next heq =>
      subst heq
      exact ⟨d, rfl, howner.trans (owner_of_usable he hb hid hi).symm⟩
    . exact ⟨decl, hi, rfl⟩
  refine ⟨Nat.le_refl _, fun j s hs => ⟨s, hs, rfl, rfl, rfl⟩, rfl, ?_, ?_, ?_⟩
  . refine ⟨{ hb.linked with
      scopes := ?_, decls := ?_, uses := ?_, aliases := ?_, captures := ?_, captured := ?_ }, ?_,
      hb.idle⟩
    . intro j s hs
      obtain ⟨hk, hparent, hnames⟩ := hb.linked.scopes j s hs
      refine ⟨hk, hparent, fun name i hi => ?_⟩
      obtain ⟨decl, hdecl, ho⟩ := hnames name i hi
      obtain ⟨decl', hdecl', ho'⟩ := hkept i decl hdecl
      exact ⟨decl', hdecl', ho'.trans ho⟩
    . intro i decl hi
      dsimp only at hi
      rw [hget] at hi
      split at hi
      . next heq =>
        cases hi
        subst heq
        rw [howner]
        refine ⟨Nat.lt_succ_self _, ?_⟩
        rcases hid with htree | ⟨hle, hlt, -⟩
        . exact .inl htree
        . exact .inr ⟨hle, hlt⟩
      . exact hb.linked.decls i decl hi
    . intro i u i' hu hd
      obtain ⟨decl, hdecl, hcase⟩ := hb.linked.uses i u i' hu hd
      obtain ⟨decl', hdecl', howner'⟩ := hkept i' decl hdecl
      exact ⟨decl', hdecl', howner' ▸ hcase⟩
    . intro site outer hsite
      obtain ⟨hle, hlt, f, u, i, decl, hf, hu, hd, hdecl, ho⟩ := hb.linked.aliases site outer hsite
      obtain ⟨decl', hdecl', howner'⟩ := hkept i decl hdecl
      exact ⟨hle, hlt, f, u, i, decl', hf, hu, hd, hdecl', howner'.trans ho⟩
    . intro f i hi
      obtain ⟨decl, p, hdecl, hcap, hparent, hcase⟩ := hb.linked.captures f i hi
      refine ⟨decl, p, ?_, hcap, hparent, hcase⟩
      dsimp only
      rw [hget, if_neg ?_]
      . exact hdecl
      . rintro rfl
        rw [hb.quiet _ decl hdecl (owner_of_usable he hb hid hdecl)] at hcap
        cases hcap
    . intro i decl hi hcap
      dsimp only at hi
      rw [hget] at hi
      split at hi
      . cases hi
        rw [hcaptured] at hcap
        cases hcap
      . obtain ⟨f, hf, hused⟩ := hb.linked.captured i decl hi hcap
        exact ⟨f, hf, hused.transfer (fun id u _ hu hd => ⟨u, hu, hd⟩) rfl⟩
    . intro i decl hi ho
      dsimp only at hi
      rw [hget] at hi
      split at hi
      . cases hi
        exact hcaptured
      . exact hb.quiet i decl hi ho
  . rintro f i - ⟨u, i', decl, hu, hd, hdecl, ho⟩
    obtain ⟨decl', hdecl', ho'⟩ := hkept i' decl hdecl
    exact ⟨u, i', decl', hu, hd, hdecl', ho'.trans ho⟩
  . rintro f i ⟨decl, hdecl, ho⟩
    obtain ⟨decl', hdecl', ho'⟩ := hkept i decl hdecl
    exact ⟨decl', hdecl', ho'.trans ho⟩

theorem declIn_insertDecl {id : Nat} {d : Declaration} (howner : d.owner = fn) :
    ({ b with decls := b.decls.insert id d } : Bindings).DeclIn fn id :=
  ⟨d, Table.get?_insert_self, howner⟩

theorem declares_addDecl (he : e.IsSplit) (hb : Stage e fn b) {id : Node}
    {d : Declaration} {u : Unit}
    (hid : Usable e fn b id.id) (howner : d.owner = fn) (hcaptured : d.isCaptured = false)
    (hscope : b.ScopeIn fn d.scope) (h : Ends (Resolve.addDecl id d) b u b') :
    Declares e fn b b' ∧ b'.DeclIn fn id.id := by
  unfold Resolve.addDecl at h
  rw [ends_modify_bind] at h
  have hinsert := declares_insertDecl he hb hid howner hcaptured
  have hdecl := @declIn_insertDecl fn b id.id d howner
  refine ⟨hinsert.trans (declares_declareName hinsert.stage (hinsert.scopeIn hscope) hdecl h), ?_⟩
  cases ends_modify.1 h
  exact hdecl

theorem declares_modifyDecl (hb : Stage e fn b) {d : Nat}
    {change : Declaration → Declaration} {u : Unit}
    (hchange : ∀ decl, (change decl).owner = decl.owner ∧
      (change decl).isCaptured = decl.isCaptured)
    (h : Ends (Resolve.modifyDecl d change) b u b') :
    Declares e fn b b' := by
  cases ends_modify.1 h
  have hget : ∀ i, (b.decls.modify d change).get? i =
      if d = i then (b.decls.get? i).map change else b.decls.get? i := fun i => Table.get?_modify
  have hkept : ∀ i decl, b.decls.get? i = some decl → ∃ decl',
      (b.decls.modify d change).get? i = some decl' ∧ decl'.owner = decl.owner ∧
        decl'.isCaptured = decl.isCaptured := by
    intro i decl hi
    rw [hget, hi]
    split
    . exact ⟨_, rfl, hchange decl⟩
    . exact ⟨decl, rfl, rfl, rfl⟩
  have hback : ∀ i decl', (b.decls.modify d change).get? i = some decl' → ∃ decl,
      b.decls.get? i = some decl ∧ decl'.owner = decl.owner ∧
        decl'.isCaptured = decl.isCaptured := by
    intro i decl' hi
    rw [hget] at hi
    split at hi
    . obtain ⟨decl, hdecl, rfl⟩ := Option.map_eq_some_iff.1 hi
      exact ⟨decl, hdecl, hchange decl⟩
    . exact ⟨decl', hi, rfl, rfl⟩
  refine ⟨Nat.le_refl _, fun j s hs => ⟨s, hs, rfl, rfl, rfl⟩, rfl, ?_, ?_, ?_⟩
  . refine ⟨{ hb.linked with
      scopes := ?_, decls := ?_, uses := ?_, aliases := ?_, captures := ?_, captured := ?_ }, ?_,
      hb.idle⟩
    . intro j s hs
      obtain ⟨hk, hparent, hnames⟩ := hb.linked.scopes j s hs
      refine ⟨hk, hparent, fun name i hi => ?_⟩
      obtain ⟨decl, hdecl, ho⟩ := hnames name i hi
      obtain ⟨decl', hdecl', ho', -⟩ := hkept i decl hdecl
      exact ⟨decl', hdecl', ho'.trans ho⟩
    . intro i decl' hi
      obtain ⟨decl, hdecl, ho, -⟩ := hback i decl' hi
      rw [ho]
      exact hb.linked.decls i decl hdecl
    . intro i u i' hu hd
      obtain ⟨decl, hdecl, hcase⟩ := hb.linked.uses i u i' hu hd
      obtain ⟨decl', hdecl', ho', -⟩ := hkept i' decl hdecl
      exact ⟨decl', hdecl', ho' ▸ hcase⟩
    . intro site outer hsite
      obtain ⟨hle, hlt, f, u, i, decl, hf, hu, hd, hdecl, ho⟩ := hb.linked.aliases site outer hsite
      obtain ⟨decl', hdecl', ho', -⟩ := hkept i decl hdecl
      exact ⟨hle, hlt, f, u, i, decl', hf, hu, hd, hdecl', ho'.trans ho⟩
    . intro f i hi
      obtain ⟨decl, p, hdecl, hcap, hparent, hcase⟩ := hb.linked.captures f i hi
      obtain ⟨decl', hdecl', ho', hcap'⟩ := hkept i decl hdecl
      exact ⟨decl', p, hdecl', hcap'.trans hcap, hparent, ho' ▸ hcase⟩
    . intro i decl' hi hcap
      obtain ⟨decl, hdecl, ho, hcap'⟩ := hback i decl' hi
      obtain ⟨f, hf, hused⟩ := hb.linked.captured i decl hdecl (hcap'.symm.trans hcap)
      exact ⟨f, ho ▸ hf, hused.transfer (fun id u _ hu hd => ⟨u, hu, hd⟩) rfl⟩
    . intro i decl' hi ho
      obtain ⟨decl, hdecl, ho', hcap⟩ := hback i decl' hi
      rw [hcap]
      exact hb.quiet i decl hdecl (ho'.symm.trans ho)
  . rintro f i - ⟨u, i', decl, hu, hd, hdecl, ho⟩
    obtain ⟨decl', hdecl', ho', -⟩ := hkept i' decl hdecl
    exact ⟨u, i', decl', hu, hd, hdecl', ho'.trans ho⟩
  . rintro f i ⟨decl, hdecl, ho⟩
    obtain ⟨decl', hdecl', ho', -⟩ := hkept i decl hdecl
    exact ⟨decl', hdecl', ho'.trans ho⟩

theorem Linked.functions_congr {k : Nat} {functions : Array Function} (h : Linked e k b)
    (hframe : functions.map (·.frame) = b.functions.map (·.frame))
    (hcaptures : functions.map (·.captures) = b.functions.map (·.captures))
    (hwords : functions.map (·.words) = b.functions.map (·.words)) :
    Linked e k { b with functions } ∧
      ∀ f, (functions.getD f default).captures = (b.function f).captures := by
  have hfunction : ∀ f, (functions.getD f default).captures = (b.function f).captures := by
    intro f
    have hf := congrArg (·[f]?) hcaptures
    simp only [Array.getElem?_map] at hf
    unfold function
    rw [Array.getD_eq_getD_getElem?, Array.getD_eq_getD_getElem?]
    cases hb : b.functions[f]? <;> cases hb' : functions[f]? <;> simp_all
  refine ⟨{ h with
    functions := hframe.trans h.functions, uses := ?_, captures := ?_, captured := ?_ }, hfunction⟩
  . intro id u d hu hd
    obtain ⟨decl, hdecl, hcase⟩ := h.uses id u d hu hd
    refine ⟨decl, hdecl, ?_⟩
    rcases hcase with ⟨f, hf, hcase⟩ | hcase
    . refine .inl ⟨f, hf, ?_⟩
      rw [← hfunction f] at hcase
      exact hcase
    . exact .inr hcase
  . intro f d hd
    have hd' : d ∈ (b.function f).captures.decls := hfunction f ▸ hd
    obtain ⟨decl, p, hdecl, hcap, hparent, hcase⟩ := h.captures f d hd'
    refine ⟨decl, p, hdecl, hcap, hparent, ?_⟩
    rw [← hfunction p] at hcase
    exact hcase
  . intro d decl hdecl hcap
    obtain ⟨f, hf, hused⟩ := h.captured d decl hdecl hcap
    exact ⟨f, hf, hused.transfer (fun id u _ hu hd => ⟨u, hu, hd⟩) hwords⟩

theorem map_modify_eq {β : Type} {functions : Array Function} {i : Nat}
    {change : Function → Function} {g : Function → β} (h : ∀ f, g (change f) = g f) :
    (functions.modify i change).map g = functions.map g := by
  apply Array.ext_getElem?
  intro j
  rw [Array.getElem?_map, Array.getElem?_map, Array.getElem?_modify]
  split
  . cases functions[j]? with
    | none => rfl
    | some f => rw [Option.map_some, Option.map_some, Option.map_some, h]
  . rfl

theorem declares_modifyFunction (hb : Stage e fn b) {i : Nat} {change : Function → Function}
    {u : Unit} (hchange : ∀ f, (change f).node = f.node ∧ (change f).words = f.words ∧
      (change f).frame = f.frame ∧ (change f).captures = f.captures)
    (h : Ends (Resolve.modifyFunction i change) b u b') : Declares e fn b b' := by
  cases ends_modify.1 h
  have hmap : ∀ {β : Type} (g : Function → β), (∀ f, g (change f) = g f) →
      (b.functions.modify i change).map g = b.functions.map g := fun g hg => map_modify_eq hg
  refine ⟨Nat.le_refl _, fun j s hs => ⟨s, hs, rfl, rfl, rfl⟩, hmap _ fun f => ?_, ?_,
    fun _ _ _ => id,
    fun _ _ => id⟩
  . rw [(hchange f).1, (hchange f).2.1, (hchange f).2.2.2]
  . obtain ⟨hlinked, hcaptures⟩ := hb.linked.functions_congr (hmap _ fun f => (hchange f).2.2.1)
      (hmap _ fun f => (hchange f).2.2.2) (hmap _ fun f => (hchange f).2.1)
    refine ⟨hlinked, hb.quiet, ?_⟩
    have hidle := hb.idle
    rw [← hcaptures fn] at hidle
    exact hidle

theorem declares_openScope (hb : Stage e fn b) {s : Scope} {i : Nat} (howner : s.owner = fn)
    (hnames : s.names = [])
    (hparent : ∀ p, s.parent = some p → ∃ t, b.scopes[p]? = some t ∧
      (t.owner = s.owner ∨ Lineage.Parent e.lineage t.owner s.owner))
    (h : Ends (Resolve.openScope s) b i b') :
    Declares e fn b b' ∧ b'.scopes[i]? = some s := by
  unfold Resolve.openScope at h
  rw [ends_get_bind, ends_modify_bind] at h
  obtain ⟨rfl, rfl⟩ := ends_pure.1 h
  have hkept : ∀ (j : Nat) (t : Scope), b.scopes[j]? = some t → (b.scopes.push s)[j]? = some t := by
    intro j t ht
    obtain ⟨hj, -⟩ := Array.getElem?_eq_some_iff.1 ht
    rw [Array.getElem?_push, if_neg (by omega), ht]
  refine ⟨⟨Nat.le_refl _, fun j t ht => ⟨t, hkept j t ht, rfl, rfl, rfl⟩, rfl, ?_, fun _ _ _ => id,
    fun _ _ => id⟩, by simp⟩
  refine ⟨{ hb.linked with
    scopes := ?_, scopeOf := ?_, captured := hb.captured_of_eq rfl rfl rfl }, hb.quiet, hb.idle⟩
  . intro j t ht
    dsimp only at ht ⊢
    rw [Array.getElem?_push] at ht
    split at ht
    . cases ht
      rw [hnames]
      refine ⟨howner ▸ Nat.lt_succ_self _, ?_, fun name d hd => by cases hd⟩
      intro p hp
      obtain ⟨u, hu, hu'⟩ := hparent p hp
      exact ⟨u, hkept p u hu, hu'⟩
    . obtain ⟨hk, hparent', hnames'⟩ := hb.linked.scopes j t ht
      refine ⟨hk, fun p hp => ?_, hnames'⟩
      obtain ⟨u, hu, hu'⟩ := hparent' p hp
      exact ⟨u, hkept p u hu, hu'⟩
  . intro id j hj
    obtain ⟨t, ht, htree⟩ := hb.linked.scopeOf id j hj
    exact ⟨t, hkept j t ht, htree⟩

theorem declares_freshNode (he : e.IsSplit) (hb : Stage e fn b) {id : Nat}
    (h : Ends Resolve.freshNode b id b') :
    Declares e fn b b' ∧ e.counters.node ≤ id ∧ id < b'.counters.node ∧ Usable e fn b' id := by
  unfold Resolve.freshNode at h
  rw [ends_get_bind, ends_set_bind] at h
  obtain ⟨rfl, rfl⟩ := ends_pure.1 h
  refine ⟨⟨Nat.le_succ _, fun j t ht => ⟨t, ht, rfl, rfl, rfl⟩, rfl, ?_, fun _ _ _ => id,
    fun _ _ => id⟩, hb.linked.counters, Nat.lt_succ_self _, ?_⟩
  . refine ⟨{ hb.linked with
      counters := ?_, decls := ?_, uses := ?_, aliases := ?_
      captured := hb.captured_of_eq rfl rfl rfl }, hb.quiet, hb.idle⟩
    . exact Nat.le_succ_of_le hb.linked.counters
    . intro d decl hd
      obtain ⟨hk, hcase⟩ := hb.linked.decls d decl hd
      exact ⟨hk, hcase.imp_right fun h => ⟨h.1, Nat.lt_succ_of_lt h.2⟩⟩
    . intro id u d hu hd
      obtain ⟨decl, hdecl, hcase⟩ := hb.linked.uses id u d hu hd
      exact ⟨decl, hdecl, hcase.imp_right fun h => ⟨h.1, Nat.lt_succ_of_lt h.2⟩⟩
    . intro site outer hsite
      obtain ⟨hle, hlt, hrest⟩ := hb.linked.aliases site outer hsite
      exact ⟨hle, Nat.lt_succ_of_lt hlt, hrest⟩
  . refine .inr ⟨hb.linked.counters, Nat.lt_succ_self _, ?_, ?_⟩
    . intro site outer hsite heq
      obtain ⟨-, hlt, -⟩ := hb.linked.aliases site outer hsite
      omega
    . intro decl hdecl
      rcases (hb.linked.decls _ decl hdecl).2 with htree | ⟨-, hlt⟩
      . have := he.lt_of_inTree htree
        have := hb.linked.counters
        omega
      . omega

theorem declares_alias (hb : Stage e fn b) {site outer : Node} {u : Unit}
    (hsite : e.InTree fn site.id)
    (hle : e.counters.node ≤ outer.id) (hlt : outer.id < b.counters.node)
    (hbound : b.BoundIn fn outer.id)
    (h : Ends (modify fun b => { b with aliases := b.aliases.insert site.id outer } :
      Resolve Unit) b u b') : Declares e fn b b' := by
  cases ends_modify.1 h
  refine ⟨Nat.le_refl _, fun j t ht => ⟨t, ht, rfl, rfl, rfl⟩, rfl, ?_,
    fun _ _ _ => id, fun _ _ => id⟩
  refine ⟨{ hb.linked with aliases := ?_, captured := hb.captured_of_eq rfl rfl rfl }, hb.quiet,
    hb.idle⟩
  intro site' outer' hsite'
  dsimp only at hsite'
  rw [Table.get?_insert] at hsite'
  split at hsite'
  . next heq =>
    cases hsite'
    obtain ⟨u, d, decl, hu, hd, hdecl, ho⟩ := hbound
    exact ⟨hle, hlt, fn, u, d, decl, heq ▸ hsite, hu, hd, hdecl, ho⟩
  . exact hb.linked.aliases site' outer' hsite'

theorem declares_synthetic (he : e.IsSplit) (hb : Stage e fn b) {sc : Nat} {at_ : Int}
    {name : String}
    {kind : BindingKind} {id : Nat} (h : Ends
      (Resolve.declareSynthetic fn sc at_ name kind) b id b') :
    Declares e fn b b' ∧ b'.DeclIn fn id := by
  unfold Resolve.declareSynthetic at h
  obtain ⟨number, c, hnumber, h⟩ := ends_bind.1 h
  rw [ends_modify_bind] at h
  obtain ⟨rfl, rfl⟩ := ends_pure.1 h
  obtain ⟨hfresh, -, -, husable⟩ := declares_freshNode he hb hnumber
  exact ⟨hfresh.trans (declares_insertDecl he hfresh.stage husable rfl rfl),
    declIn_insertDecl rfl⟩

end Bindings
end ScriptC
