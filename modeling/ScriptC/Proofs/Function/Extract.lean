import ScriptC.Proofs.Function.Numbers
import ScriptC.Proofs.Pass
import ScriptC.Proofs.Table

/-!
The functions that a script is taken apart into. Every number of the tree ends up in at most one
function, every function comes after the one that its site stands in, and what is left of the tree
is formed like the tree.
-/

namespace ScriptC

def Kind.isStatement : Kind → Bool
  | .program | .block | .ifStatement | .labeled | .withStatement | .switchStatement | .switchCase
  | .tryStatement | .catchClause | .whileStatement | .doWhileStatement | .forStatement
  | .forInStatement | .forOfStatement | .functionDeclaration | .classDeclaration => true
  | _ => false

def Kind.holds : Kind → Role → Bool
  | .program, .item | .block, .item | .switchStatement, .item | .switchCase, .item
  | .ifStatement, .consequent | .ifStatement, .alternate | .labeled, .body | .withStatement, .body
  | .tryStatement, .block | .tryStatement, .handler | .tryStatement, .finalizer
  | .catchClause, .body | .whileStatement, .body | .doWhileStatement, .body | .forStatement, .body
  | .forInStatement, .body | .forOfStatement, .body | .functionDeclaration, .body
  | .functionExpression, .body | .arrowFunction, .body => true
  | _, _ => false

theorem Kind.isClass_of_isFunction {k : Kind} (h : k.isFunction = true) : k.isClass = false := by
  cases k <;> first | rfl | cases h

structure Node.IsFormed (n : Node) : Prop where
  roles : ∀ p ∈ n.parts, p.role ∈ n.kind.roles
  statement : ∀ r c, .node r c ∈ n.parts → c.kind.isStatement = true → n.kind.holds r = true
  caught : n.kind = .catchClause → ∀ c, .node .body c ∈ n.parts → c.kind = .block
  single : n.kind = .catchClause ∨ n.kind = .withStatement →
    (n.parts.filter fun p => p.role == .body).length ≤ 1
  named : n.kind = .functionDeclaration ∨ n.kind = .classDeclaration → (n.part? .name).isSome = true
  name : n.kind.isFunction = true ∨ n.kind.isClass = true → ∀ c, .node .name c ∈ n.parts →
    c.kind = .identifier
  value : n.functionMarks.exprBody = true → ∀ c, .node .body c ∈ n.parts →
    c.kind.isStatement = false
  members : n.kind.isClass = true → ∃ b, n.part? .body = some b ∧ b.kind = .classBody
  member : n.kind = .classBody → ∀ m, .node .item m ∈ n.parts →
    m.kind = .methodDefinition ∨ m.kind = .propertyDefinition
  method : n.kind = .methodDefinition →
    ∃ c, n.part? .value = some c ∧ c.kind = .functionExpression

theorem Node.IsFormed.parts_eq_nil {n : Node} (h : n.IsFormed) (hkind : n.kind.roles = []) :
    n.parts = [] := by
  apply List.eq_nil_iff_forall_not_mem.2
  intro p hp
  have hrole := h.roles p hp
  rw [hkind] at hrole
  cases hrole

def Node.IsLeft (n : Node) : Prop :=
  n.kind.isFunction = true → ∀ p ∈ n.parts, p.role = .name

def Function.IsBlank (f : Function) : Prop :=
  f.this = none ∧ f.newTarget = none ∧ f.captures.decls = []

namespace Extract

open Pass

def outline : Part → Role × Option (Nat × Span × Label)
  | .node r n => (r, some (n.id, n.span, n.label))
  | .hole r => (r, none)

def made (s s' : Extraction) : List Part :=
  (s'.functions.toList.drop s.functions.size).map fun f => .node .body f.node

def fresh (s s' : Extraction) (x : Nat) : Nat :=
  if s.counters.node ≤ x ∧ x < s'.counters.node then 1 else 0

/--
Going on in a function used up some parts and left others. `H` has the numbers of the sites that are
left in the function itself.
-/
structure Takes (fn : Nat) (H : Nat → Prop) (given left : List Part) (s s' : Extraction) :
    Prop where
  node : s.counters.node ≤ s'.counters.node
  size : s.functions.size ≤ s'.functions.size
  kept : ∀ (i : Nat) (f : Function), s.functions[i]? = some f →
    ∃ children isStrict, s'.functions[i]? = some { f with children, isStrict }
  budget : ∀ x, Part.times x left + Part.times x (made s s') ≤
    Part.times x given + fresh s s' x
  parent : ∀ (i : Nat) (f : Function), s.functions.size ≤ i → s'.functions[i]? = some f →
    (f.isProgram = false ∧ f.IsBlank) ∧ ∃ p site, f.parent = some p ∧ f.site = some site ∧
      (p = fn ∧ H site.id ∨
      s.functions.size ≤ p ∧ p < i ∧ ∃ g, s'.functions[p]? = some g ∧
        site.id ∈ (Part.nodes g.node.parts).map (·.id))
  sites : ∀ id c, s'.sites.get? id = some c → s.sites.get? id = some c ∨
    s.functions.size ≤ c ∧ ∃ f site, s'.functions[c]? = some f ∧ f.site = some site ∧ site.id = id

namespace Takes

variable {fn : Nat} {H H' : Nat → Prop} {given left given' left' : List Part}
  {s t s' : Extraction}

theorem refl (s : Extraction) (parts : List Part) : Takes fn H parts parts s s where
  node := Nat.le_refl _
  size := Nat.le_refl _
  kept i f h := ⟨_, _, h⟩
  budget x := by
    have hmade : made s s = [] := by simp [made]
    rw [hmade]
    exact Nat.le_add_right _ _
  parent i f hi h := by
    rw [Array.getElem?_eq_none hi] at h
    cases h
  sites id c h := .inl h

theorem node_of_kept (h : Takes fn H given left s s') {i : Nat} {f g : Function}
    (hf : s.functions[i]? = some f) (hg : s'.functions[i]? = some g) : g.node = f.node := by
  obtain ⟨_, _, hkept⟩ := h.kept i f hf
  rw [hkept] at hg
  cases hg
  rfl

theorem getElem?_made (s s' : Extraction) (i : Nat) : (made s s')[i]? =
    (s'.functions[s.functions.size + i]?).map fun f => .node .body f.node := by
  rw [made, List.getElem?_map, List.getElem?_drop, Array.getElem?_toList]

theorem map_node_take (h : Takes fn H given left s s') :
    (s'.functions.toList.map (·.node)).take s.functions.size = s.functions.toList.map (·.node) := by
  apply List.ext_getElem?
  intro i
  rw [List.getElem?_take, List.getElem?_map, List.getElem?_map, Array.getElem?_toList,
    Array.getElem?_toList]
  by_cases hi : i < s.functions.size
  . rw [if_pos hi]
    obtain ⟨f, hf⟩ : ∃ f, s.functions[i]? = some f := ⟨_, Array.getElem?_eq_getElem hi⟩
    obtain ⟨children, isStrict, hf'⟩ := h.kept i f hf
    rw [hf, hf']
    rfl
  . rw [if_neg hi, Array.getElem?_eq_none (by omega)]
    rfl

theorem made_trans (h : Takes fn H given left s t) (h' : Takes fn H' given' left' t s') :
    made s s' = made s t ++ made t s' := by
  have hsize := h.size
  have hmade : ∀ a b : Extraction, made a b =
      ((b.functions.toList.map (·.node)).drop a.functions.size).map (Part.node .body) := by
    intro a b
    rw [← List.map_drop, List.map_map]
    rfl
  rw [hmade, hmade, hmade, ← h'.map_node_take, ← List.map_append, List.drop_take]
  congr 1
  have hdrop : t.functions.size = s.functions.size + (t.functions.size - s.functions.size) := by
    omega
  conv => rhs; rhs; rw [hdrop, ← List.drop_drop]
  exact (List.take_append_drop _ _).symm

theorem trans (h : Takes fn H given left s t) (h' : Takes fn H given' left' t s') :
    Takes fn H (given ++ given') (left ++ left') s s' where
  node := Nat.le_trans h.node h'.node
  size := Nat.le_trans h.size h'.size
  kept i f hf := by
    obtain ⟨_, _, ht⟩ := h.kept i f hf
    obtain ⟨children, isStrict, hs'⟩ := h'.kept i _ ht
    exact ⟨children, isStrict, hs'⟩
  budget x := by
    have hb := h.budget x
    have hb' := h'.budget x
    have hn := h.node
    have hn' := h'.node
    rw [made_trans h h', Part.times_append, Part.times_append, Part.times_append]
    unfold fresh at *
    split at hb <;> split at hb' <;> split <;> omega
  parent i f hi hf := by
    by_cases hit : i < t.functions.size
    . obtain ⟨g, hg⟩ : ∃ g, t.functions[i]? = some g := ⟨_, Array.getElem?_eq_getElem hit⟩
      obtain ⟨children, isStrict, hg'⟩ := h'.kept i g hg
      rw [hg'] at hf
      cases hf
      obtain ⟨hprogram, p, site, hp, hsite, hplace⟩ := h.parent i g hi hg
      refine ⟨hprogram, p, site, hp, hsite, ?_⟩
      rcases hplace with hplace | ⟨hsp, hpi, o, ho, hid⟩
      . exact .inl hplace
      . obtain ⟨_, _, ho'⟩ := h'.kept p o ho
        exact .inr ⟨hsp, hpi, _, ho', hid⟩
    . obtain ⟨hprogram, p, site, hp, hsite, hplace⟩ := h'.parent i f (by omega) hf
      refine ⟨hprogram, p, site, hp, hsite, ?_⟩
      rcases hplace with hplace | ⟨hsp, hpi, hg⟩
      . exact .inl hplace
      . exact .inr ⟨Nat.le_trans h.size hsp, hpi, hg⟩
  sites id c hc := by
    rcases h'.sites id c hc with hc | ⟨hsize, hnew⟩
    . rcases h.sites id c hc with hc | ⟨hsize, f, site, hf, hsite, hid⟩
      . exact .inl hc
      . obtain ⟨_, _, hf'⟩ := h'.kept c f hf
        exact .inr ⟨hsize, _, site, hf', hsite, hid⟩
    . exact .inr ⟨Nat.le_trans h.size hsize, hnew⟩

theorem balance (h : Takes fn H given left s s')
    (hparts : ∀ x, Part.times x left' + Part.times x given ≤
      Part.times x given' + Part.times x left) (hH : ∀ id, H id → H' id) :
    Takes fn H' given' left' s s' where
  node := h.node
  size := h.size
  kept := h.kept
  budget x := by
    have hb := h.budget x
    have hp := hparts x
    omega
  parent i f hi hf := by
    obtain ⟨hprogram, p, site, hp, hsite, hplace⟩ := h.parent i f hi hf
    refine ⟨hprogram, p, site, hp, hsite, ?_⟩
    rcases hplace with ⟨hp, hid⟩ | hplace
    . exact .inl ⟨hp, hH _ hid⟩
    . exact .inr hplace
  sites := h.sites

theorem mono (h : Takes fn H given left s s') (hH : ∀ id, H id → H' id) :
    Takes fn H' given left s s' :=
  h.balance (fun _ => Nat.le_of_eq (Nat.add_comm _ _)) hH

end Takes

variable {fn : Nat} {H : Nat → Prop} {s s' : Extraction}

def leaf (id : Nat) : Part := .node .item (.mk id default .empty [])

theorem times_leaf (x id : Nat) : Part.times x [leaf id] = [id].count x := by
  rw [leaf, Node.times_eq]
  rfl

theorem ends_freshNode {id : Nat} (h : Ends freshNode s id s') :
    id = s.counters.node ∧
      s' = { s with counters := { s.counters with node := s.counters.node + 1 } } := by
  unfold freshNode at h
  rw [ends_get_bind, ends_set_bind] at h
  exact ends_pure.1 h

theorem takes_freshNode {id : Nat} (h : Ends freshNode s id s') : Takes fn H [] [leaf id] s s' := by
  obtain ⟨rfl, rfl⟩ := ends_freshNode h
  refine { @Takes.refl fn H s [] with node := Nat.le_succ _, budget := ?_ }
  intro x
  have hmade :
      made s { s with counters := { s.counters with node := s.counters.node + 1 } } = [] := by
    simp [made]
  rw [hmade, times_leaf, List.count_singleton]
  unfold fresh
  dsimp only
  split <;> split <;> simp_all

theorem functions_freshNode {id : Nat} (h : Ends freshNode s id s') :
    s'.functions = s.functions := by
  rw [(ends_freshNode h).2]

def Formed (parts : List Part) : Prop := ∀ m ∈ Part.nodes parts, m.IsFormed

def Split (parts : List Part) : Prop := ∀ m ∈ Part.nodes parts, m.IsFormed ∧ m.IsLeft

structure FormedFunction (n : Node) : Prop where
  isFormed : n.IsFormed
  isFunction : n.kind.isFunction = true
  split : Split n.parts
  body : ∃ b, n.part? .body = some b ∧ b.kind = .block
  only : ∀ c, .node .body c ∈ n.parts → n.part? .body = some c

def Forms (given left : List Part) (s s' : Extraction) : Prop :=
  Formed given → Split left ∧ ∀ (i : Nat) (f : Function), s.functions.size ≤ i →
    s'.functions[i]? = some f → FormedFunction f.node

theorem Formed.subset {given l : List Part} (h : Formed given)
    (hsub : Part.nodes l ⊆ Part.nodes given) : Formed l :=
  fun m hm => h m (hsub hm)

theorem Formed.holds {parts : List Part} {c : Node} (h : Formed parts) (hc : Part.Holds parts c) :
    Formed c.parts := by
  intro m hm
  apply h m
  apply Part.mem_nodes_of_holds hc
  rw [Node.preorder_eq]
  exact List.mem_cons_of_mem _ hm

theorem split_append {left left' : List Part} :
    Split (left ++ left') ↔ Split left ∧ Split left' := by
  unfold Split
  rw [Part.nodes_append, List.forall_mem_append]

theorem formed_append {l l' : List Part} :
    Formed (l ++ l') ↔ Formed l ∧ Formed l' := by
  unfold Formed
  rw [Part.nodes_append, List.forall_mem_append]

theorem split_node {r : Role} {n : Node} :
    Split [.node r n] ↔ (n.IsFormed ∧ n.IsLeft) ∧ Split n.parts := by
  unfold Split
  rw [Part.nodes_node, Part.nodes_nil, List.append_nil, Node.preorder_eq, List.forall_mem_cons]

theorem formed_node {r : Role} {n : Node} :
    Formed [.node r n] ↔ n.IsFormed ∧ Formed n.parts := by
  unfold Formed
  rw [Part.nodes_node, Part.nodes_nil, List.append_nil, Node.preorder_eq, List.forall_mem_cons]

theorem Forms.trans {given left given' left' g l : List Part} {t : Extraction}
    (h : Forms given left s t) (h' : Forms given' left' t s') (htakes : Takes fn H g l t s') :
      Forms (given ++ given') (left ++ left') s s' := by
  intro hgiven
  rw [formed_append] at hgiven
  obtain ⟨hleft, hnew⟩ := h hgiven.1
  obtain ⟨hleft', hnew'⟩ := h' hgiven.2
  refine ⟨split_append.2 ⟨hleft, hleft'⟩, ?_⟩
  intro i f hi hf
  by_cases hit : i < t.functions.size
  . obtain ⟨g, hg⟩ : ∃ g, t.functions[i]? = some g := ⟨_, Array.getElem?_eq_getElem hit⟩
    rw [htakes.node_of_kept hg hf]
    exact hnew i g hi hg
  . exact hnew' i f (by omega) hf

theorem Forms.same {given left : List Part} (hsize : s'.functions.size ≤ s.functions.size)
    (h : Formed given → Split left) : Forms given left s s' := by
  intro hgiven
  refine ⟨h hgiven, ?_⟩
  intro i f hi hf
  rw [Array.getElem?_eq_none (by omega)] at hf
  cases hf

theorem Forms.start {given left : List Part} {t : Extraction} (h : Forms given left t s')
    (hsize : t.functions.size = s.functions.size) : Forms given left s s' := by
  unfold Forms at *
  rwa [hsize] at h

theorem Forms.mono {given left given' left' : List Part} (h : Forms given left s s')
    (hgiven : Formed given' → Formed given) (hleft : Formed given' → Split left → Split left') :
    Forms given' left' s s' := by
  intro hformed
  obtain ⟨hsplit, hnew⟩ := h (hgiven hformed)
  exact ⟨hleft hformed hsplit, hnew⟩

theorem role_of_outline {p q : Part} (h : outline p = outline q) : p.role = q.role := by
  cases p <;> cases q <;> simp_all [outline, Part.role]

theorem isFormed_withParts {n : Node} {left : List Part} (h : n.IsFormed)
    (hsame : ∀ p ∈ left, outline p ∈ n.parts.map outline)
    (hnamed : n.kind = .functionDeclaration ∨ n.kind = .classDeclaration →
      ((n.withParts left).part? .name).isSome = true)
    (hname : n.kind.isFunction = true ∨ n.kind.isClass = true →
      ∀ c, .node .name c ∈ left → .node .name c ∈ n.parts)
    (hmembers : n.kind.isClass = true →
      ∃ b, (n.withParts left).part? .body = some b ∧ b.kind = .classBody)
    (hsingle : n.kind = .catchClause ∨ n.kind = .withStatement →
      (left.filter fun p => p.role == .body).length ≤ 1)
    (hmethod : n.kind = .methodDefinition →
      ∃ c, (n.withParts left).part? .value = some c ∧ c.kind = .functionExpression) :
    (n.withParts left).IsFormed := by
  obtain ⟨hroles, hstatement, hcaught, -, -, hnames, hvalue, -, hmember, -⟩ := h
  have hpart : ∀ r c, .node r c ∈ left → ∃ c', .node r c' ∈ n.parts ∧ c'.kind = c.kind := by
    intro r c hc
    obtain ⟨p, hp, hsame⟩ := List.mem_map.1 (hsame _ hc)
    cases p with
    | hole r' => simp [outline] at hsame
    | node r' c' =>
      simp only [outline, Prod.mk.injEq, Option.some.injEq] at hsame
      obtain ⟨rfl, -, -, hlabel⟩ := hsame
      exact ⟨c', hp, congrArg Label.kind hlabel⟩
  refine ⟨?_, ?_, ?_, hsingle, hnamed, fun hkind c hc => hnames hkind c (hname hkind c hc), ?_,
    hmembers, ?_, hmethod⟩
  . intro p hp
    obtain ⟨q, hq, hout⟩ := List.mem_map.1 (hsame p hp)
    rw [← role_of_outline hout]
    exact hroles q hq
  . intro r c hc hkind
    obtain ⟨c', hc', hsame⟩ := hpart r c hc
    exact hstatement r c' hc' (hsame ▸ hkind)
  . intro hkind c hc
    obtain ⟨c', hc', hsame⟩ := hpart _ c hc
    exact hsame ▸ hcaught hkind c' hc'
  . intro hbody c hc
    obtain ⟨c', hc', hsame⟩ := hpart _ c hc
    exact hsame ▸ hvalue hbody c' hc'
  . intro hkind c hc
    obtain ⟨c', hc', hsame⟩ := hpart _ c hc
    exact hsame ▸ hmember hkind c' hc'

theorem isFormed_of_quiet {n : Node} (hroles : ∀ p ∈ n.parts, p.role ∈ n.kind.roles)
    (hcatch : n.kind ≠ .catchClause ∧ n.kind ≠ .withStatement)
    (hmember : n.kind ≠ .classBody ∧ n.kind ≠ .methodDefinition)
      (hfunction : n.kind.isFunction = false) (hclass : n.kind.isClass = false)
    (h : ∀ r c, .node r c ∈ n.parts → c.kind.isStatement = false) : n.IsFormed where
  roles := hroles
  statement r c hc hkind := by
    rw [h r c hc] at hkind
    cases hkind
  caught hkind := absurd hkind hcatch.1
  single hkind := by
    rcases hkind with hkind | hkind
    . exact absurd hkind hcatch.1
    . exact absurd hkind hcatch.2
  named hkind := by
    rcases hkind with hkind | hkind
    . rw [hkind] at hfunction
      cases hfunction
    . rw [hkind] at hclass
      cases hclass
  name hkind := by
    rw [hfunction, hclass] at hkind
    simp at hkind
  value _ c hc := h .body c hc
  members hkind := by
    rw [hclass] at hkind
    cases hkind
  member hkind := absurd hkind hmember.1
  method hkind := absurd hkind hmember.2

def InParts (parts : List Part) (id : Nat) : Prop := id ∈ (Part.nodes parts).map (·.id)

structure Visits (visit : Visit) (A : Node → Prop) : Prop where
  takes : ∀ {fn place n s n' s'} (r : Role), Formed [.node r n] → fn < s.functions.size →
    Ends (visit fn place n) s n' s' → Takes fn (InParts [.node r n']) [.node r n] [.node r n'] s s'
  same : ∀ {fn place n s n' s'} (r : Role), Formed [.node r n] → fn < s.functions.size →
    Ends (visit fn place n) s n' s' → n'.id = n.id ∧ n'.span = n.span ∧ n'.label = n.label
  forms : ∀ {fn place n s n' s'} (r : Role), fn < s.functions.size →
    Ends (visit fn place n) s n' s' → A n → Forms [.node r n] [.node r n'] s s'

structure VisitsParts (A : Node → Prop) (fn : Nat) (parts left : List Part) (s s' : Extraction) :
    Prop where
  takes : Takes fn (InParts left) parts left s s'
  same : left.map outline = parts.map outline
  forms : (∀ c, Part.Holds parts c → A c) → Forms parts left s s'

variable {visit : Visit} {A : Node → Prop} {place : Option Place} {parent : Node}

theorem visits_visitParts (hvisit : Visits visit A) {parts left : List Part}
    (hformed : Formed parts) (hfn : fn < s.functions.size)
      (h : Ends (visitParts visit fn place parent parts) s left s') :
    VisitsParts A fn parts left s s' := by
  induction parts generalizing s left with
  | nil =>
    obtain ⟨rfl, rfl⟩ := ends_pure.1 h
    exact ⟨.refl _ _, rfl, fun _ => .same (Nat.le_refl _) fun _ m hm => by cases hm⟩
  | cons p rest ih =>
    cases p with
    | hole r =>
      rw [visitParts] at h
      obtain ⟨rest', t, hrest, h⟩ := ends_bind.1 h
      obtain ⟨rfl, rfl⟩ := ends_pure.1 h
      have htail := ih hformed hfn hrest
      refine ⟨htail.takes.balance (fun x => ?_) fun _ => id, ?_, ?_⟩
      . simp only [Part.times_hole]
        omega
      . simp [outline, htail.same]
      . intro hA
        apply htail.forms
        rintro c ⟨r', hc⟩
        exact hA c ⟨r', List.mem_cons_of_mem _ hc⟩
    | node r c =>
      rw [visitParts] at h
      obtain ⟨c', t, hc, h⟩ := ends_bind.1 h
      obtain ⟨rest', u, hrest, h⟩ := ends_bind.1 h
      obtain ⟨rfl, rfl⟩ := ends_pure.1 h
      obtain ⟨hhere, hthere⟩ := formed_append (l := [.node r c]).1 hformed
      have hhead := hvisit.takes r hhere hfn hc
      have htail := ih hthere (Nat.lt_of_lt_of_le hfn hhead.size) hrest
      have hids : ∀ id, InParts [.node r c'] id ∨ InParts rest' id →
          InParts (.node r c' :: rest') id := by
        intro id hid
        unfold InParts at *
        rw [Part.nodes_node, List.map_append, List.mem_append]
        simpa using hid
      refine ⟨?_, ?_, ?_⟩
      . exact (hhead.mono fun id hid => hids id (.inl hid)).trans
          (htail.takes.mono fun id hid => hids id (.inr hid))
      . obtain ⟨hid, hspan, hlabel⟩ := hvisit.same r hhere hfn hc
        simp [outline, htail.same, hid, hspan, hlabel]
      . intro hA
        refine (hvisit.forms r hfn hc (hA c ⟨r, List.mem_cons_self⟩)).trans
          (htail.forms ?_) htail.takes
        rintro c ⟨r', hc⟩
        exact hA c ⟨r', List.mem_cons_of_mem _ hc⟩

theorem visits_visitOption (hvisit : Visits visit A) (r : Role) {n n' : Option Node}
    (hformed : Formed (n.map (Part.node r)).toList) (hfn : fn < s.functions.size)
      (h : Ends (visitOption visit fn place n) s n' s') :
    VisitsParts A fn (n.map (Part.node r)).toList (n'.map (Part.node r)).toList s s' := by
  cases n with
  | none =>
    obtain ⟨rfl, rfl⟩ := ends_pure.1 h
    exact ⟨.refl _ _, rfl, fun _ => .same (Nat.le_refl _) fun _ m hm => by cases hm⟩
  | some c =>
    obtain ⟨c', hc, rfl⟩ := ends_map.1 h
    obtain ⟨hid, hspan, hlabel⟩ := hvisit.same r hformed hfn hc
    refine ⟨hvisit.takes r hformed hfn hc, ?_, ?_⟩
    . simp [outline, hid, hspan, hlabel]
    . intro hA
      exact hvisit.forms r hfn hc (hA c ⟨r, List.mem_singleton_self _⟩)

theorem takes_renew {functions : Array Function}
    (hkept : ∀ (i : Nat) (f : Function), s.functions[i]? = some f →
      ∃ children isStrict, functions[i]? = some { f with children, isStrict })
    (hsize : functions.size = s.functions.size) : Takes fn H [] [] s { s with functions } := by
  have hmade : made s { s with functions } = [] := by
    simp [made, ← hsize]
  refine ⟨Nat.le_refl _, ?_, hkept, ?_, ?_, fun _ _ => .inl⟩
  . exact Nat.le_of_eq hsize.symm
  . intro x
    rw [hmade]
    exact Nat.zero_le _
  . intro i f hi hf
    rw [Array.getElem?_eq_none (by simpa [hsize] using hi)] at hf
    cases hf

theorem kept_modify {functions : Array Function} {change : Function → Function}
    (h : ∀ f, ∃ children isStrict, change f = { f with children, isStrict }) (i : Nat)
    (f : Function) (hf : functions[i]? = some f) :
    ∃ children isStrict, (functions.modify fn change)[i]? = some { f with children, isStrict } := by
  rw [Array.getElem?_modify, hf]
  split
  . obtain ⟨children, isStrict, hchange⟩ := h f
    exact ⟨children, isStrict, by rw [Option.map_some, hchange]⟩
  . exact ⟨_, _, rfl⟩

theorem stripDirective_sublist (parts : List Part) : (stripDirective parts).1.Sublist parts := by
  induction parts with
  | nil => exact .refl _
  | cons p rest ih =>
    cases p with
    | hole r => exact .refl _
    | node r n =>
      unfold stripDirective
      split
      . exact .refl _
      . split
        . exact List.sublist_cons_self _ _
        . exact ih.cons_cons _

theorem times_stripDirective_le (x : Nat) (parts : List Part) :
    Part.times x (stripDirective parts).1 ≤ Part.times x parts := by
  induction parts with
  | nil => exact Nat.le_refl _
  | cons p rest ih =>
    cases p with
    | hole r => exact Nat.le_refl _
    | node r n =>
      unfold stripDirective
      split
      . exact Nat.le_refl _
      . split
        . simp only [Part.times_node]
          omega
        . simp only [Part.times_node]
          omega

def VisitsFunction (A : Node → Prop) (index : Nat) (node node' : Node) (s s' : Extraction) : Prop :=
  ∃ params body, node' = .mk node.id node.span (blockLabel node.label)
      (partsAt node .name ++ params ++ [.node .body body]) ∧ body.kind = .block ∧
    params.map outline = (partsAt node .param).map outline ∧
    Takes index (InParts (params ++ [.node .body body])) (partsAt node .param ++ partsAt node .body)
      (params ++ [.node .body body]) s s' ∧
    ((∀ c, Part.Holds node.parts c → A c) → node.IsFormed →
      Forms (partsAt node .param ++ partsAt node .body) (params ++ [.node .body body]) s s')

theorem inParts_append {l l' : List Part} {id : Nat} :
    InParts (l ++ l') id ↔ InParts l id ∨ InParts l' id := by
  unfold InParts
  rw [Part.nodes_append, List.map_append, List.mem_append]

theorem holds_partsAt {n c : Node} {r : Role} (h : Part.Holds (partsAt n r) c) :
    Part.Holds n.parts c := by
  obtain ⟨r', h⟩ := h
  exact ⟨r', (List.mem_filter.1 h).1⟩

theorem inParts_node {r : Role} {n : Node} {id : Nat} :
    InParts [.node r n] id ↔ id = n.id ∨ InParts n.parts id := by
  unfold InParts
  rw [Part.nodes_node, Part.nodes_nil, List.append_nil, Node.preorder_eq, List.map_cons,
    List.mem_cons]

theorem Split.node {r : Role} {n : Node} (h : n.IsFormed) (hkind : n.kind.isFunction = false)
    (hparts : Split n.parts) : Split [.node r n] :=
  split_node.2 ⟨⟨h, fun hfunction => by rw [hkind] at hfunction; cases hfunction⟩, hparts⟩

theorem visits_visitValueBody (hvisit : Visits visit A) {body body' : Node} {ret block : Nat}
    (hformed : Formed [.node .body body]) (hfn : fn < s.functions.size)
      (h : Ends (visitValueBody visit fn body ret block) s body' s') : body'.kind = .block ∧
    Takes fn (InParts [.node .body body']) [.node .body body, leaf ret, leaf block]
      [.node .body body'] s s' ∧
    (A body → body.kind.isStatement = false → Forms [.node .body body]
      [.node .body body'] s s') := by
  unfold visitValueBody at h
  obtain ⟨value, t, hvalue, h⟩ := ends_bind.1 h
  obtain ⟨rfl, rfl⟩ := ends_pure.1 h
  refine ⟨rfl, ?_, ?_⟩
  . refine (hvisit.takes .body hformed hfn hvalue).balance ?_ ?_
    . intro x
      rw [Part.times_cons (l := [leaf ret, leaf block]), Part.times_cons (l := [leaf block]),
        times_leaf, times_leaf]
      simp only [Node.times_eq, Part.times_nil, Node.id_withParts, Node.parts_withParts, Node.id_mk,
        Node.parts_mk]
      omega
    . intro id hid
      simp only [inParts_node, Node.id_withParts, Node.parts_withParts, Node.id_mk,
        Node.parts_mk] at hid ⊢
      exact .inr (.inr hid)
  . intro hA hkind
    have hlabel : value.kind.isStatement = false := by
      rw [Node.kind, (hvisit.same .body hformed hfn hvalue).2.2]
      exact hkind
    refine (hvisit.forms .body hfn hvalue hA).mono id ?_
    intro hformed hsplit
    have hreturn : (Node.mk ret body.span .returnStatement [.node .argument value]).IsFormed := by
      refine isFormed_of_quiet ?_ ⟨fun h => (by cases h), fun h => (by cases h)⟩
        ⟨fun h => (by cases h), fun h => (by cases h)⟩ rfl rfl ?_
      . intro p hp
        cases List.mem_singleton.1 hp
        exact List.mem_singleton_self _
      . intro r c hc
        cases List.mem_singleton.1 hc
        exact hlabel
    refine Split.node (isFormed_of_quiet ?_ ⟨fun h => (by cases h), fun h => (by cases h)⟩
      ⟨fun h => (by cases h), fun h => (by cases h)⟩ rfl rfl ?_) rfl ?_
    . intro p hp
      cases List.mem_singleton.1 hp
      exact List.mem_singleton_self _
    . intro r c hc
      cases List.mem_singleton.1 hc
      rfl
    . exact Split.node hreturn rfl (split_node.2 (split_node.1 hsplit))

theorem formed_statements {r : Role} {body : Node} {statements : List Part}
    (h : Formed [.node r body]) (hkind : body.kind = .block) (hsub : statements ⊆ body.parts) :
    Formed [.node r (body.withParts statements)] := by
  obtain ⟨hold, hparts⟩ := formed_node.1 h
  refine formed_node.2 ⟨isFormed_withParts hold ?_ ?_ ?_ ?_ ?_ ?_, ?_⟩
  . exact fun p hp => List.mem_map_of_mem (hsub hp)
  . rw [hkind]
    simp
  . exact fun _ c hc => hsub hc
  . rw [hkind]
    intro hclass
    cases hclass
  . rw [hkind]
    simp
  . rw [hkind]
    intro hmethod
    cases hmethod
  . exact hparts.subset (Part.nodes_subset hsub)

def IsInherited (A : Node → Prop) : Prop :=
  ∀ c parts, A c → parts ⊆ c.parts → A (c.withParts parts)

def IsPlain (n : Node) : Prop :=
  ∀ m ∈ n.preorder, m.kind.isFunction = false ∧ m.kind.isClass = false

theorem partsAt_subset (n : Node) (r : Role) : partsAt n r ⊆ n.parts :=
  fun _ hp => (List.mem_filter.1 hp).1

theorem ends_check {c : Prop} [Decidable c] {f : Fault} {u : Unit}
    (h : Ends (if c then throw f else pure () : Extract Unit) s u s') : s' = s := by
  split at h
  . exact absurd h not_ends_throw
  . exact (ends_pure.1 h).2

theorem ends_visitFunction {node node' : Node} (h : Ends (visitFunction visit fn node) s node' s') :
    ∃ body params body', node.part? .body = some body ∧
      node' = .mk node.id node.span (blockLabel node.label)
        (partsAt node .name ++ params ++ [.node .body body']) ∧
      ((node.functionMarks.exprBody = true ∧ ∃ ret block t₁ t₂ t₃, Ends freshNode s ret t₁ ∧
          Ends freshNode t₁ block t₂ ∧
          Ends (visitParts visit fn none node (partsAt node .param)) t₂ params t₃ ∧
          Ends (visitValueBody visit fn body ret block) t₃ body' s') ∨
        node.functionMarks.exprBody = false ∧ body.kind = .block ∧ ∃ t,
          Ends (visitParts visit fn none node (partsAt node .param))
            { s with functions := s.functions.modify fn fun f =>
              { f with isStrict := f.isStrict || (stripDirective body.parts).2 } } params t ∧
          Ends (visit fn (some (node.placeIn none .body))
            (body.withParts (stripDirective body.parts).1)) t body' s') := by
  unfold visitFunction at h
  split at h
  . next body hbody =>
    dsimp only at h
    split at h
    . next hexpr =>
      obtain ⟨ret, t₁, hret, h⟩ := ends_bind.1 h
      obtain ⟨block, t₂, hblock, h⟩ := ends_bind.1 h
      obtain ⟨_, t₃, hcheck, h⟩ := ends_bind.1 h
      cases ends_check hcheck
      obtain ⟨params, t₄, hparams, h⟩ := ends_bind.1 h
      obtain ⟨body', t₅, hbody', h⟩ := ends_bind.1 h
      obtain ⟨rfl, rfl⟩ := ends_pure.1 h
      exact ⟨body, params, body', hbody, rfl,
        .inl ⟨hexpr, ret, block, _, _, _, hret, hblock, hparams, hbody'⟩⟩
    . next hexpr =>
      split at h
      . next hblock =>
        rw [ends_modify_bind] at h
        obtain ⟨_, t₃, hcheck, h⟩ := ends_bind.1 h
        cases ends_check hcheck
        obtain ⟨params, t₄, hparams, h⟩ := ends_bind.1 h
        obtain ⟨body', t₅, hbody', h⟩ := ends_bind.1 h
        obtain ⟨rfl, rfl⟩ := ends_pure.1 h
        exact ⟨body, params, body', hbody, rfl,
          .inr ⟨by simpa using hexpr, by simpa using hblock, _, hparams, hbody'⟩⟩
      . exact absurd h not_ends_throw_bind
  . exact absurd h not_ends_throw

theorem visits_visitFunction (hvisit : Visits visit A) (hfn : fn < s.functions.size)
    (hclosed : IsInherited A) {node node' : Node} (hformed : Formed node.parts)
    (h : Ends (visitFunction visit fn node) s node' s') : VisitsFunction A fn node node' s s' := by
  obtain ⟨body, params, body', hbody, rfl, hcases⟩ := ends_visitFunction h
  have hat := Node.exists_of_part? hbody
  have hheld : Part.Holds node.parts body := holds_partsAt ⟨_, hat⟩
  have htimes : ∀ x, Part.times x [.node .body body] ≤ Part.times x (partsAt node .body) :=
    fun x => Node.times_part?_le hbody
  have hparamsFormed : Formed (partsAt node .param) :=
    hformed.subset (Part.nodes_subset (partsAt_subset _ _))
  have hbodyFormed : Formed [.node .body body] :=
    hformed.subset (Part.nodes_subset (by simpa using partsAt_subset _ _ hat))
  have hin : ∀ id, InParts params id ∨ InParts [.node .body body'] id →
      InParts (params ++ [.node .body body']) id := fun id => inParts_append.2
  obtain ⟨hexpr, ret, block, t₁, t₂, t₃, hret, hblock, hparams, hbody'⟩ |
    ⟨-, hbodyKind, t, hparams, hbody'⟩ := hcases
  . have hsize : t₂.functions.size = s.functions.size := by
      rw [functions_freshNode hblock, functions_freshNode hret]
    have hvparams := visits_visitParts hvisit hparamsFormed (by omega) hparams
    have hfn' := Nat.lt_of_lt_of_le (hsize ▸ hfn) hvparams.takes.size
    obtain ⟨hkind, htakes, hforms⟩ := visits_visitValueBody hvisit hbodyFormed hfn' hbody'
    refine ⟨params, body', rfl, hkind, hvparams.same, ?_, ?_⟩
    . refine ((takes_freshNode hret).trans ((takes_freshNode hblock).trans
        ((hvparams.takes.mono fun id hid => hin id (.inl hid)).trans
          (htakes.mono fun id hid => hin id (.inr hid))))).balance ?_ fun _ => id
      intro x
      have hx := htimes x
      simp only [Part.times_append, Part.times_nil]
      rw [Part.times_cons (l := [leaf ret, leaf block]), Part.times_cons (l := [leaf block])]
      omega
    . intro hA hnode
      have hforms' := (hvparams.forms fun c hc => hA c (holds_partsAt hc)).trans
        (hforms (hA _ hheld) (hnode.value hexpr body (List.mem_filter.1 hat).1)) htakes
      refine (hforms'.start hsize).mono (fun hformed => ?_) fun _ => id
      rw [formed_append] at hformed ⊢
      exact ⟨hformed.1, hformed.2.subset (Part.nodes_subset (by simpa using hat))⟩
  . have hvparams := visits_visitParts hvisit hparamsFormed (by simpa using hfn) hparams
    have hfn' := Nat.lt_of_lt_of_le (by simpa using hfn) hvparams.takes.size
    have hsub := (stripDirective_sublist body.parts).subset
    have hstripped := formed_statements hbodyFormed hbodyKind hsub
    have htakes := hvisit.takes .body hstripped hfn' hbody'
    refine ⟨params, body', rfl, ?_, hvparams.same, ?_, ?_⟩
    . rw [Node.kind, (hvisit.same .body hstripped hfn' hbody').2.2]
      exact hbodyKind
    . have hrenew := @takes_renew fn (InParts (params ++ [.node .body body'])) s
        (s.functions.modify fn fun f =>
          { f with isStrict := f.isStrict || (stripDirective body.parts).2 }) ?_ ?_
      . refine (hrenew.trans ((hvparams.takes.mono fun id hid => hin id (.inl hid)).trans
          (htakes.mono fun id hid => hin id (.inr hid)))).balance ?_ fun _ => id
        intro x
        have hx := htimes x
        have hst := times_stripDirective_le x body.parts
        simp only [Part.times_append, Part.times_nil, Node.times_eq, Node.id_withParts,
          Node.parts_withParts] at hx ⊢
        omega
      . exact kept_modify fun f => ⟨f.children, _, rfl⟩
      . exact Array.size_modify
    . intro hA _
      have hforms := (hvparams.forms fun c hc => hA c (holds_partsAt hc)).trans
        (hvisit.forms .body hfn' hbody' (hclosed _ _ (hA _ hheld) hsub)) htakes
      refine (hforms.start Array.size_modify).mono (fun hformed => ?_) fun _ => id
      rw [formed_append] at hformed ⊢
      exact ⟨hformed.1, hstripped⟩

structure Enters (parent : Option Nat) (site : Option Node) (isProgram : Bool) (node : Node)
    (c : Circumstances) (record : Function) (s t : Extraction) : Prop where
  numbers : t.counters.node = s.counters.node
  size : t.functions.size = s.functions.size + 1
  sites : t.sites = s.sites
  finished : t.finished = s.finished
  change : ∀ (i : Nat) (f : Function), s.functions[i]? = some f →
    t.functions[i]? = some (if parent = some i then
      { f with children := f.children ++ [s.functions.size] } else f)
  added : t.functions[s.functions.size]? = some record
  outer : record.parent = parent
  place : record.site = site
  top : record.isProgram = isProgram
  arrow : record.isArrow = (node.kind == .arrowFunction)
  blank : record.IsBlank
  childless : record.children = []
  strict : record.isStrict = (c.isStrict || parent.any fun p => s.functions[p]?.any (·.isStrict))
  constructor : record.isConstructor = c.isConstructor

theorem Enters.kept {parent : Option Nat} {site : Option Node} {isProgram : Bool} {node : Node}
    {c : Circumstances} {record : Function} {t : Extraction}
    (h : Enters parent site isProgram node c record s t) (i : Nat) (f : Function)
    (hf : s.functions[i]? = some f) :
    ∃ children isStrict, t.functions[i]? = some { f with children, isStrict } := by
  rw [h.change i f hf]
  split
  . exact ⟨_, f.isStrict, rfl⟩
  . exact ⟨_, _, rfl⟩

theorem enters_push {parent : Option Nat} {site : Option Node} {isProgram : Bool} {node : Node}
    {c : Circumstances} {record : Function} {name : Nat}
    (hparent : ∀ p, parent = some p → p < s.functions.size)
    (houter : record.parent = parent) (hplace : record.site = site)
    (htop : record.isProgram = isProgram)
    (harrow : record.isArrow = (node.kind == .arrowFunction)) (hblank : record.IsBlank)
    (hchildless : record.children = [])
    (hstrict : record.isStrict =
      (c.isStrict || parent.any fun p => s.functions[p]?.any (·.isStrict)))
    (hconstructor : record.isConstructor = c.isConstructor) :
    Enters parent site isProgram node c record s
      { counters := { node := s.counters.node, name := name }
        functions :=
          match parent with
          | some p => (s.functions.push record).modify p fun f =>
              { f with children := f.children ++ [s.functions.size] }
          | none => s.functions.push record
        sites := s.sites
        finished := s.finished } := by
  have hpush : ∀ (i : Nat) (f : Function), s.functions[i]? = some f →
      (s.functions.push record)[i]? = some f := by
    intro i f hf
    obtain ⟨hi, -⟩ := Array.getElem?_eq_some_iff.1 hf
    rw [Array.getElem?_push, if_neg (by omega), hf]
  cases parent with
  | none =>
    refine ⟨rfl, by simp, rfl, rfl, ?_, by simp, houter, hplace, htop, harrow, hblank, hchildless,
      hstrict, hconstructor⟩
    intro i f hf
    simpa using hpush i f hf
  | some p =>
    refine ⟨rfl, by simp, rfl, rfl, ?_, ?_, houter, hplace, htop, harrow, hblank, hchildless,
      hstrict, hconstructor⟩
    . intro i f hf
      dsimp only
      rw [Array.getElem?_modify, hpush i f hf]
      by_cases hp : p = i
      . rw [if_pos hp, if_pos (by rw [hp]), Option.map_some]
      . rw [if_neg hp, if_neg (by simpa using hp)]
    . have hp := hparent p rfl
      dsimp only
      rw [Array.getElem?_modify, if_neg (by omega), Array.getElem?_push_size]

theorem ends_enter {parent : Option Nat} {site : Option Node} {isProgram : Bool} {node : Node}
    {c : Circumstances} (hparent : ∀ p, parent = some p → p < s.functions.size)
    (h : Ends (enter visit parent site isProgram node c) s () s') :
    ∃ record t u node', Enters parent site isProgram node c record s t ∧
      Ends (visitFunction visit s.functions.size node) t node' u ∧
      s' = { u with
        functions := u.functions.modify s.functions.size fun f => { f with node := node' }
        finished := u.finished ++ [s.functions.size] } := by
  unfold enter freshName at h
  rw [bind_assoc, ends_get_bind, bind_assoc, ends_set_bind, pure_bind, ends_get_bind] at h
  dsimp only at h
  rw [ends_modify_bind] at h
  obtain ⟨node', u, hvisit, h⟩ := ends_bind.1 h
  rw [ends_modify.1 h]
  cases parent with
  | none | some p =>
    refine ⟨_, _, u, node', enters_push hparent ?_ ?_ ?_ ?_ ⟨rfl, rfl, rfl⟩ ?_ ?_ ?_,
      hvisit, rfl⟩ <;>
      rfl

theorem kind_blockLabel (l : Label) : (blockLabel l).kind = l.kind := by
  cases l <;> rfl

theorem exprBody_blockLabel {l : Label} {i : Nat} {span : Span} {parts : List Part}
    (h : l.kind = .functionExpression ∨ l.kind = .arrowFunction) :
    (Node.mk i span (blockLabel l) parts).functionMarks.exprBody = false := by
  cases l with
  | functionExpression m => rfl
  | arrowFunction m => rfl
  | _ => rcases h with h | h <;> cases h

theorem part?_append_of_role {n c : Node} {r : Role} {front : List Part}
    (h : ∀ p ∈ front, p.role ≠ r) : (n.withParts (front ++ [.node r c])).part? r = some c := by
  unfold Node.part?
  rw [Node.parts_withParts, List.findSome?_append, List.findSome?_eq_none_iff.2]
  . simp [Part.role, Part.node?]
  . intro p hp
    simp [h p hp]

theorem role_of_mem_partsAt {n : Node} {r : Role} {p : Part} (h : p ∈ partsAt n r) :
    p.role = r := by
  simpa using (List.mem_filter.1 h).2

theorem exists_of_outline {left given : List Part} (h : left.map outline = given.map outline)
    {p : Part} (hp : p ∈ left) : ∃ q ∈ given, outline q = outline p := by
  have hmem := List.mem_map_of_mem (f := outline) hp
  rw [h] at hmem
  obtain ⟨q, hq, hpq⟩ := List.mem_map.1 hmem
  exact ⟨q, hq, hpq⟩

theorem role_of_params {node : Node} {params : List Part}
    (h : params.map outline = (partsAt node .param).map outline) {p : Part} (hp : p ∈ params) :
    p.role = .param := by
  obtain ⟨q, hq, hpq⟩ := exists_of_outline h hp
  rw [← role_of_outline hpq, role_of_mem_partsAt hq]

theorem split_names {n : Node} (h : n.IsFormed) (hparts : Formed n.parts)
    (hkind : n.kind.isFunction = true ∨ n.kind.isClass = true) : Split (partsAt n .name) := by
  intro m hm
  obtain ⟨c, ⟨r, hc⟩, hmc⟩ := Part.exists_holds_of_mem_nodes hm
  obtain rfl : r = .name := role_of_mem_partsAt hc
  have hmem := partsAt_subset n .name hc
  have hid := h.name hkind c hmem
  have hformed := hparts c (Part.mem_nodes_of_holds ⟨_, hmem⟩ Node.mem_preorder_self)
  have hleaf := hformed.parts_eq_nil (by rw [hid]; rfl)
  rw [Node.preorder_eq, hleaf, Part.nodes_nil, List.mem_singleton] at hmc
  subst hmc
  refine ⟨hformed, ?_⟩
  intro hfunction
  rw [hid] at hfunction
  cases hfunction

theorem FormedFunction.of_visits {node node' : Node} (hvisits : VisitsFunction A fn node node' s s')
    (hnode : node.IsFormed) (hkind : node.kind = .functionExpression ∨ node.kind = .arrowFunction)
    (hA : ∀ c, Part.Holds node.parts c → A c) (hparts : Formed node.parts) :
    FormedFunction node' ∧ ∀ (i : Nat) (f : Function), s.functions.size ≤ i →
      s'.functions[i]? = some f → FormedFunction f.node := by
  have hfunction : node.kind.isFunction = true := by
    rcases hkind with hkind | hkind <;> rw [hkind] <;> rfl
  obtain ⟨params, body, rfl, hbody, hparams, -, hforms⟩ := hvisits
  obtain ⟨hsplit, hnew⟩ := hforms hA hnode (formed_append.2
    ⟨hparts.subset (Part.nodes_subset (partsAt_subset _ _)),
      hparts.subset (Part.nodes_subset (partsAt_subset _ _))⟩)
  have hlabel : (blockLabel node.label).kind = node.kind := kind_blockLabel _
  have hlast : (Node.mk node.id node.span (blockLabel node.label)
      (partsAt node .name ++ params ++ [.node .body body])).part? .body = some body := by
    apply part?_append_of_role (n := node)
    intro p hp
    rcases List.mem_append.1 hp with hp | hp
    . rw [role_of_mem_partsAt hp]
      simp
    . rw [role_of_params hparams hp]
      simp
  refine ⟨⟨⟨?_, ?_, ?_, ?_, ?_, ?_, ?_, ?_, ?_, ?_⟩, ?_, ?_, ⟨body, hlast, hbody⟩, ?_⟩, hnew⟩
  . intro p hp
    change p.role ∈ (blockLabel node.label).kind.roles
    have hroles : node.kind.roles = [.name, .param, .body] := by
      rcases hkind with hkind | hkind <;> rw [hkind] <;> rfl
    rw [hlabel, hroles]
    rw [Node.parts_mk, List.mem_append, List.mem_append, List.mem_singleton] at hp
    rcases hp with (hp | hp) | rfl
    . rw [role_of_mem_partsAt hp]
      simp
    . rw [role_of_params hparams hp]
      simp
    . simp [Part.role]
  . intro r c hc hstatement
    change (blockLabel node.label).kind.holds r = true
    rw [hlabel]
    rw [Node.parts_mk, List.mem_append, List.mem_append, List.mem_singleton] at hc
    rcases hc with (hc | hc) | hc
    . exact hnode.statement r c (partsAt_subset _ _ hc) hstatement
    . obtain ⟨q, hq, hout⟩ := exists_of_outline hparams hc
      cases q with
      | hole r' => simp [outline] at hout
      | node r' c' =>
        simp only [outline, Prod.mk.injEq, Option.some.injEq] at hout
        obtain ⟨rfl, -, -, hl⟩ := hout
        apply hnode.statement r' c' (partsAt_subset _ _ hq)
        rw [Node.kind, hl]
        exact hstatement
    . cases hc
      rcases hkind with hkind | hkind <;> rw [hkind] <;> rfl
  . intro hcatch
    change (blockLabel node.label).kind = _ at hcatch
    rw [hlabel] at hcatch
    rw [hcatch] at hfunction
    cases hfunction
  . intro hcatch
    change (blockLabel node.label).kind = _ ∨ (blockLabel node.label).kind = _ at hcatch
    rw [hlabel] at hcatch
    rcases hkind with hkind | hkind <;> simp [hkind] at hcatch
  . intro hdecl
    change (blockLabel node.label).kind = _ ∨ (blockLabel node.label).kind = _ at hdecl
    rw [hlabel] at hdecl
    rcases hkind with hkind | hkind <;> simp [hkind] at hdecl
  . intro _ c hc
    rw [Node.parts_mk, List.mem_append, List.mem_append, List.mem_singleton] at hc
    rcases hc with (hc | hc) | hc
    . exact hnode.name (.inl hfunction) c (partsAt_subset _ _ hc)
    . exact absurd (role_of_params hparams hc) (by simp [Part.role])
    . cases hc
  . intro hexpr
    rw [exprBody_blockLabel hkind] at hexpr
    cases hexpr
  . intro hclass
    change (blockLabel node.label).kind.isClass = true at hclass
    rw [hlabel] at hclass
    rcases hkind with hkind | hkind <;> rw [hkind] at hclass <;> cases hclass
  . intro hclass
    change (blockLabel node.label).kind = _ at hclass
    rw [hlabel] at hclass
    rcases hkind with hkind | hkind <;> rw [hkind] at hclass <;> cases hclass
  . intro hmethod
    change (blockLabel node.label).kind = _ at hmethod
    rw [hlabel] at hmethod
    rcases hkind with hkind | hkind <;> rw [hkind] at hmethod <;> cases hmethod
  . change (blockLabel node.label).kind.isFunction = true
    rw [hlabel]
    exact hfunction
  . rw [Node.parts_mk, List.append_assoc, split_append]
    exact ⟨split_names hnode hparts (.inl hfunction), hsplit⟩
  . intro c hc
    rw [Node.parts_mk, List.mem_append, List.mem_append, List.mem_singleton] at hc
    rcases hc with (hc | hc) | hc
    . exact absurd (role_of_mem_partsAt hc) (by simp [Part.role])
    . exact absurd (role_of_params hparams hc) (by simp [Part.role])
    . cases hc
      exact hlast

theorem times_parts_of_visits {node node' : Node} (h : VisitsFunction A fn node node' s s') :
    Takes fn (InParts node'.parts) node.parts node'.parts s s' ∧ node'.id = node.id := by
  obtain ⟨params, body, rfl, -, -, htakes, -⟩ := h
  refine ⟨htakes.balance ?_ ?_, rfl⟩
  . intro x
    have hroles := Node.times_partsAt_add_three (x := x) (n := node) (r := .name) (t := .param)
      (u := .body) (by simp) (by simp) (by simp)
    simp only [Node.parts_mk, Part.times_append] at *
    omega
  . intro id hid
    rw [Node.parts_mk, List.append_assoc, inParts_append]
    exact .inr hid

theorem visits_enter (hvisit : Visits visit A)
    (hclosed : IsInherited A) {parent : Option Nat}
    {site : Option Node} {isProgram : Bool} {node : Node} {c : Circumstances}
    (hformed : Formed node.parts) (hparent : ∀ p, parent = some p → p < s.functions.size)
    (h : Ends (enter visit parent site isProgram node c) s () s') :
    ∃ record t u node', Enters parent site isProgram node c record s t ∧
      VisitsFunction A s.functions.size node node' t u ∧ s'.counters = u.counters ∧
      s'.sites = u.sites ∧ s'.functions.size = u.functions.size ∧
      made s s' = .node .body node' :: made t u ∧
      ∃ children isStrict, ∀ i, s'.functions[i]? = if i = s.functions.size then
        some { record with children, isStrict, node := node' } else u.functions[i]? := by
  obtain ⟨record, t, u, node', henters, hfunction, rfl⟩ := ends_enter hparent h
  have hsize := henters.size
  have hvisits := visits_visitFunction hvisit (by omega) hclosed hformed hfunction
  obtain ⟨children, isStrict, hrecord⟩ := (times_parts_of_visits hvisits).1.kept _ _ henters.added
  have hget : ∀ i, (u.functions.modify s.functions.size fun f => { f with node := node' })[i]? =
      if i = s.functions.size then some { record with children, isStrict, node := node' }
      else u.functions[i]? := by
    intro i
    rw [Array.getElem?_modify]
    by_cases hi : i = s.functions.size
    . subst hi
      rw [if_pos rfl, if_pos rfl, hrecord]
      rfl
    . rw [if_neg (Ne.symm hi), if_neg hi]
  refine ⟨record, t, u, node', henters, hvisits, rfl, rfl, Array.size_modify, ?_,
    children, isStrict,
    hget⟩
  apply List.ext_getElem?
  intro i
  rw [Takes.getElem?_made]
  cases i with
  | zero =>
    rw [hget, if_pos (by omega)]
    rfl
  | succ i =>
    rw [hget, if_neg (by omega), List.getElem?_cons_succ, Takes.getElem?_made, hsize,
      Nat.add_assoc, Nat.add_comm 1 i]

theorem takes_enter (hvisit : Visits visit A)
    (hclosed : IsInherited A) {site node : Node}
    {c : Circumstances} (hformed : Formed node.parts) (hfn : fn < s.functions.size)
    (h : Ends (enter visit (some fn) (some site) false node c)
      { s with sites := s.sites.insert site.id s.functions.size } () s') :
    Takes fn (· = site.id) [.node .body node] [] s s' ∧
      (node.IsFormed → node.kind = .functionExpression ∨ node.kind = .arrowFunction →
        (∀ c, Part.Holds node.parts c → A c) → ∀ (i : Nat) (f : Function),
          s.functions.size ≤ i → s'.functions[i]? = some f → FormedFunction f.node) := by
  obtain ⟨record, t, u, node', henters, hvisits, hcounters, hsites, hsizes, hmade, children,
    isStrict, hget⟩ := visits_enter hvisit hclosed hformed (by rintro p ⟨⟩; exact hfn) h
  change VisitsFunction A s.functions.size node node' t u at hvisits
  change made s s' = _ at hmade
  change ∀ i, s'.functions[i]? = if i = s.functions.size then _ else _ at hget
  have hnumbers : t.counters.node = s.counters.node := henters.numbers
  have hsize : t.functions.size = s.functions.size + 1 := henters.size
  obtain ⟨htakes, hid⟩ := times_parts_of_visits hvisits
  refine ⟨⟨?_, ?_, ?_, ?_, ?_, ?_⟩, ?_⟩
  . rw [hcounters, ← hnumbers]
    exact htakes.node
  . have := htakes.size
    omega
  . intro i f hf
    obtain ⟨hi, -⟩ := Array.getElem?_eq_some_iff.1 hf
    obtain ⟨_, _, hf'⟩ := henters.kept i f hf
    obtain ⟨_, _, hf''⟩ := htakes.kept i _ hf'
    rw [hget, if_neg (by omega)]
    exact ⟨_, _, hf''⟩
  . intro x
    have hb := htakes.budget x
    have hfresh : fresh s s' x = fresh t u x := by
      unfold fresh
      rw [hnumbers, hcounters]
    rw [hmade, Part.times_nil, Node.times_eq, Node.times_eq, hid, Part.times_nil, hfresh]
    omega
  . intro i f hi hf
    rw [hget] at hf
    split at hf
    . cases hf
      exact ⟨⟨henters.top, henters.blank⟩, fn, site, henters.outer, henters.place, .inl ⟨rfl, rfl⟩⟩
    . obtain ⟨hprogram, p, site', hp, hsite, hplace⟩ := htakes.parent i f (by omega) hf
      refine ⟨hprogram, p, site', hp, hsite, .inr ?_⟩
      rcases hplace with ⟨rfl, hin⟩ | ⟨hsp, hpi, g, hg, hin⟩
      . exact ⟨Nat.le_refl _, by omega, _, (hget _).trans (if_pos rfl), hin⟩
      . refine ⟨by omega, hpi, g, ?_, hin⟩
        rw [hget, if_neg (by omega)]
        exact hg
  . intro id c hc
    rw [hsites] at hc
    rcases htakes.sites id c hc with hc | ⟨hsc, f, site', hf, hsite, hsid⟩
    . rw [henters.sites, Table.get?_insert] at hc
      split at hc
      . next heq =>
        cases hc
        exact .inr ⟨Nat.le_refl _, _, site, (hget _).trans (if_pos rfl), henters.place, heq⟩
      . exact .inl hc
    . refine .inr ⟨by omega, f, site', ?_, hsite, hsid⟩
      rw [hget, if_neg (by omega)]
      exact hf
  . intro hnode hkind hA i f hi hf
    obtain ⟨hroot, hnew⟩ := FormedFunction.of_visits hvisits hnode hkind hA hformed
    rw [hget] at hf
    split at hf
    . cases hf
      exact hroot
    . exact hnew i f (by omega) hf

theorem role_of_holds {k : Kind} {r : Role} (hk : k.isFunction = true) (h : k.holds r = true) :
    r = .body := by
  cases k <;> simp [Kind.isFunction] at hk <;> cases r <;> simp [Kind.holds] at h <;> rfl

theorem isFormed_function {n node : Node} (h : n.IsFormed) (hkind : n.kind.isFunction = true)
    (hnode : node.kind = .functionExpression ∨ node.kind = .arrowFunction)
    (hmarks : node.functionMarks = n.functionMarks) (hsub : node.parts ⊆ n.parts) :
    node.IsFormed := by
  refine ⟨?_, ?_, ?_, ?_, ?_, fun _ c hc => h.name (.inl hkind) c (hsub hc), ?_, ?_, ?_, ?_⟩
  . intro p hp
    have hroles : node.kind.roles = n.kind.roles := by
      have hn : n.kind.roles = [.name, .param, .body] := by
        cases hk : n.kind <;> rw [hk] at hkind <;> first | rfl | cases hkind
      rcases hnode with hnode | hnode <;> rw [hnode, hn] <;> rfl
    rw [hroles]
    exact h.roles p (hsub hp)
  . intro r c hc hstatement
    obtain rfl := role_of_holds hkind (h.statement r c (hsub hc) hstatement)
    rcases hnode with hnode | hnode <;> rw [hnode] <;> rfl
  . intro hcatch
    rcases hnode with hnode | hnode <;> rw [hnode] at hcatch <;> cases hcatch
  . intro hcatch
    rcases hnode with hnode | hnode <;> simp [hnode] at hcatch
  . intro hdecl
    rcases hnode with hnode | hnode <;> simp [hnode] at hdecl
  . intro hexpr c hc
    rw [hmarks] at hexpr
    exact h.value hexpr c (hsub hc)
  . intro hclass
    rcases hnode with hnode | hnode <;> rw [hnode] at hclass <;> cases hclass
  . intro hclass
    rcases hnode with hnode | hnode <;> rw [hnode] at hclass <;> cases hclass
  . intro hmethod
    rcases hnode with hnode | hnode <;> rw [hnode] at hmethod <;> cases hmethod

theorem part?_partsAt (n : Node) (r : Role) :
    (n.withParts (partsAt n r)).part? r = n.part? r := by
  unfold Node.part? partsAt
  rw [Node.parts_withParts]
  induction n.parts with
  | nil => rfl
  | cons p rest ih =>
    rw [List.filter_cons, List.findSome?_cons]
    split
    . next hr =>
      rw [List.findSome?_cons, hr, ih]
      rfl
    . exact ih

def takenLabel : Label → Label
  | .functionDeclaration m => .functionExpression m
  | l => l

theorem kind_takenLabel {l : Label} (h : l.kind.isFunction = true) :
    (takenLabel l).kind = .functionExpression ∨ (takenLabel l).kind = .arrowFunction := by
  cases l with
  | functionDeclaration m => exact .inl rfl
  | functionExpression m => exact .inl rfl
  | arrowFunction m => exact .inr rfl
  | _ => cases h

theorem visits_extract (hvisit : Visits visit A)
    (hclosed : IsInherited A) {n site : Node}
    {c : Circumstances} (r : Role) (hformed : Formed n.parts) (hfn : fn < s.functions.size)
    (hkind : n.kind.isFunction = true) (h : Ends (extract visit fn n c) s site s') :
    site.id = n.id ∧ site.span = n.span ∧ site.label = n.label ∧
      Takes fn (InParts [.node r site]) [.node r n] [.node r site] s s' ∧
      ((∀ c, Part.Holds n.parts c → A c) → Forms [.node r n] [.node r site] s s') := by
  unfold extract at h
  obtain ⟨number, t, hnumber, h⟩ := ends_bind.1 h
  dsimp only at h
  rw [ends_modify_bind] at h
  obtain ⟨_, u, henter, h⟩ := ends_bind.1 h
  obtain ⟨rfl, rfl⟩ := ends_pure.1 h
  have hfunctions := functions_freshNode hnumber
  generalize hnode : Node.mk number n.span _ _ = node at henter
  have hsub : node.parts ⊆ n.parts := by
    rw [← hnode]
    intro p hp
    rw [Node.parts_mk] at hp
    split at hp <;> simp only [List.mem_append] at hp
    . rcases hp with hp | hp <;> exact partsAt_subset _ _ hp
    . rcases hp with hp | hp | hp <;> exact partsAt_subset _ _ hp
  obtain ⟨htakes, hforms⟩ := takes_enter hvisit hclosed (hformed.subset (Part.nodes_subset hsub))
    (by rw [hfunctions]; exact hfn) henter
  refine ⟨rfl, rfl, rfl, ?_, ?_⟩
  . refine ((takes_freshNode hnumber).trans (htakes.mono ?_)).balance ?_ fun _ => id
    . rintro _ rfl
      exact inParts_node.2 (.inl rfl)
    . intro x
      have hroles := Node.times_partsAt_add_three (x := x) (n := n) (r := .name) (t := .param)
        (u := .body) (by simp) (by simp) (by simp)
      rw [← hnode, Part.times_append, Part.times_append, times_leaf]
      simp only [Node.times_eq, Part.times_nil, Node.id_withParts, Node.parts_withParts, Node.id_mk,
        Node.parts_mk]
      split <;> simp only [Part.times_append, Part.times_nil] <;> omega
  . intro hA hformed
    obtain ⟨hn, hparts⟩ := formed_node.1 hformed
    have hkinds : node.kind = .functionExpression ∨ node.kind = .arrowFunction := by
      rw [← hnode]
      exact kind_takenLabel hkind
    have hmarks : node.functionMarks = n.functionMarks := by
      rw [← hnode]
      cases n with
      | mk id span label parts => cases label <;> rfl
    have hclass : ∀ {P : Prop}, n.kind.isClass = true → P := by
      intro P hclass
      rw [Kind.isClass_of_isFunction hkind] at hclass
      cases hclass
    have hsingle : ∀ {P : Prop}, n.kind = .catchClause ∨ n.kind = .withStatement → P := by
      rintro P (hk | hk) <;> rw [hk] at hkind <;> cases hkind
    have hmethod : ∀ {P : Prop}, n.kind = .methodDefinition → P := by
      intro P hmethod
      rw [hmethod] at hkind
      cases hkind
    refine ⟨?_, ?_⟩
    . by_cases hdecl : n.kind = .functionDeclaration
      . simp only [hdecl, beq_self_eq_true, if_true]
        refine split_node.2 ⟨⟨isFormed_withParts hn ?_ ?_ ?_ hclass hsingle hmethod, ?_⟩,
          split_names hn hparts (.inl hkind)⟩
        . exact fun p hp => List.mem_map_of_mem (partsAt_subset _ _ hp)
        . rw [part?_partsAt]
          exact hn.named
        . exact fun _ c hc => partsAt_subset _ _ hc
        . exact fun _ p hp => role_of_mem_partsAt hp
      . rw [if_neg (by simpa using hdecl)]
        refine split_node.2 ⟨⟨isFormed_withParts hn ?_ ?_ ?_ hclass hsingle hmethod, ?_⟩, ?_⟩
        . intro p hp
          cases hp
        . rintro (hk | hk)
          . exact absurd hk hdecl
          . rw [hk] at hkind
            cases hkind
        . intro _ c hc
          cases hc
        . intro _ p hp
          cases hp
        . intro m hm
          cases hm
    . intro i f hi hf
      rw [← hfunctions] at hi
      refine hforms (isFormed_function hn hkind hkinds hmarks hsub) hkinds ?_ i f hi hf
      rintro c ⟨r, hc⟩
      exact hA c ⟨r, hsub hc⟩

structure MadeUp (node : Node) : Prop where
  kind : node.kind = .functionExpression
  isFormed : node.IsFormed
  formed : Formed node.parts
  plain : ∀ m ∈ Part.nodes node.parts, m.kind.isFunction = false ∧ m.kind.isClass = false
  complete : ∀ m ∈ Part.nodes node.parts, m.IsComplete
  simple : ∀ m ∈ node.preorder, (m.parts.map (·.role)).Nodup ∧ m.kind ≠ .methodDefinition ∧
    m.memberMarks.kind ≠ .constructor
  unnamed : node.part? .name = none

def isQuiet (n : Node) : Bool :=
  n.kind != .catchClause && n.kind != .withStatement && n.kind != .classBody &&
    n.kind != .methodDefinition && !n.kind.isFunction && !n.kind.isClass &&
    (n.parts.all fun p => n.kind.roles.contains p.role) &&
    (n.parts.all fun p => p.node?.all fun c => !c.kind.isStatement) &&
    decide (n.parts.map (·.role)).Nodup && n.memberMarks.kind != .constructor &&
    decide n.IsComplete

theorem madeUp_of_quiet {id : Nat} {span : Span} {params : List Part} {body : Node}
    (hparams : (params.all fun p => p.role == .param && p.node?.all fun c => !c.kind.isStatement) =
      true)
    (hdistinct : ((params ++ [Part.node .body body]).map Part.role).Nodup)
    (hquiet : (Part.nodes (params ++ [.node .body body])).all isQuiet = true) :
    MadeUp (.mk id span (.functionExpression {}) (params ++ [.node .body body])) := by
  have hrole : ∀ r c, .node r c ∈ params ++ [.node .body body] →
      r = .param ∧ c.kind.isStatement = false ∨ r = .body := by
    intro r c hc
    rcases List.mem_append.1 hc with hc | hc
    . left
      simpa [Part.role, Part.node?] using List.all_eq_true.1 hparams _ hc
    . cases List.mem_singleton.1 hc
      exact .inr rfl
  have hnode : ∀ m ∈ Part.nodes (params ++ [.node .body body]), (m.IsFormed ∧
      (m.kind.isFunction = false ∧ m.kind.isClass = false) ∧ m.IsComplete) ∧
      (m.parts.map (·.role)).Nodup ∧ m.kind ≠ .methodDefinition ∧
      m.memberMarks.kind ≠ .constructor := by
    intro m hm
    have := List.all_eq_true.1 hquiet m hm
    simp only [isQuiet, Bool.and_eq_true, bne_iff_ne, Bool.not_eq_true', List.all_eq_true,
      decide_eq_true_eq] at this
    obtain ⟨⟨⟨⟨⟨⟨⟨⟨⟨⟨hcatch, hwith⟩, hbody⟩, hmethod⟩, hfunction⟩, hclass⟩, hroles⟩, h⟩, hnodup⟩,
      hmarks⟩, hcomplete⟩ := this
    refine ⟨⟨isFormed_of_quiet (fun p hp => by simpa using hroles p hp) ⟨hcatch, hwith⟩
      ⟨hbody, hmethod⟩ hfunction hclass ?_, ⟨hfunction, hclass⟩, hcomplete⟩, hnodup,
        hmethod, hmarks⟩
    exact fun r c hc => by simpa [Part.node?] using h _ hc
  have hunnamed : ∀ r c, .node r c ∈ params ++ [.node .body body] → r ≠ .name := by
    intro r c hc
    rcases hrole r c hc with ⟨rfl, -⟩ | rfl <;> simp
  refine ⟨rfl, ⟨?_, ?_, ?_, ?_, ?_, ?_, ?_, ?_, ?_, ?_⟩, fun m hm => (hnode m hm).1.1,
    fun m hm => (hnode m hm).1.2.1, fun m hm => (hnode m hm).1.2.2, ?_, ?_⟩
  . intro p hp
    rcases List.mem_append.1 hp with hp | hp
    . have hparam := List.all_eq_true.1 hparams _ hp
      rw [Bool.and_eq_true, beq_iff_eq] at hparam
      rw [hparam.1]
      exact List.mem_of_elem_eq_true rfl
    . cases List.mem_singleton.1 hp
      exact List.mem_of_elem_eq_true rfl
  . intro r c hc hstatement
    rcases hrole r c hc with ⟨-, hquiet⟩ | rfl
    . rw [hquiet] at hstatement
      cases hstatement
    . rfl
  . intro h
    cases h
  . rintro (h | h) <;> cases h
  . rintro (h | h) <;> cases h
  . intro _ c hc
    exact absurd rfl (hunnamed _ c hc)
  iterate 4
    . intro h
      cases h
  . intro m hm
    rw [Node.preorder_eq, List.mem_cons] at hm
    rcases hm with rfl | hm
    . exact ⟨hdistinct, fun h => (by cases h), fun h => (by cases h)⟩
    . exact (hnode m hm).2
  . cases hname : (Node.mk id span (.functionExpression {}) (params ++ [.node .body body])).part?
      .name with
    | none => rfl
    | some c =>
      exact absurd rfl (hunnamed _ c (partsAt_subset _ _ (Node.exists_of_part? hname)))

theorem ends_defaultConstructor {cls node : Node} (h : Ends (defaultConstructor cls) s node s') :
    Takes fn H [] [.node .body node] s s' ∧ s'.functions = s.functions ∧ MadeUp node := by
  unfold defaultConstructor at h
  obtain ⟨number, t₁, hnumber, h⟩ := ends_bind.1 h
  obtain ⟨body, t₂, hbody, h⟩ := ends_bind.1 h
  dsimp only at h
  have hstart : Takes fn H [] [leaf number, leaf body] s t₂ :=
    (takes_freshNode hnumber).trans (takes_freshNode hbody)
  have hfunctions : t₂.functions = s.functions := by
    rw [functions_freshNode hbody, functions_freshNode hnumber]
  split at h
  . obtain ⟨rfl, rfl⟩ := ends_pure.1 h
    refine ⟨hstart.balance ?_ fun _ => id, hfunctions, madeUp_of_quiet rfl
      (by simp [Part.role]) rfl⟩
    intro x
    rw [Part.times_cons (l := [leaf body])]
    simp only [List.nil_append, Part.times_nil, Node.times_eq, times_leaf, Node.id_mk,
      Node.parts_mk]
    omega
  . obtain ⟨param, t₃, hparam, h⟩ := ends_bind.1 h
    obtain ⟨rest, t₄, hrest, h⟩ := ends_bind.1 h
    obtain ⟨arg, t₅, harg, h⟩ := ends_bind.1 h
    obtain ⟨spread, t₆, hspread, h⟩ := ends_bind.1 h
    obtain ⟨call, t₇, hcall, h⟩ := ends_bind.1 h
    obtain ⟨super, t₈, hsuper, h⟩ := ends_bind.1 h
    obtain ⟨statement, t₉, hstatement, h⟩ := ends_bind.1 h
    obtain ⟨rfl, rfl⟩ := ends_pure.1 h
    refine ⟨?_, ?_, madeUp_of_quiet rfl (by simp [Part.role]) rfl⟩
    . refine (hstart.trans ((takes_freshNode hparam).trans ((takes_freshNode hrest).trans
        ((takes_freshNode harg).trans ((takes_freshNode hspread).trans
          ((takes_freshNode hcall).trans ((takes_freshNode hsuper).trans
            (takes_freshNode hstatement)))))))).balance ?_ fun _ => id
      intro x
      have hpair : Part.times x [leaf number, leaf body] = [number].count x + [body].count x := by
        rw [Part.times_cons, times_leaf, times_leaf]
      simp only [Part.times_append, Part.times_nil, Node.times_eq, times_leaf, Node.id_mk,
        Node.parts_mk, hpair]
      omega
    . rw [functions_freshNode hstatement, functions_freshNode hsuper, functions_freshNode hcall,
        functions_freshNode hspread, functions_freshNode harg, functions_freshNode hrest,
        functions_freshNode hparam, hfunctions]

end Extract
end ScriptC
