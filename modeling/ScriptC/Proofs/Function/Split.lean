import ScriptC.Proofs.Function.Extract

/-!
Taking classes and whole scripts apart.
-/

namespace ScriptC

open Pass

namespace Extract

variable {fn : Nat} {H : Nat → Prop} {s s' : Extraction} {visit : Visit} {A : Node → Prop}
  {place : Option Place}

theorem takes_takeConstructor (hvisit : Visits visit A)
    (hclosed : IsInherited A) {site ctor : Node}
    {c : Circumstances} (hformed : Formed ctor.parts) (hfn : fn < s.functions.size)
    (h : Ends (takeConstructor visit fn site ctor c) s () s') :
    Takes fn (· = site.id) [.node .body ctor] [] s s' ∧
      (ctor.IsFormed → ctor.kind = .functionExpression → (∀ c, Part.Holds ctor.parts c → A c) →
        ∀ (i : Nat) (f : Function), s.functions.size ≤ i → s'.functions[i]? = some f →
          FormedFunction f.node) := by
  unfold takeConstructor at h
  obtain ⟨number, t, hnumber, h⟩ := ends_bind.1 h
  dsimp only at h
  rw [ends_modify_bind] at h
  have hfunctions := functions_freshNode hnumber
  have hsub : partsAt ctor .param ++ partsAt ctor .body ⊆ ctor.parts := by
    intro p hp
    rcases List.mem_append.1 hp with hp | hp <;> exact partsAt_subset _ _ hp
  have hinner : Formed (Node.mk number ctor.span (.functionExpression ctor.functionMarks)
      (partsAt ctor .param ++ partsAt ctor .body)).parts :=
    hformed.subset (Part.nodes_subset hsub)
  obtain ⟨htakes, hforms⟩ := takes_enter hvisit hclosed hinner (by rw [hfunctions]; exact hfn) h
  refine ⟨((takes_freshNode hnumber).trans htakes).balance ?_ fun _ => id, ?_⟩
  . intro x
    have hroles := Node.times_partsAt_add (x := x) (n := ctor) (r := .param) (t := .body) (by simp)
    rw [Part.times_append, Part.times_append, times_leaf]
    simp only [Node.times_eq, Part.times_nil, Node.id_mk, Node.parts_mk, Part.times_append]
    omega
  . intro hctor hkind hA i f hi hf
    rw [← hfunctions] at hi
    refine hforms (isFormed_function hctor ?_ (.inl rfl) rfl hsub) (.inl rfl) ?_ i f hi hf
    . rw [hkind]
      rfl
    . rintro c ⟨r, hc⟩
      exact hA c ⟨r, hsub hc⟩

theorem ends_splitMembers {items members : List Node} {ctor : Option Node}
    {r : List Node × Option Node} (h : Ends (splitMembers items ctor members) s r s') :
    s' = s ∧ (∀ m ∈ r.1, m ∈ items ∨ m ∈ members) ∧
      (∀ m, r.2 = some m → ctor = some m ∨ m ∈ items ∧ m.kind ≠ .propertyDefinition) ∧
      ∀ x, Part.times x (r.1.map (Part.node .item)) +
          Part.times x (r.2.map (Part.node .item)).toList ≤
        Part.times x (items.map (Part.node .item)) + Part.times x (members.map (Part.node .item)) +
          Part.times x (ctor.map (Part.node .item)).toList := by
  induction items generalizing ctor members with
  | nil =>
    obtain ⟨rfl, rfl⟩ := ends_pure.1 h
    refine ⟨rfl, fun m hm => .inr (List.mem_reverse.1 hm), fun m hm => .inl hm, ?_⟩
    intro x
    dsimp only
    rw [Part.times_perm ((List.reverse_perm members).map _)]
    simp
  | cons m rest ih =>
    rw [splitMembers] at h
    split at h
    . exact absurd h not_ends_throw
    . next hkind =>
      have hkind : m.kind ≠ .propertyDefinition := by simpa using hkind
      split at h
      . split at h
        . exact absurd h not_ends_throw
        . next hnone =>
          obtain rfl : ctor = none := by simpa using hnone
          obtain ⟨hs, hmembers, hctor, htimes⟩ := ih h
          refine ⟨hs, fun m hm => (hmembers m hm).imp_left (List.mem_cons_of_mem _), ?_, ?_⟩
          . intro m' hm'
            rcases hctor m' hm' with hsome | ⟨hrest, hne⟩
            . cases hsome
              exact .inr ⟨List.mem_cons_self, hkind⟩
            . exact .inr ⟨List.mem_cons_of_mem _ hrest, hne⟩
          . intro x
            have hx := htimes x
            simp only [Option.map_some, Option.toList_some, Option.map_none, Option.toList_none,
              List.map_cons, Node.times_eq, Part.times_nil] at hx ⊢
            omega
      . obtain ⟨hs, hmembers, hctor, htimes⟩ := ih h
        refine ⟨hs, ?_, ?_, ?_⟩
        . intro m' hm'
          rcases hmembers m' hm' with hrest | hmem
          . exact .inl (List.mem_cons_of_mem _ hrest)
          . rcases List.mem_cons.1 hmem with rfl | hmem
            . exact .inl List.mem_cons_self
            . exact .inr hmem
        . intro m' hm'
          exact (hctor m' hm').imp_right fun h => ⟨List.mem_cons_of_mem _ h.1, h.2⟩
        . intro x
          have hx := htimes x
          simp only [List.map_cons, Node.times_eq] at hx ⊢
          omega

theorem part?_toList_subset (n : Node) (r : Role) :
    ((n.part? r).map (Part.node r)).toList ⊆ partsAt n r := by
  intro p hp
  obtain ⟨c, hc, rfl⟩ : ∃ c, n.part? r = some c ∧ .node r c = p := by simpa using hp
  exact Node.exists_of_part? hc

theorem times_part?_toList_le (x : Nat) (n : Node) (r : Role) :
    Part.times x ((n.part? r).map (Part.node r)).toList ≤ Part.times x (partsAt n r) := by
  cases h : n.part? r with
  | none => exact Nat.zero_le _
  | some c => exact Node.times_part?_le h

theorem visits_keyed (hvisit : Visits visit A)
    (hclosed : IsInherited A) {n value site : Node}
    {key : Option Node} {c : Circumstances} {t : Extraction} (r : Role)
    (hformed : Formed [.node r n]) (hkind : n.kind.isFunction = false ∧ n.kind.isClass = false)
    (hvalue : n.part? .value = some value) (hfunction : value.kind.isFunction = true)
    (hfn : fn < s.functions.size) (hkey : Ends (visitOption visit fn place (n.part? .key)) s key t)
    (hsite : Ends (extract visit fn value c) t site s') :
    let n' := n.withParts ((key.map (Part.node .key)).toList ++ [.node .value site])
    Takes fn (InParts [.node r n']) [.node r n] [.node r n'] s s' ∧
      ((∀ c, Part.Holds n.parts c → A c ∧ ∀ d, Part.Holds c.parts d → A d) →
        Forms [.node r n] [.node r n'] s s') := by
  obtain ⟨hn, hparts⟩ := formed_node.1 hformed
  have hkeySub := List.Subset.trans (part?_toList_subset n .key) (partsAt_subset _ _)
  have hat := Node.exists_of_part? hvalue
  have hheld : Part.Holds n.parts value := holds_partsAt ⟨_, hat⟩
  have hvkey := visits_visitOption hvisit .key (hparts.subset (Part.nodes_subset hkeySub)) hfn hkey
  obtain ⟨hid, hspan, hlabel, htakes, hforms⟩ := visits_extract hvisit hclosed .value
    (hparts.holds hheld) (Nat.lt_of_lt_of_le hfn hvkey.takes.size) hfunction hsite
  have hin : ∀ id, InParts (key.map (Part.node .key)).toList id ∨ InParts [.node .value site] id →
      InParts [.node r (n.withParts ((key.map (Part.node .key)).toList ++ [.node .value site]))]
        id :=
    fun id hid => inParts_node.2 (.inr (inParts_append.2 hid))
  refine ⟨?_, ?_⟩
  . refine ((hvkey.takes.mono fun id h => hin id (.inl h)).trans
      (htakes.mono fun id h => hin id (.inr h))).balance ?_ fun _ => id
    intro x
    have hroles := Node.times_partsAt_add (x := x) (n := n) (r := .key) (t := .value) (by simp)
    have hk := times_part?_toList_le x n .key
    have hv := Node.times_part?_le (x := x) hvalue
    simp only [Part.times_append]
    rw [Node.times_eq (r := r), Node.times_eq (r := r)]
    simp only [Node.id_withParts, Node.parts_withParts, Part.times_append, Part.times_nil]
    omega
  . intro hA
    have hboth := (hvkey.forms ?_).trans (hforms (hA value hheld).2) htakes
    . refine hboth.mono ?_ ?_
      . intro _
        exact formed_append.2 ⟨hparts.subset (Part.nodes_subset hkeySub),
          hparts.subset (Part.nodes_subset (by simpa using partsAt_subset _ _ hat))⟩
      . intro _ hsplit
        refine Split.node (isFormed_withParts hn ?_ ?_ ?_ ?_ ?_ ?_) hkind.1 hsplit
        . intro p hp
          rcases List.mem_append.1 hp with hp | hp
          . obtain ⟨q, hq, hout⟩ := exists_of_outline hvkey.same hp
            exact List.mem_map.2 ⟨q, hkeySub hq, hout⟩
          . cases List.mem_singleton.1 hp
            refine List.mem_map.2 ⟨_, partsAt_subset _ _ hat, ?_⟩
            simp [outline, hid, hspan, hlabel]
        . rintro (hk | hk)
          . rw [hk] at hkind
            cases hkind.1
          . rw [hk] at hkind
            cases hkind.2
        . rw [hkind.1, hkind.2]
          simp
        . rw [hkind.2]
          simp
        . intro _
          rw [List.filter_append, List.length_append]
          have hkeys : ((key.map (Part.node .key)).toList.filter fun p =>
            p.role == .body) = [] := by
            apply List.filter_eq_nil_iff.2
            intro p hp
            obtain ⟨q, hq, hout⟩ := exists_of_outline hvkey.same hp
            rw [← role_of_outline hout, role_of_mem_partsAt (part?_toList_subset n .key hq)]
            simp
          rw [hkeys]
          exact Nat.zero_le _
        . intro hmethod
          obtain ⟨c, hc, hck⟩ := hn.method hmethod
          obtain rfl : value = c := by simpa [hvalue] using hc
          refine ⟨site, part?_append_of_role ?_, ?_⟩
          . intro p hp
            obtain ⟨q, hq, hout⟩ := exists_of_outline hvkey.same hp
            rw [← role_of_outline hout, role_of_mem_partsAt (part?_toList_subset n .key hq)]
            simp
          . rw [Node.kind, hlabel]
            exact hck
    . rintro c ⟨r', hc⟩
      exact (hA c ⟨r', hkeySub hc⟩).1

theorem visits_extractMembers (hvisit : Visits visit A)
    (hclosed : IsInherited A) {body : Node}
    {members : List Node} {left : List Part} (hformed : Formed (members.map (Part.node .item)))
    (hkind : ∀ m ∈ members, m.kind.isFunction = false ∧ m.kind.isClass = false)
    (hfn : fn < s.functions.size) (h : Ends
      (extractMembers visit fn place body members) s left s') :
    Takes fn (InParts left) (members.map (Part.node .item)) left s s' ∧
      left.map outline = (members.map (Part.node .item)).map outline ∧
      ((∀ m ∈ members, ∀ c, Part.Holds m.parts c → A c ∧ ∀ d, Part.Holds c.parts d → A d) →
        Forms (members.map (Part.node .item)) left s s') := by
  induction members generalizing s left with
  | nil =>
    obtain ⟨rfl, rfl⟩ := ends_pure.1 h
    exact ⟨.refl _ _, rfl, fun _ => .same (Nat.le_refl _) fun _ m hm => by cases hm⟩
  | cons m rest ih =>
    rw [extractMembers] at h
    obtain ⟨key, t, hkey, h⟩ := ends_bind.1 h
    obtain ⟨hhere, hthere⟩ := formed_append (l := [.node .item m]).1 hformed
    split at h
    . next value hvalue =>
      obtain ⟨hvalue, hfunction⟩ := Option.filter_eq_some_iff.1 hvalue
      obtain ⟨site, u, hsite, h⟩ := ends_bind.1 h
      obtain ⟨left', v, hleft, h⟩ := ends_bind.1 h
      obtain ⟨rfl, rfl⟩ := ends_pure.1 h
      obtain ⟨hkeyed, hforms⟩ := visits_keyed hvisit hclosed .item hhere
        (hkind m List.mem_cons_self) hvalue hfunction hfn hkey hsite
      obtain ⟨htail, hsame, htailForms⟩ := ih hthere
        (fun m hm => hkind m (List.mem_cons_of_mem _ hm)) (Nat.lt_of_lt_of_le hfn hkeyed.size) hleft
      refine ⟨?_, ?_, ?_⟩
      . exact (hkeyed.mono fun id hid => inParts_append (l := [_]).2 (.inl hid)).trans
          (htail.mono fun id hid => inParts_append (l := [_]).2 (.inr hid))
      . simp only [List.map_cons, hsame]
        rfl
      . intro hA
        exact (hforms (hA m List.mem_cons_self)).trans
          (htailForms fun m hm => hA m (List.mem_cons_of_mem _ hm)) htail
    . exact absurd h not_ends_throw

structure Constructs (fn : Nat) (H : Nat → Prop) (ctor : Option Node) (function : Node)
    (s s' : Extraction) : Prop where
  functions : s'.functions = s.functions
  takes : Takes fn H (ctor.map (Part.node .item)).toList [.node .body function] s s'
  kind : function.kind = .functionExpression
  origin : MadeUp function ∨ ∃ m, ctor = some m ∧ m.part? .value = some function

theorem constructs_default {cls function : Node} (h : Ends (defaultConstructor cls) s function s') :
    Constructs fn H none function s s' := by
  obtain ⟨htakes, hfunctions, hmade⟩ := ends_defaultConstructor h
  exact ⟨hfunctions, htakes, hmade.kind, .inl hmade⟩

theorem constructs_member {m : Node} (h : m.IsFormed) (hkind : m.kind = .methodDefinition) :
    Constructs fn H (some m) ((m.part? .value).getD default) s s := by
  obtain ⟨value, hvalue, hfunction⟩ := h.method hkind
  rw [hvalue, Option.getD_some]
  refine ⟨rfl, (Takes.refl s []).balance ?_ fun _ => id, hfunction, .inr ⟨m, rfl, hvalue⟩⟩
  intro x
  have hv := Node.times_part?_le (x := x) hvalue
  have hrole := Part.times_filter_le (x := x) (l := m.parts) (p := fun p => p.role == .value)
  unfold partsAt at hv
  simp only [Option.map_some, Option.toList_some, Node.times_eq (n := m), Part.times_nil]
  simp only [Node.times_eq (n := value), Part.times_nil] at hv ⊢
  omega

theorem mem_parts_of_items {n m : Node} (h : m ∈ n.items) : .node .item m ∈ n.parts := by
  obtain ⟨p, hp, hm⟩ := List.mem_filterMap.1 h
  cases p with
  | hole r => simp [Part.node?] at hm
  | node r c =>
    simp only [Part.role, Part.node?, Option.ite_none_right_eq_some, Option.some.injEq,
      beq_iff_eq] at hm
    obtain ⟨rfl, rfl⟩ := hm
    exact hp

theorem Kind.isFunction_of_isClass {k : Kind} (h : k.isClass = true) : k.isFunction = false := by
  cases k <;> first | rfl | cases h

theorem part?_partsAt_append {n c : Node} {r : Role} {rest : List Part} (h : n.part? r = some c) :
    (n.withParts (partsAt n r ++ rest)).part? r = some c := by
  rw [← part?_partsAt] at h
  unfold Node.part? at *
  rw [Node.parts_withParts] at *
  rw [List.findSome?_append, h, Option.some_or]

theorem split_classSite {r : Role} {cls body : Node} {heritage items : List Part}
    (h : cls.IsFormed) (hparts : Formed cls.parts) (hkind : cls.kind.isClass = true)
    (hbody : cls.part? .body = some body) (hbodyKind : body.kind = .classBody)
    (hbodyFormed : body.IsFormed)
    (hheritage : ∀ p ∈ heritage, outline p ∈ (partsAt cls .heritage).map outline)
    (hitems : ∀ p ∈ items, outline p ∈ body.parts.map outline) (hsplit : Split heritage)
    (hsplitItems : Split items) :
    Split [.node r (cls.withParts (partsAt cls .name ++ heritage ++
      [.node .body (body.withParts items)]))] := by
  have hbodyLeft : Split [.node .body (body.withParts items)] := by
    refine Split.node (isFormed_withParts hbodyFormed hitems ?_ ?_ ?_ ?_ ?_) ?_ hsplitItems
    all_goals
      try rw [Node.kind_withParts]
      rw [hbodyKind]
    . simp
    . simp [Kind.isFunction, Kind.isClass]
    . simp [Kind.isClass]
    . simp
    . simp
    . rfl
  have hrole : ∀ p ∈ heritage, p.role = .heritage := by
    intro p hp
    obtain ⟨q, hq, hout⟩ := List.mem_map.1 (hheritage p hp)
    rw [← role_of_outline hout, role_of_mem_partsAt hq]
  have hfront : ∀ p ∈ partsAt cls .name ++ heritage, p.role ≠ .body := by
    intro p hp
    rcases List.mem_append.1 hp with hp | hp
    . rw [role_of_mem_partsAt hp]
      simp
    . rw [hrole p hp]
      simp
  refine Split.node (isFormed_withParts h ?_ ?_ ?_ ?_ ?_ ?_) (Kind.isFunction_of_isClass hkind) ?_
  . intro p hp
    rcases List.mem_append.1 hp with hp | hp
    . rcases List.mem_append.1 hp with hp | hp
      . exact List.mem_map_of_mem (partsAt_subset _ _ hp)
      . exact List.map_subset _ (partsAt_subset _ _) (hheritage p hp)
    . cases List.mem_singleton.1 hp
      exact List.mem_map.2 ⟨_, partsAt_subset _ _ (Node.exists_of_part? hbody), rfl⟩
  . intro hdecl
    obtain ⟨name, hname⟩ := Option.isSome_iff_exists.1 (h.named hdecl)
    rw [List.append_assoc, part?_partsAt_append hname]
    rfl
  . intro _ c hc
    rcases List.mem_append.1 hc with hc | hc
    . rcases List.mem_append.1 hc with hc | hc
      . exact partsAt_subset _ _ hc
      . cases hrole _ hc
    . cases List.mem_singleton.1 hc
  . intro _
    exact ⟨_, part?_append_of_role hfront, hbodyKind⟩
  . rintro (hcatch | hwith)
    . rw [hcatch] at hkind
      cases hkind
    . rw [hwith] at hkind
      cases hkind
  . intro hmethod
    rw [hmethod] at hkind
    cases hkind
  . exact split_append.2 ⟨split_append.2 ⟨split_names h hparts (.inr hkind), hsplit⟩, hbodyLeft⟩

theorem ends_extractClass {cls body site : Node} {place : Option Place}
    (hbody : cls.part? .body = some body) (h : Ends (extractClass visit fn place cls) s site s') :
    ∃ heritage t members ctor function u v items,
      Ends (visitOption visit fn (some (cls.placeIn place .heritage)) (cls.part? .heritage)) s
        heritage t ∧
      Ends (splitMembers body.items none []) t (members, ctor) t ∧
      (ctor = none ∧ Ends (defaultConstructor cls) t function u ∨
        ∃ m, ctor = some m ∧ function = (m.part? .value).getD default ∧ u = t) ∧
      Ends (takeConstructor visit fn
        (cls.withParts (partsAt cls .name ++ (heritage.map (Part.node .heritage)).toList ++
          [.node .body (body.withParts (members.map (Part.node .item)))])) function
        { name := nameFor place cls, isStrict := true, isConstructor := true,
          isDerived := heritage.isSome }) u () v ∧
      Ends (extractMembers visit fn (some (cls.placeIn place .body)) body members) v items s' ∧
      site = cls.withParts (partsAt cls .name ++ (heritage.map (Part.node .heritage)).toList ++
        [.node .body (body.withParts items)]) := by
  unfold extractClass at h
  obtain ⟨heritage, t, hheritage, h⟩ := ends_bind.1 h
  dsimp only at h
  rw [hbody, Option.getD_some] at h
  obtain ⟨⟨members, ctor⟩, t', hsplit, h⟩ := ends_bind.1 h
  obtain ⟨rfl, -⟩ := ends_splitMembers hsplit
  cases ctor
  all_goals
    obtain ⟨function, u, hfunction, h⟩ := ends_bind.1 h
    obtain ⟨_, v, htake, h⟩ := ends_bind.1 h
    obtain ⟨items, v', hitems, h⟩ := ends_bind.1 h
    obtain ⟨rfl, rfl⟩ := ends_pure.1 h
    refine ⟨heritage, _, members, _, function, u, v, items, hheritage, hsplit, ?_,
      htake, hitems, rfl⟩
  . exact .inl ⟨rfl, hfunction⟩
  . exact .inr ⟨_, rfl, ends_pure.1 hfunction⟩

theorem visits_extractClass (hvisit : Visits visit A)
    (hclosed : IsInherited A)
    (hplain : ∀ m : Node, IsPlain m → A m) {cls site : Node} (r : Role)
    (hformed : Formed [.node r cls]) (hkind : cls.kind.isClass = true) (hfn : fn < s.functions.size)
    (h : Ends (extractClass visit fn place cls) s site s') :
    site.id = cls.id ∧ site.span = cls.span ∧ site.label = cls.label ∧
      Takes fn (InParts [.node r site]) [.node r cls] [.node r site] s s' ∧
      ((∀ m ∈ Part.nodes cls.parts, A m) → Forms [.node r cls] [.node r site] s s') := by
  obtain ⟨hcls, hparts⟩ := formed_node.1 hformed
  obtain ⟨body, hbody, hbodyKind⟩ := hcls.members hkind
  have hbodyAt := Node.exists_of_part? hbody
  have hheld : Part.Holds cls.parts body := holds_partsAt ⟨_, hbodyAt⟩
  obtain ⟨hbodyFormed, hbodyParts⟩ := formed_node.1 (hparts.subset (l := [.node .body body])
    (Part.nodes_subset (by simpa using partsAt_subset _ _ hbodyAt)))
  obtain ⟨heritage, u, members, ctor, function, v, w, items, hheritage, hsplit,
    hmade, htake, hitems,
    rfl⟩ := ends_extractClass hbody h
  obtain ⟨-, hmembers, hctor, htimes⟩ := ends_splitMembers hsplit
  dsimp only at hmembers hctor htimes
  have hmember : ∀ m ∈ body.items, m.IsFormed ∧ Formed m.parts ∧
      (m.kind = .methodDefinition ∨ m.kind = .propertyDefinition) := by
    intro m hm
    have hm := mem_parts_of_items hm
    refine ⟨hbodyParts m ?_, hbodyParts.holds ⟨_, hm⟩, hbodyFormed.member hbodyKind m hm⟩
    exact Part.mem_nodes_of_holds ⟨_, hm⟩ Node.mem_preorder_self
  have hfunction : Constructs fn (· = cls.id) ctor function u v := by
    rcases hmade with ⟨rfl, hdefault⟩ | ⟨m, rfl, rfl, rfl⟩
    . exact constructs_default hdefault
    . rcases hctor m rfl with hnone | ⟨hitem, hne⟩
      . cases hnone
      . obtain ⟨hm, -, hkinds⟩ := hmember m hitem
        exact constructs_member hm (hkinds.resolve_right hne)
  have hheritageSub := List.Subset.trans (part?_toList_subset cls .heritage) (partsAt_subset _ _)
  have hvheritage := visits_visitOption hvisit .heritage
    (hparts.subset (Part.nodes_subset hheritageSub)) hfn hheritage
  have hfnv : fn < v.functions.size := by
    rw [hfunction.functions]
    exact Nat.lt_of_lt_of_le hfn hvheritage.takes.size
  have hfunctionFormed : function.IsFormed ∧ Formed function.parts := by
    rcases hfunction.origin with hmade | ⟨m, rfl, hvalue⟩
    . exact ⟨hmade.isFormed, hmade.formed⟩
    . rcases hctor m rfl with hnone | ⟨hitem, -⟩
      . cases hnone
      . have hheld := Node.holds_of_part? hvalue
        obtain ⟨-, hm, -⟩ := hmember m hitem
        exact ⟨hm _ (Part.mem_nodes_of_holds hheld Node.mem_preorder_self), hm.holds hheld⟩
  obtain ⟨htakeCtor, hctorForms⟩ := takes_takeConstructor hvisit hclosed
    hfunctionFormed.2 hfnv htake
  have hmembersSub : members.map (Part.node .item) ⊆ body.parts := by
    intro p hp
    obtain ⟨m, hm, rfl⟩ := List.mem_map.1 hp
    rcases hmembers m hm with hm | hm
    . exact mem_parts_of_items hm
    . cases hm
  obtain ⟨htakeMembers, hsame, hmembersForms⟩ := visits_extractMembers hvisit hclosed
    (hbodyParts.subset (Part.nodes_subset hmembersSub)) (by
      intro m hm
      rcases hmembers m hm with hm | hm
      . obtain ⟨-, -, hk | hk⟩ := hmember m hm <;> rw [hk] <;> exact ⟨rfl, rfl⟩
      . cases hm) (Nat.lt_of_lt_of_le hfnv htakeCtor.size) hitems
  refine ⟨rfl, rfl, rfl, ?_, ?_⟩
  . refine ((hvheritage.takes.mono ?_).trans ((hfunction.takes.mono ?_).trans
      ((htakeCtor.mono ?_).trans (htakeMembers.mono ?_)))).balance ?_ fun _ => id
    . intro id hid
      exact inParts_node.2 (.inr (inParts_append.2 (.inl (inParts_append.2 (.inr hid)))))
    . rintro id rfl
      exact inParts_node.2 (.inl rfl)
    . rintro id rfl
      exact inParts_node.2 (.inl rfl)
    . intro id hid
      exact inParts_node.2 (.inr (inParts_append.2 (.inr (inParts_node.2 (.inr hid)))))
    . intro x
      have hroles := Node.times_partsAt_add_three (x := x) (n := cls) (r := .name) (t := .heritage)
        (u := .body) (by simp) (by simp) (by simp)
      have hb := Node.times_part?_le (x := x) hbody
      have hh := times_part?_toList_le x cls .heritage
      have hi := Part.times_filter_le (x := x) (l := body.parts) (p := fun p => p.role == .item)
      have ht := htimes x
      rw [Node.items, Node.times_nodesAt] at ht
      unfold partsAt at ht
      simp only [List.map_nil, Option.map_none, Option.toList_none, Part.times_nil] at ht
      simp only [Node.times_eq (n := body), Part.times_nil] at hb
      simp only [Part.times_append, Node.times_eq (n := cls), Node.times_eq (n := cls.withParts _),
        Node.times_eq (n := body.withParts _), Node.id_withParts, Node.parts_withParts,
        Part.times_nil]
      omega
  . intro hA
    have hAbody : ∀ m ∈ body.items, ∀ d ∈ m.preorder, A d := by
      intro m hm d hd
      apply hA
      apply Part.mem_nodes_of_holds hheld
      rw [Node.preorder_eq]
      exact List.mem_cons_of_mem _ (Part.mem_nodes_of_holds (Node.holds_of_mem_items hm) hd)
    have hconstructed : Forms [] [] u v := Forms.same (Nat.le_of_eq (by rw [hfunction.functions]))
      fun _ m hm => by cases hm
    have hctorFormed : Forms [] [] v w := by
      intro _
      refine ⟨fun m hm => (by cases hm), hctorForms hfunctionFormed.1 hfunction.kind ?_⟩
      intro c hc
      rcases hfunction.origin with hmade | ⟨m, rfl, hvalue⟩
      . apply hplain
        intro m' hm'
        exact hmade.plain m' (Part.mem_nodes_of_holds hc hm')
      . rcases hctor m rfl with hnone | ⟨hitem, -⟩
        . cases hnone
        . exact hAbody m hitem c (Node.preorder_subset (Node.holds_of_part? hvalue)
            (Node.preorder_subset hc Node.mem_preorder_self))
    refine (((hvheritage.forms ?_).trans hconstructed hfunction.takes).trans hctorFormed
      htakeCtor).trans (hmembersForms ?_) htakeMembers |>.mono ?_ ?_
    . rintro c ⟨r', hc⟩
      exact hA c (Part.mem_nodes_of_holds ⟨r', hheritageSub hc⟩ Node.mem_preorder_self)
    . intro m hm c hc
      rcases hmembers m hm with hm | hm
      . have hcm := Node.preorder_subset hc
        refine ⟨hAbody m hm c (hcm Node.mem_preorder_self), ?_⟩
        intro d hd
        exact hAbody m hm d (hcm (Node.preorder_subset hd Node.mem_preorder_self))
      . cases hm
    . intro _
      simp only [List.append_nil]
      exact formed_append.2 ⟨hparts.subset (Part.nodes_subset hheritageSub),
        hbodyParts.subset (Part.nodes_subset hmembersSub)⟩
    . intro _ hsplit
      simp only [List.append_nil] at hsplit
      obtain ⟨hsplitHeritage, hsplitItems⟩ := split_append.1 hsplit
      refine split_classSite hcls hparts hkind hbody hbodyKind hbodyFormed ?_ ?_ hsplitHeritage
        hsplitItems
      . intro p hp
        obtain ⟨q, hq, hout⟩ := exists_of_outline hvheritage.same hp
        exact List.mem_map.2 ⟨q, part?_toList_subset _ _ hq, hout⟩
      . intro p hp
        obtain ⟨q, hq, hout⟩ := exists_of_outline hsame hp
        exact List.mem_map.2 ⟨q, hmembersSub hq, hout⟩

theorem part?_of_outline {n c : Node} {left : List Part} {r : Role}
    (h : left.map outline = n.parts.map outline) (hc : n.part? r = some c) :
    ∃ c', (n.withParts left).part? r = some c' ∧ c'.label = c.label := by
  unfold Node.part? at *
  rw [Node.parts_withParts]
  generalize n.parts = given at h hc
  induction left generalizing given with
  | nil =>
    rw [List.map_nil, eq_comm, List.map_eq_nil_iff] at h
    rw [h] at hc
    cases hc
  | cons p rest ih =>
    cases given with
    | nil => cases h
    | cons q given =>
      rw [List.map_cons, List.map_cons, List.cons.injEq] at h
      obtain ⟨hout, hrest⟩ := h
      rw [List.findSome?_cons] at hc ⊢
      cases p with
      | hole r' =>
        cases q with
        | hole r'' => simpa [Part.node?] using ih given hrest (by simpa [Part.node?] using hc)
        | node r'' m => simp [outline] at hout
      | node r' m =>
        cases q with
        | hole r'' => simp [outline] at hout
        | node r'' m' =>
          simp only [outline, Prod.mk.injEq, Option.some.injEq] at hout
          obtain ⟨rfl, -, -, hlabel⟩ := hout
          by_cases hr : r' = r
          . subst hr
            simp only [Part.role, Part.node?, beq_self_eq_true, if_true] at hc ⊢
            cases hc
            exact ⟨m, rfl, hlabel⟩
          . have hrole : (r' == r) = false := by simpa using hr
            simp only [Part.role, hrole, Bool.false_eq_true, if_false] at hc ⊢
            exact ih given hrest hc

theorem length_filter_of_outline {left parts : List Part} (r : Role)
    (h : left.map outline = parts.map outline) :
    (left.filter fun p => p.role == r).length = (parts.filter fun p => p.role == r).length := by
  have hrole : ∀ p : Part, p.role = (outline p).1 := by
    intro p
    cases p <;> rfl
  have hcount := congrArg (List.countP fun o => o.1 == r) h
  rw [List.countP_map, List.countP_map] at hcount
  rw [← List.countP_eq_length_filter, ← List.countP_eq_length_filter]
  simpa only [Function.comp_def, ← hrole] using hcount

theorem hoisted_perm (parts : List Part) : (hoisted parts).Perm parts := by
  unfold hoisted
  extract_lets isFunction isItem
  have hitem : parts.filter isFunction = (parts.filter isItem).filter isFunction := by
    rw [List.filter_filter]
    congr 1
    funext p
    rcases p with ⟨_ | _, n⟩ | _ <;> simp [isFunction, isItem, Part.role]
  have hother : (parts.filter fun p => isItem p && !isFunction p) =
      (parts.filter isItem).filter fun p => !isFunction p := by
    rw [List.filter_filter]
    simp only [Bool.and_comm]
  rw [hitem, hother, List.append_assoc]
  refine ((List.filter_append_perm isFunction (parts.filter isItem)).append_left _).trans ?_
  exact List.perm_append_comm.trans (List.filter_append_perm isItem parts)

theorem visits_withParts (hvisit : Visits visit A) {n parent : Node} {parts left : List Part}
    (r : Role) (hperm : parts.Perm n.parts) (hformed : Formed [.node r n])
    (hkind : n.kind.isFunction = false ∧ n.kind.isClass = false)
    (hsame : n.kind = .block ∨ n.kind = .switchCase ∨ parts = n.parts) (hfn : fn < s.functions.size)
    (h : Ends (visitParts visit fn place parent parts) s left s') :
    Takes fn (InParts [.node r (n.withParts left)]) [.node r n] [.node r (n.withParts left)] s s' ∧
      ((∀ c, Part.Holds n.parts c → A c) →
        Forms [.node r n] [.node r (n.withParts left)] s s') := by
  obtain ⟨hn, hparts⟩ := formed_node.1 hformed
  have hvisits := visits_visitParts hvisit (hparts.subset (Part.nodes_subset hperm.subset)) hfn h
  refine ⟨(hvisits.takes.mono ?_).balance ?_ fun _ => id, ?_⟩
  . exact fun id hid => inParts_node.2 (.inr hid)
  . intro x
    have hx := Part.times_perm (x := x) hperm
    simp only [Node.times_eq (n := n), Node.times_eq (n := n.withParts left), Node.id_withParts,
      Node.parts_withParts, Part.times_nil]
    omega
  . intro hA
    refine (hvisits.forms ?_).mono ?_ ?_
    . rintro c ⟨r', hc⟩
      exact hA c ⟨r', hperm.subset hc⟩
    . intro _
      exact hparts.subset (Part.nodes_subset hperm.subset)
    . intro _ hsplit
      refine Split.node (isFormed_withParts hn ?_ ?_ ?_ ?_ ?_ ?_) hkind.1 hsplit
      . intro p hp
        obtain ⟨q, hq, hout⟩ := exists_of_outline hvisits.same hp
        exact List.mem_map.2 ⟨q, hperm.subset hq, hout⟩
      . rintro (hk | hk)
        . rw [hk] at hkind
          cases hkind.1
        . rw [hk] at hkind
          cases hkind.2
      . rw [hkind.1, hkind.2]
        simp
      . rw [hkind.2]
        simp
      . intro hm
        have hlist : parts = n.parts := by
          rcases hsame with hk | hk | hk
          . simp [hk] at hm
          . simp [hk] at hm
          . exact hk
        have hlengths := length_filter_of_outline .body hvisits.same
        rw [hlengths, hlist]
        exact hn.single hm
      . intro hm
        have hlist : parts = n.parts := by
          rcases hsame with hk | hk | hk
          . rw [hk] at hm
            cases hm
          . rw [hk] at hm
            cases hm
          . exact hk
        obtain ⟨c, hc, hck⟩ := hn.method hm
        have hsame := hvisits.same
        rw [hlist] at hsame
        obtain ⟨c', hc', hlabel⟩ := part?_of_outline hsame hc
        exact ⟨c', hc', (congrArg Label.kind hlabel).trans hck⟩

theorem visits_step {visit : Node → Nat → Option Place → Extract Node}
    (hvisit : Visits (fun fn place n => visit n fn place) A)
    (hclosed : IsInherited A)
    (hplain : ∀ m : Node, IsPlain m → A m) :
    Visits (fun fn place n => step visit n fn place) fun n => ∀ m ∈ Part.nodes n.parts, A m := by
  have hstep : ∀ {fn place n s n' s'} (r : Role), Formed [.node r n] → fn < s.functions.size →
      Ends (step visit n fn place) s n' s' → (n'.id = n.id ∧ n'.span = n.span ∧
        n'.label = n.label) ∧
        Takes fn (InParts [.node r n']) [.node r n] [.node r n'] s s' ∧
        ((∀ m ∈ Part.nodes n.parts, A m) → Forms [.node r n] [.node r n'] s s') := by
    intro fn place n s n' s' r hformed hfn h
    have hdown : (∀ m ∈ Part.nodes n.parts, A m) → ∀ c, Part.Holds n.parts c →
        A c ∧ ∀ d, Part.Holds c.parts d → A d := by
      intro hA c hc
      refine ⟨hA c (Part.mem_nodes_of_holds hc Node.mem_preorder_self), fun d hd => ?_⟩
      exact hA d (Part.mem_nodes_of_holds hc (Node.preorder_subset hd Node.mem_preorder_self))
    unfold step at h
    dsimp only at h
    split at h
    . next hkind =>
      obtain ⟨hid, hspan, hlabel, htakes, hforms⟩ := visits_extract hvisit hclosed r
        (formed_node.1 hformed).2 hfn hkind h
      exact ⟨⟨hid, hspan, hlabel⟩, htakes, fun hA => hforms fun c hc => (hdown hA c hc).1⟩
    . next hfunction =>
      have hfunction : n.kind.isFunction = false := by simpa using hfunction
      split at h
      . next hkind =>
        obtain ⟨hid, hspan, hlabel, htakes, hforms⟩ := visits_extractClass hvisit hclosed hplain r
          hformed hkind hfn h
        exact ⟨⟨hid, hspan, hlabel⟩, htakes, hforms⟩
      . next hclass =>
        have hclass : n.kind.isClass = false := by simpa using hclass
        have hparts : ∀ parts left, parts.Perm n.parts →
            (n.kind = .block ∨ n.kind = .switchCase ∨ parts = n.parts) → ∀ t,
            Ends (visitParts (fun fn place n => visit n fn place) fn place n parts) s left t →
            Ends (pure (n.withParts left) : Extract Node) t n' s' →
            (n'.id = n.id ∧ n'.span = n.span ∧ n'.label = n.label) ∧
              Takes fn (InParts [.node r n']) [.node r n] [.node r n'] s s' ∧
              ((∀ m ∈ Part.nodes n.parts, A m) → Forms [.node r n] [.node r n'] s s') := by
          intro parts left hperm hmethod t hvisits h
          obtain ⟨rfl, rfl⟩ := ends_pure.1 h
          obtain ⟨htakes, hforms⟩ := visits_withParts hvisit r hperm hformed ⟨hfunction, hclass⟩
            hmethod hfn hvisits
          exact ⟨⟨rfl, rfl, rfl⟩, htakes, fun hA => hforms fun c hc => (hdown hA c hc).1⟩
        split at h
        . next hlabel =>
          obtain ⟨left, t, hvisits, h⟩ := ends_bind.1 h
          refine hparts _ left (hoisted_perm _) (.inl ?_) t hvisits h
          rw [Node.kind, hlabel]
          rfl
        . next hlabel =>
          obtain ⟨left, t, hvisits, h⟩ := ends_bind.1 h
          refine hparts _ left (hoisted_perm _) (.inr (.inl ?_)) t hvisits h
          rw [Node.kind, hlabel]
          rfl
        . split at h
          . next value hvalue =>
            split at h
            . next hmember =>
              obtain ⟨key, t, hkey, h⟩ := ends_bind.1 h
              obtain ⟨site, u, hsite, h⟩ := ends_bind.1 h
              obtain ⟨rfl, rfl⟩ := ends_pure.1 h
              have hvalueKind : value.kind.isFunction = true := by
                rw [Bool.and_eq_true] at hmember
                exact hmember.2
              obtain ⟨htakes, hforms⟩ := visits_keyed hvisit hclosed r hformed ⟨hfunction, hclass⟩
                hvalue hvalueKind hfn hkey hsite
              exact ⟨⟨rfl, rfl, rfl⟩, htakes, fun hA => hforms (hdown hA)⟩
            . obtain ⟨left, t, hvisits, h⟩ := ends_bind.1 h
              exact hparts _ left (.refl _) (.inr (.inr rfl)) t hvisits h
          . obtain ⟨left, t, hvisits, h⟩ := ends_bind.1 h
            exact hparts _ left (.refl _) (.inr (.inr rfl)) t hvisits h
        . obtain ⟨left, t, hvisits, h⟩ := ends_bind.1 h
          exact hparts _ left (.refl _) (.inr (.inr rfl)) t hvisits h
  refine ⟨?_, ?_, ?_⟩
  . intro fn place n s n' s' r hformed hfn h
    exact (hstep r hformed hfn h).2.1
  . intro fn place n s n' s' r hformed hfn h
    exact (hstep r hformed hfn h).1
  . intro fn place n s n' s' r hfn h hA hformed
    exact (hstep r hformed hfn h).2.2 hA hformed

def Reaches (depth : Nat) (n : Node) : Prop :=
  n.height ≤ depth ∨ ∀ m ∈ n.preorder, m.kind.isFunction = false ∧ m.kind.isClass = false

theorem Reaches.withParts {depth : Nat} {n : Node} {parts : List Part} (h : Reaches depth n)
    (hsub : parts ⊆ n.parts) : Reaches depth (n.withParts parts) := by
  rcases h with hheight | hplain
  . left
    refine Nat.le_trans ?_ hheight
    cases n with
    | mk id span label inner => exact Nat.succ_le_succ (Node.heightParts_le_of_subset hsub)
  . right
    intro m hm
    rw [Node.preorder_eq, List.mem_cons] at hm
    rcases hm with rfl | hm
    . exact hplain n Node.mem_preorder_self
    . apply hplain m
      rw [Node.preorder_eq]
      exact List.mem_cons_of_mem _ (Part.nodes_subset hsub hm)

theorem Reaches.below {depth : Nat} {n m : Node} (h : Reaches (depth + 1) n)
    (hm : m ∈ Part.nodes n.parts) : Reaches depth m := by
  obtain ⟨c, hc, hmc⟩ := Part.exists_holds_of_mem_nodes hm
  rcases h with hheight | hplain
  . left
    have hc := Node.height_lt hc
    have hmc := Node.height_le_of_mem_preorder hmc
    omega
  . right
    intro m' hm'
    exact hplain m' (Node.preorder_subset hc (Node.preorder_trans hmc hm'))

theorem visits_unroll (depth : Nat) :
    Visits (fun fn place n => Node.unroll step (fun n _ _ => pure n) depth n fn place)
      (Reaches depth) := by
  induction depth with
  | zero =>
    refine ⟨?_, ?_, ?_⟩
    . intro fn place n s n' s' r _ _ h
      obtain ⟨rfl, rfl⟩ := ends_pure.1 h
      exact .refl _ _
    . intro fn place n s n' s' r _ _ h
      obtain ⟨rfl, rfl⟩ := ends_pure.1 h
      exact ⟨rfl, rfl, rfl⟩
    . intro fn place n s n' s' r _ h hA
      obtain ⟨rfl, rfl⟩ := ends_pure.1 h
      refine .same (Nat.le_refl _) fun hformed m hm => ⟨hformed m hm, ?_⟩
      intro hfunction
      rcases hA with hheight | hplain
      . cases n'
        cases hheight
      . rw [Part.nodes_node, Part.nodes_nil, List.append_nil] at hm
        rw [(hplain m hm).1] at hfunction
        cases hfunction
  | succ depth ih =>
    have hstep := visits_step ih (fun c parts h hsub => h.withParts hsub) fun m hm => .inr hm
    refine ⟨hstep.takes, hstep.same, ?_⟩
    intro fn place n s n' s' r hfn h hA
    exact hstep.forms r hfn h fun m hm => hA.below hm

theorem visits_visit : Visits (fun fn place n => Extract.visit n fn place) fun _ => True := by
  refine ⟨?_, ?_, ?_⟩
  . intro fn place n s n' s' r hformed hfn h
    exact (visits_unroll (n.height + constructorHeight)).takes r hformed hfn h
  . intro fn place n s n' s' r hformed hfn h
    exact (visits_unroll (n.height + constructorHeight)).same r hformed hfn h
  . intro fn place n s n' s' r hfn h _
    exact (visits_unroll (n.height + constructorHeight)).forms r hfn h
      (.inl (Nat.le_add_right _ _))

end Extract

structure Node.IsScript (n : Node) (nodes : Nat) : Prop where
  isFormed : ∀ m ∈ n.preorder, m.IsFormed
  root : n.id = 0
  nodup : n.ids.Nodup
  bound : ∀ x ∈ n.ids, x < nodes

def Extraction.trees (e : Extraction) : List Part :=
  e.functions.toList.map fun f => .node .body f.node

structure Extraction.IsSplit (e : Extraction) : Prop where
  program : ∃ f, e.functions[0]? = some f ∧ f.parent = none ∧ f.isProgram = true ∧ f.isArrow = false
  parent : ∀ (i : Nat) (f : Function), 0 < i → e.functions[i]? = some f → f.isProgram = false ∧
    ∃ p site g, f.parent = some p ∧ f.site = some site ∧ p < i ∧ e.functions[p]? = some g ∧
      Extract.InParts g.node.parts site.id
  blank : ∀ (i : Nat) (f : Function), e.functions[i]? = some f → f.IsBlank
  once : ∀ x, Part.times x e.trees ≤ 1
  bound : ∀ x, 0 < Part.times x e.trees → 0 < x ∧ x < e.counters.node
  sites : ∀ id c, e.sites.get? id = some c → 0 < c ∧ ∃ f site, e.functions[c]? = some f ∧
    f.site = some site ∧ site.id = id
  formed : ∀ (i : Nat) (f : Function), e.functions[i]? = some f → Extract.FormedFunction f.node

namespace Extract

theorem isFormed_program {i j : Nat} {n : Node} (hn : ∀ m ∈ n.preorder, m.IsFormed) :
    let node : Node := .mk i n.span (.functionExpression {})
      [.node .body (.mk j n.span .block (partsAt n .item))]
    node.IsFormed ∧ Formed node.parts := by
  have hitems : Formed (partsAt n .item) := by
    intro m hm
    apply hn m
    rw [Node.preorder_eq]
    exact List.mem_cons_of_mem _ (Part.nodes_subset (partsAt_subset _ _) hm)
  have hblock : (Node.mk j n.span .block (partsAt n .item)).IsFormed := by
    refine ⟨?_, ?_, ?_, ?_, ?_, ?_, ?_, ?_, ?_, ?_⟩
    . intro p hp
      rw [role_of_mem_partsAt hp]
      exact List.mem_singleton_self _
    . intro r c hc _
      cases role_of_mem_partsAt hc
      rfl
    . intro h
      cases h
    . rintro (h | h) <;> cases h
    . rintro (h | h) <;> cases h
    . rintro (h | h) <;> cases h
    all_goals
      intro h
      cases h
  refine ⟨⟨?_, ?_, ?_, ?_, ?_, ?_, ?_, ?_, ?_, ?_⟩, formed_node.2 ⟨hblock, hitems⟩⟩
  . intro p hp
    cases List.mem_singleton.1 hp
    exact List.mem_of_elem_eq_true rfl
  . intro r c hc _
    cases List.mem_singleton.1 hc
    rfl
  . intro h
    cases h
  . rintro (h | h) <;> cases h
  . rintro (h | h) <;> cases h
  . intro _ c hc
    cases List.mem_singleton.1 hc
  all_goals
    intro h
    cases h

theorem enters_of_program {n : Node} {counters : Counters} {e : Extraction}
    (h : Ends (program n) { counters } () e) :
    Ends (enter (fun fn place n => visit n fn place) none none true
        (.mk (counters.node + 1) n.span (.functionExpression {})
          [.node .body (.mk counters.node n.span .block (partsAt n .item))]) {})
      { counters := { counters with node := counters.node + 2 } } () e := by
  unfold program at h
  obtain ⟨body, t₁, hbody, h⟩ := ends_bind.1 h
  obtain ⟨top, t₂, htop, h⟩ := ends_bind.1 h
  obtain ⟨rfl, rfl⟩ := ends_freshNode hbody
  obtain ⟨rfl, rfl⟩ := ends_freshNode htop
  exact h

theorem ends_program {n : Node} {counters : Counters} {e : Extraction}
    (hn : n.IsScript counters.node) (h : Ends (program n) { counters } () e) : e.IsSplit := by
  obtain ⟨hnode, hformed⟩ := isFormed_program (i := counters.node + 1) (j := counters.node)
    hn.isFormed
  obtain ⟨record, t, u, node', henters, hvisits, hcounters, hsites, hsizes, hmade, children,
    isStrict, hget⟩ := visits_enter visits_visit (fun _ _ _ _ => trivial) hformed
      (by rintro p ⟨⟩) (enters_of_program h)
  obtain ⟨hroot, hnew⟩ := FormedFunction.of_visits hvisits hnode (.inl rfl) (fun _ _ => trivial)
    hformed
  obtain ⟨htakes, hid⟩ := times_parts_of_visits hvisits
  change ∀ i, e.functions[i]? = if i = 0 then _ else _ at hget
  have hsize : t.functions.size = 1 := henters.size
  have hnumbers : t.counters.node = counters.node + 2 := henters.numbers
  have htrees : e.trees = .node .body node' :: made t u := by
    rw [← hmade]
    rfl
  have htimes : ∀ x, Part.times x e.trees ≤ [counters.node + 1].count x + [counters.node].count x +
      Part.times x (partsAt n .item) + fresh t u x := by
    intro x
    have hb := htakes.budget x
    simp only [Node.parts_mk, Node.times_eq, Node.id_mk, Part.times_nil] at hb
    rw [htrees, Node.times_eq, hid]
    simp only [Node.id_mk]
    omega
  have hitems : ∀ x, [n.id].count x + Part.times x (partsAt n .item) ≤ 1 ∧
      (0 < Part.times x (partsAt n .item) → x < counters.node) := by
    intro x
    have hfilter := Part.times_filter_le (x := x) (l := n.parts) (p := fun p => p.role == .item)
    have hcount : n.ids.count x = [n.id].count x + Part.times x n.parts := by
      rw [Node.ids, Node.preorder_eq, List.map_cons, List.count_cons, List.count_singleton]
      exact Nat.add_comm _ _
    have hone := List.nodup_iff_count.1 hn.nodup x
    unfold partsAt
    refine ⟨by omega, fun hpos => hn.bound x (List.count_pos_iff.1 (by omega))⟩
  have hzero : 0 < counters.node := hn.root ▸ hn.bound n.id
    (List.mem_map_of_mem Node.mem_preorder_self)
  have hcase : ∀ x, Part.times x e.trees ≤ 1 ∧
      (0 < Part.times x e.trees → 0 < x ∧ x < e.counters.node) := by
    intro x
    have hx := htimes x
    obtain ⟨hone, hlt⟩ := hitems x
    have hnode := htakes.node
    rw [hcounters]
    rw [hn.root] at hone
    unfold fresh at hx
    simp only [List.count_singleton, beq_iff_eq] at hx hone
    split at hx <;> split at hx <;> split at hx <;> split at hone <;> omega
  refine ⟨?_, ?_, ?_, fun x => (hcase x).1, fun x => (hcase x).2, ?_, ?_⟩
  . exact ⟨_, (hget 0).trans (if_pos rfl), henters.outer, henters.top, henters.arrow⟩
  . intro i f hi hf
    rw [hget, if_neg (by omega)] at hf
    obtain ⟨hprogram, p, site, hp, hsite, hplace⟩ := htakes.parent i f (by omega) hf
    rcases hplace with ⟨rfl, hin⟩ | ⟨hsp, hpi, g, hg, hin⟩
    . exact ⟨hprogram.1, 0, site, _, hp, hsite, hi, (hget 0).trans (if_pos rfl), hin⟩
    . refine ⟨hprogram.1, p, site, g, hp, hsite, hpi, ?_, hin⟩
      rw [hget, if_neg (by omega)]
      exact hg
  . intro i f hf
    rw [hget] at hf
    split at hf
    . cases hf
      exact henters.blank
    . exact (htakes.parent i f (by omega) hf).1.2
  . intro id c hc
    rw [hsites] at hc
    rcases htakes.sites id c hc with hc | ⟨hsc, f, site, hf, hsite, hsid⟩
    . rw [henters.sites] at hc
      simp at hc
    . refine ⟨by omega, f, site, ?_, hsite, hsid⟩
      rw [hget, if_neg (by omega)]
      exact hf
  . intro i f hf
    rw [hget] at hf
    split at hf
    . cases hf
      exact hroot
    . exact hnew i f (by omega) hf

end Extract

theorem Extraction.isSplit_of {tree : Node} {counters : Counters} {e : Extraction}
    (htree : tree.IsScript counters.node) (h : Extraction.of tree counters = .ok e) : e.IsSplit :=
  Extract.ends_program htree (ends_of_run h)

end ScriptC
