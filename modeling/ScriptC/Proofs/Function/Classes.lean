import ScriptC.Proofs.Function.Moves

/-!
Taking a class apart moves its nodes: those of its constructor to the function of the site, and
those of its members to functions of their own. With that every step through a tree moves it.
-/

namespace ScriptC

open Pass

namespace Extract

variable {bound : Nat} {lost lost' members members' : Nat → Nat}
  {given left given' left' : List Part} {s t s' : Extraction}
variable {visit : Visit} {A : Node → Prop} {fn : Nat} {place : Option Place} {parent : Node}

def shell (cls : Node) : Part := .node .item (cls.withParts [])

theorem Mover.takeConstructor (hmove : Mover bound visit A) (hgrow : Grower visit)
    (hclosed : IsInherited A) {cls site ctor : Node}
    {c : Circumstances} (hsame : Same cls site) (hclass : cls.kind.isClass = true)
    (hfit : Fit [.node .body ctor]) (hkind : ctor.kind = .functionExpression)
    (hname : ctor.part? .name = none) (hA : ∀ c, Part.Holds ctor.parts c → A c)
    (hc : c.isConstructor = true ∧ c.isStrict = true)
    (hfn : fn < s.functions.size) (hbound : bound ≤ s.counters.node)
    (h : Ends (takeConstructor visit fn site ctor c) s () s') :
    Moves bound (fun x => Part.tally Node.dropped x [.node .body ctor])
      (fun x => Part.tally Node.memberValues x [.node .body ctor])
      (ctor.parts ++ [shell cls]) [shell cls] s s' := by
  obtain ⟨⟨hformed, htidy⟩, hparts⟩ := fit_node.1 hfit
  have hfunction : ctor.kind.isFunction = true := by rw [hkind]; rfl
  have hsite : cls.kind.isSite = true := by simp [Kind.isSite, hclass]
  unfold Extract.takeConstructor at h
  obtain ⟨number, t, hnumber, h⟩ := ends_bind.1 h
  dsimp only at h
  rw [ends_modify_bind] at h
  obtain ⟨hfresh, hid⟩ := shifts_freshNode hbound hnumber
  generalize hnode : Node.mk number ctor.span _ _ = node at h
  have hclones : Clones ctor node := by
    rw [← hnode]
    exact ⟨.inl rfl, rfl, [], .inl rfl, rfl⟩
  have hsub : Part.nodes node.parts ⊆ Part.nodes (ctor.parts ++ [shell cls]) := by
    rw [Part.nodes_append]
    exact List.Subset.trans (Part.nodes_subset hclones.subset) (List.subset_append_left _ _)
  have hmem : cls.withParts [] ∈ Part.nodes (ctor.parts ++ [shell cls]) := by
    rw [Part.nodes_append]
    exact List.mem_append_right _ (by simp [shell, Node.preorder_eq])
  have hlost : ∀ x, x < bound → [cls.id].count x +
      Part.tally Node.dropped x [.node .body ctor] + Part.times x node.parts =
        Part.times x (ctor.parts ++ [shell cls]) + Part.tally Node.dropped x
          [.node .body node] := by
    intro x _
    have hunnamed : Part.times x (partsAt ctor .name) = 0 := by
      rw [Part.times, Node.nodes_partsAt_single (htidy.single _ (by simp) (by simp)), hname]
      rfl
    have hinner : Part.times x ctor.parts = Part.times x node.parts := by
      rw [times_function x hformed hfunction, hunnamed, ← hnode, Node.parts_mk, Part.times_append]
      omega
    rw [hclones.dropped hfit hfunction, Part.times_append, hinner, shell, Node.times_eq]
    simp only [Node.id_withParts, Node.parts_withParts, Part.times_nil]
    omega
  have hgiven : ∀ x, [site.id].count x + Part.tally Node.standing x node.parts ≤
      Part.tally Node.standing x (ctor.parts ++ [shell cls]) := by
    intro x
    rw [Part.tally_append, hclones.tally_parts hfit hfunction (k := Node.standing)
      (fun _ hm => standing_of_not_site hm), shell, Part.tally_node, ← hsame.id]
    have hhere : (cls.withParts []).standing = [cls.withParts []] := if_pos hsite
    rw [hhere]
    simp only [List.map_cons, List.map_nil, Node.id_withParts]
    omega
  have horigin : Origin (ctor.parts ++ [shell cls]) site node c false := by
    refine ⟨⟨cls.withParts [], hmem, hsite, ⟨hsame.id, hsame.span, hsame.label⟩, ?_, ?_⟩, ?_⟩
    . rw [hc.1]
      exact hclass.symm
    . intro hno
      rw [Node.kind_withParts] at hno
      rw [Kind.isClass_of_isFunction hno] at hclass
      cases hclass
    . rw [hc.1, hc.2]
      rfl
  obtain ⟨hmoves, hentry⟩ := hmove.enter hgrow hclosed (hclones.isFormed hfit hfunction)
    (hclones.isTidy htidy) hclones.isFunction (hparts.subset (Part.nodes_subset hclones.subset))
    (by rintro c ⟨r, hc⟩; exact hA c ⟨r, hclones.subset hc⟩) (by rw [← hnode]; exact hid)
    (covers_of_subset bound hsub) hgiven hlost horigin (Nat.lt_of_lt_of_le hfn hfresh.size)
    (Nat.le_trans hbound hfresh.node) h
  refine (Moves.trans hfresh hmoves).balance ?_ ?_ (fun x => Nat.le_refl _)
    (covers_of_subset bound (List.Subset.refl _)) ?_
  . intro x _
    simp only [List.nil_append, Part.times_nil, Part.tally_nil, shell, Node.times_eq,
      Node.id_withParts, Node.parts_withParts]
    omega
  . intro x
    rw [hclones.memberValues hfit hfunction, Part.tally_nil]
    simp
  . intro m hm
    obtain rfl : m = cls.withParts [] := by simpa [shell, Node.preorder_eq] using hm
    refine .inr ⟨.inr ⟨_, hmem, .refl _⟩, fun _ => ⟨⟨?_, ?_⟩, ?_⟩, fun h => h _ hmem⟩
    . intro _ p hp
      cases hp
    . intro _ m hm
      cases hm
    . rw [Node.id_withParts, hsame.id]
      exact hentry

theorem Mover.keyed (hmove : Mover bound visit A) (hgrow : Grower visit)
    (hclosed : IsInherited A) {n value site : Node}
    {key : Option Node} {c : Circumstances} {t : Extraction} (r : Role)
    (hfit : Fit [.node r n]) (hsite : n.kind.isSite = false)
      (hroles : n.kind.roles = [.key, .value])
    (hvalue : n.part? .value = some value) (hfunction : value.kind.isFunction = true)
    (hA : ∀ c, Part.Holds n.parts c → A c ∧ ∀ d, Part.Holds c.parts d → A d)
    (hc : c.isConstructor = false) (hfn : fn < s.functions.size) (hbound : bound ≤ s.counters.node)
    (hkey : Ends (Extract.visitOption visit fn place (n.part? .key)) s key t)
    (hextract : Ends (Extract.extract visit fn value c) t site s') :
    Moves bound (fun x => Part.tally Node.dropped x [.node r n])
      (fun x => Part.tally Node.memberValues x [.node r n] +
        if c.isStrict then [value.id].count x else 0) [.node r n]
      [.node r (n.withParts ((key.map (Part.node .key)).toList ++ [.node .value site]))] s s' := by
  obtain ⟨⟨hformed, htidy⟩, hparts⟩ := fit_node.1 hfit
  have hnodes : (Part.nodes n.parts).Perm
      (Part.nodes (((n.part? .key).map (Part.node .key)).toList ++ [.node .value value])) := by
    refine (Part.perm_nodes (Node.perm_partsAt [.key, .value] (by decide) fun p hp =>
      hroles ▸ hformed.roles p hp)).trans ?_
    have hsingle : ∀ r, r ≠ .item → r ≠ .param → Part.nodes (partsAt n r) =
        Part.nodes ((n.part? r).map (Part.node r)).toList :=
      fun r hitem hparam => Node.nodes_partsAt_single (htidy.single r hitem hparam)
    simp [hsingle .key (by simp) (by simp), hsingle .value (by simp) (by simp), hvalue]
  have hfits := fit_append.1 (hparts.subset hnodes.symm.subset)
  have hmkey := hmove.visitOption .key hfits.1 hfn hbound
    (fun c hc => (hA c (Node.holds_of_part? hc)).1) hkey
  have hmvalue := hmove.extract hgrow hclosed .value hfits.2 hfunction
    (hA value (Node.holds_of_part? hvalue)).2 hc (Nat.lt_of_lt_of_le hfn hmkey.size)
    (Nat.le_trans hbound hmkey.node) hextract
  obtain ⟨hdropped, hvalues⟩ := dropped_of_not_site hsite
  have hmem : n ∈ Part.nodes [.node r n] := by simp [Node.mem_preorder_self]
  have hsub : Part.nodes n.parts ⊆ Part.nodes [.node r n] := Node.nodes_parts_subset
  refine (Moves.trans hmkey hmvalue).balance ?_ ?_ ?_
    (covers_of_subset bound (List.Subset.trans hnodes.symm.subset hsub)) ?_
  . intro x _
    rw [Part.tally_node, hdropped, Part.tally_of_perm hnodes, Node.times_eq, Node.times_eq,
      Part.times_of_perm hnodes, Part.tally_append]
    simp only [Node.id_withParts, Node.parts_withParts, Part.times_nil, Part.tally_nil,
      List.map_nil, List.count_nil]
    omega
  . intro x
    rw [Part.tally_node, hvalues, Part.tally_of_perm hnodes, Part.tally_append]
    simp only [Part.tally_nil, List.map_nil, List.count_nil]
    omega
  . intro x
    rw [Part.tally_node, Part.tally_of_perm hnodes]
    omega
  . intro m hm
    rw [Part.nodes_node, Part.nodes_nil, List.append_nil, Node.preorder_eq, List.mem_cons] at hm
    rcases hm with rfl | hm
    . refine .inr (fair_of_not_site hsite (.inr ⟨n, hmem, ⟨rfl, rfl, rfl⟩⟩) fun _ => ?_)
      refine Node.isComplete_of_isBare ?_
      rw [Node.kind_withParts]
      generalize n.kind = k at hroles
      cases k <;> first | rfl | cases hroles
    . exact .inl hm

theorem Mover.extractMembers (hmove : Mover bound visit A) (hgrow : Grower visit)
    (hclosed : IsInherited A) {body : Node}
    {defs : List Node} {left : List Part} (hfit : Fit (defs.map (Part.node .item)))
    (hkind : ∀ m ∈ defs, m.kind = .methodDefinition ∨ m.kind = .propertyDefinition)
    (hA : ∀ m ∈ defs, ∀ c, Part.Holds m.parts c → A c ∧ ∀ d, Part.Holds c.parts d → A d)
    (hfn : fn < s.functions.size) (hbound : bound ≤ s.counters.node)
    (h : Ends (extractMembers visit fn place body defs) s left s') :
    Moves bound (fun x => Part.tally Node.dropped x (defs.map (Part.node .item)))
      (fun x => Part.tally Node.memberValues x (defs.map (Part.node .item)) +
        ((defs.filterMap (·.part? .value)).map (·.id)).count x)
      (defs.map (Part.node .item)) left s s' ∧
    ∀ p ∈ left, ∃ m ∈ defs, ∃ parts, p = .node .item (m.withParts parts) := by
  induction defs generalizing s left with
  | nil =>
    obtain ⟨rfl, rfl⟩ := ends_pure.1 h
    refine ⟨shifts_nil, ?_⟩
    intro p hp
    cases hp
  | cons m rest ih =>
    rw [Extract.extractMembers] at h
    obtain ⟨key, t, hkey, h⟩ := ends_bind.1 h
    obtain ⟨hhere, hthere⟩ := fit_append (l := [.node .item m]).1 hfit
    split at h
    . next value hvalue =>
      obtain ⟨hvalue, hfunction⟩ := Option.filter_eq_some_iff.1 hvalue
      obtain ⟨site, u, hsite, h⟩ := ends_bind.1 h
      obtain ⟨left', v, hleft, h⟩ := ends_bind.1 h
      obtain ⟨rfl, rfl⟩ := ends_pure.1 h
      have hmkind := hkind m List.mem_cons_self
      have hhead := hmove.keyed hgrow hclosed .item hhere
        (by rcases hmkind with hk | hk <;> rw [hk] <;> rfl)
        (by rcases hmkind with hk | hk <;> rw [hk] <;> rfl) hvalue hfunction
        (hA m List.mem_cons_self) rfl hfn hbound hkey hsite
      obtain ⟨htail, hforms⟩ := ih hthere (fun m hm => hkind m (List.mem_cons_of_mem _ hm))
        (fun m hm => hA m (List.mem_cons_of_mem _ hm)) (Nat.lt_of_lt_of_le hfn hhead.size)
        (Nat.le_trans hbound hhead.node) hleft
      refine ⟨(hhead.trans htail).balance ?_ ?_ (fun x => Nat.le_refl _)
        (covers_of_subset bound (List.Subset.refl _)) fun _ => .inl, ?_⟩
      . intro x _
        rw [List.map_cons, ← List.singleton_append (l := rest.map _), Part.tally_append]
        simp only [List.singleton_append]
        omega
      . intro x
        rw [List.map_cons, ← List.singleton_append (l := rest.map _), Part.tally_append,
          List.filterMap_cons, hvalue]
        simp only [List.map_cons, if_true, List.count_cons, List.count_nil]
        omega
      . intro p hp
        rcases List.mem_cons.1 hp with rfl | hp
        . exact ⟨m, List.mem_cons_self, _, rfl⟩
        . obtain ⟨m', hm', parts, rfl⟩ := hforms p hp
          exact ⟨m', List.mem_cons_of_mem _ hm', parts, rfl⟩
    . exact absurd h not_ends_throw

theorem isSteady_shifts : IsSteady fun s s' : Extraction =>
    bound ≤ s.counters.node → Shifts bound [] [] s s' where
  refl _ _ := shifts_nil
  trans h h' hbound := (h hbound).trans (h' (Nat.le_trans hbound (h hbound).node))

theorem shifts_defaultConstructor {cls node : Node} (hbound : bound ≤ s.counters.node)
    (h : Ends (defaultConstructor cls) s node s') : Shifts bound [] [] s s' := by
  have hfresh : Keeps (fun s s' : Extraction =>
      bound ≤ s.counters.node → Shifts bound [] [] s s') freshNode :=
    fun _ _ _ h hbound => (shifts_freshNode hbound h).1
  refine (?_ : Keeps (fun s s' : Extraction =>
    bound ≤ s.counters.node → Shifts bound [] [] s s') (defaultConstructor cls)) _ _ _ h hbound
  unfold defaultConstructor
  refine .bind isSteady_shifts hfresh fun _ => .bind isSteady_shifts hfresh fun _ => ?_
  refine .ite (fun _ => .pure isSteady_shifts _) fun _ => ?_
  iterate 7 refine .bind isSteady_shifts hfresh fun _ => ?_
  exact .pure isSteady_shifts _

theorem ends_splitMembers_eq {items defs : List Node} {ctor : Option Node}
    {r : List Node × Option Node} (h : Ends (splitMembers items ctor defs) s r s') :
    r.1 = defs.reverse ++ items.filter (fun m => !m.isConstructor) ∧
      r.2.toList = ctor.toList ++ items.filter Node.isConstructor := by
  induction items generalizing ctor defs with
  | nil =>
    obtain ⟨rfl, rfl⟩ := ends_pure.1 h
    simp
  | cons m rest ih =>
    rw [splitMembers] at h
    split at h
    . exact absurd h not_ends_throw
    . split at h
      . next hm =>
        have hm : m.isConstructor = true := hm
        split at h
        . exact absurd h not_ends_throw
        . next hnone =>
          obtain rfl : ctor = none := by simpa using hnone
          obtain ⟨hdefs, hctor⟩ := ih h
          simp [hdefs, hctor, hm]
      . next hm =>
        have hm : m.isConstructor = false := by simpa [Node.isConstructor] using hm
        obtain ⟨hdefs, hctor⟩ := ih h
        simp [hdefs, hctor, hm]

section Class

variable {r : Role} {cls body : Node} (hfit : Fit [.node r cls]) (hclass : cls.kind.isClass = true)
  (hbody : cls.part? .body = some body) (hbodyKind : body.kind = .classBody)

include hfit hclass hbody hbodyKind

theorem tally_class (h : Node → List Node) (x : Nat) :
    Part.tally h x [.node r cls] = ((h cls).map (·.id)).count x +
      Part.tally h x (partsAt cls .name) +
      Part.tally h x ((cls.part? .heritage).map (Part.node .heritage)).toList +
      ((h body).map (·.id)).count x +
      Part.tally h x ((body.items.filter Node.isConstructor).map (Part.node .item)) +
      Part.tally h x ((body.items.filter fun m => !m.isConstructor).map (Part.node .item)) := by
  obtain ⟨⟨hformed, htidy⟩, hparts⟩ := fit_node.1 hfit
  have hroles : cls.kind.roles = [.name, .heritage, .body] := by
    cases hk : cls.kind <;> rw [hk] at hclass <;> first | rfl | cases hclass
  have hperm := Part.perm_nodes (Node.perm_partsAt (n := cls) [.name, .heritage, .body] (by decide)
    fun p hp => hroles ▸ hformed.roles p hp)
  have hsingle : ∀ r, r ≠ .item → r ≠ .param → Part.tally h x (partsAt cls r) =
      Part.tally h x ((cls.part? r).map (Part.node r)).toList := by
    intro r hitem hparam
    rw [Part.tally, Part.tally, Node.nodes_partsAt_single (htidy.single r hitem hparam)]
  have hcls : Part.tally h x cls.parts = Part.tally h x (partsAt cls .name) +
      Part.tally h x ((cls.part? .heritage).map (Part.node .heritage)).toList +
      Part.tally h x [.node .body body] := by
    rw [Part.tally_of_perm hperm]
    simp only [List.flatMap_cons, List.flatMap_nil, List.append_nil, Part.tally_append]
    rw [hsingle .heritage (by simp) (by simp), hsingle .body (by simp) (by simp), hbody]
    simp only [Option.map_some, Option.toList_some]
    omega
  have hbodyFormed : body.IsFormed :=
    (hparts body (Part.mem_nodes_of_holds (Node.holds_of_part? hbody) Node.mem_preorder_self)).1
  have hitems : Part.tally h x body.parts =
      Part.tally h x ((body.items.filter Node.isConstructor).map (Part.node .item)) +
      Part.tally h x ((body.items.filter fun m => !m.isConstructor).map (Part.node .item)) := by
    have hall := Part.perm_nodes (Node.perm_partsAt (n := body) [.item] (by decide)
      fun p hp => (by rw [hbodyKind]; rfl : body.kind.roles = [.item]) ▸ hbodyFormed.roles p hp)
    rw [List.flatMap_singleton] at hall
    rw [Part.tally_of_perm hall, ← Part.tally_append, ← List.map_append]
    have hsplit := (List.filter_append_perm Node.isConstructor body.items).map (Part.node .item)
    rw [Part.tally_of_perm (Part.perm_nodes hsplit), Part.tally, Part.tally, Node.items,
      Node.nodes_nodesAt]
  rw [Part.tally_node, hcls, Part.tally_node, hitems, Part.tally_nil]
  omega

end Class

theorem tally_method {r : Role} {m value : Node} (hfit : Fit [.node r m])
    (hkind : m.kind = .methodDefinition) (hvalue : m.part? .value = some value)
    (h : Node → List Node) (x : Nat) : Part.tally h x [.node r m] = ((h m).map (·.id)).count x +
      Part.tally h x ((m.part? .key).map (Part.node .key)).toList +
      Part.tally h x [.node .value value] := by
  obtain ⟨⟨hformed, htidy⟩, -⟩ := fit_node.1 hfit
  have hperm := Part.perm_nodes (Node.perm_partsAt (n := m) [.key, .value] (by decide)
    fun p hp => (by rw [hkind]; rfl : m.kind.roles = [.key, .value]) ▸ hformed.roles p hp)
  have hsingle : ∀ r, r ≠ .item → r ≠ .param → Part.tally h x (partsAt m r) =
      Part.tally h x ((m.part? r).map (Part.node r)).toList := by
    intro r hitem hparam
    rw [Part.tally, Part.tally, Node.nodes_partsAt_single (htidy.single r hitem hparam)]
  rw [Part.tally_node, Part.tally_of_perm hperm]
  simp only [List.flatMap_cons, List.flatMap_nil, List.append_nil, Part.tally_append,
    Part.tally_nil]
  rw [hsingle .key (by simp) (by simp), hsingle .value (by simp) (by simp), hvalue]
  simp only [Option.map_some, Option.toList_some]
  omega

theorem dropped_of_leaf {n : Node} (h : n.parts = []) : n.dropped = [] ∧ n.memberValues = [] := by
  have hnone : n.part? .body = none := by simp [Node.part?, h]
  refine ⟨?_, ?_⟩
  . unfold Node.dropped
    split
    . simp [Node.directive?, hnone]
    . split
      . simp [Node.members, hnone, Node.items, Node.nodesAt, default, Node.parts]
      . rfl
  . unfold Node.memberValues
    split
    . simp [Node.members, hnone, Node.items, Node.nodesAt, default, Node.parts]
    . rfl

def ctorParts (body : Node) : List Part :=
  (body.items.filter Node.isConstructor).map (Part.node .item)

structure Builds (bound : Nat) (given : List Part) (cls body function : Node) : Prop where
  fit : Fit [.node .body function]
  kind : function.kind = .functionExpression
  name : function.part? .name = none
  covers : Covers bound function.parts given
  lost : ∀ x, x < bound → Part.times x function.parts + (cls.dropped.map (·.id)).count x +
    Part.tally Node.dropped x (ctorParts body) =
      Part.times x (ctorParts body) + Part.tally Node.dropped x [.node .body function]
  values : ∀ x, Part.tally Node.memberValues x (ctorParts body) =
    Part.tally Node.memberValues x [.node .body function]
  standing : ∀ x, Part.tally Node.standing x function.parts ≤
    Part.tally Node.standing x (ctorParts body)

theorem dropped_class {cls body : Node} (hclass : cls.kind.isClass = true)
    (hbody : cls.part? .body = some body) : cls.dropped =
      (body.items.find? Node.isConstructor).elim [] fun m =>
        m :: ((m.part? .key).elim [] Node.preorder ++ (m.part? .value).toList) := by
  have hfunction : cls.kind.isFunction ≠ true := fun h => by
    rw [Kind.isClass_of_isFunction h] at hclass
    cases hclass
  rw [Node.dropped, if_neg hfunction, if_pos hclass, Node.members, hbody, Option.getD_some]

theorem memberValues_class {cls body : Node} (hclass : cls.kind.isClass = true)
    (hbody : cls.part? .body = some body) : cls.memberValues =
      (body.items.filter fun m => !m.isConstructor).filterMap (·.part? .value) := by
  rw [Node.memberValues, if_pos hclass, Node.members, hbody, Option.getD_some]

theorem builds_member {given : List Part} {cls body m function : Node}
    (hclass : cls.kind.isClass = true) (hbody : cls.part? .body = some body)
    (hctor : body.items.filter Node.isConstructor = [m]) (hfit : Fit [.node .item m])
    (hkind : m.kind = .methodDefinition) (hvalue : m.part? .value = some function)
    (hcovers : Part.nodes m.parts ⊆ Part.nodes given) : Builds bound given cls body function := by
  obtain ⟨⟨hformed, htidy⟩, hparts⟩ := fit_node.1 hfit
  have hm : m.isConstructor = true :=
    (List.mem_filter.1 (hctor ▸ List.mem_singleton_self m)).2
  have hfind : body.items.find? Node.isConstructor = some m := by
    rw [← List.head?_filter, hctor]
    rfl
  have hheld := Node.holds_of_part? hvalue
  have hfunctions : Part.nodes [.node .body function] ⊆ Part.nodes m.parts := by
    intro d hd
    rw [Part.nodes_node, Part.nodes_nil, List.append_nil] at hd
    exact Part.mem_nodes_of_holds hheld hd
  have hquiet : m.kind.isSite = false := by rw [hkind]; rfl
  have hkey : ∀ d ∈ Part.nodes ((m.part? .key).map (Part.node .key)).toList,
      d.dropped = [] ∧ d.memberValues = [] := by
    intro d hd
    cases hk : m.part? .key with
    | none =>
      rw [hk] at hd
      cases hd
    | some key =>
      have hleaf := htidy.key hm key hk
      rw [hk, Option.map_some, Option.toList_some, Part.nodes_node, Part.nodes_nil,
        List.append_nil, Node.preorder_eq, hleaf, Part.nodes_nil, List.mem_singleton] at hd
      rw [hd]
      exact dropped_of_leaf hleaf
  have hctorParts : ctorParts body = [.node .item m] := by rw [ctorParts, hctor]; rfl
  refine ⟨hparts.subset hfunctions, ?_, htidy.unnamed hkind _ hvalue, ?_, ?_, ?_, ?_⟩
  . obtain ⟨c, hc, hck⟩ := hformed.method hkind
    obtain rfl : function = c := by simpa [hvalue] using hc
    exact hck
  . refine covers_of_subset bound (List.Subset.trans ?_ hcovers)
    exact List.Subset.trans Node.nodes_parts_subset hfunctions
  . intro x _
    have hkeys : (((m.part? .key).elim [] Node.preorder).map (·.id)).count x =
        Part.tally (fun n => [n]) x ((m.part? .key).map (Part.node .key)).toList := by
      rw [← Part.times_eq_tally]
      cases m.part? .key with
      | none => rfl
      | some key => simp [Part.times]
    rw [hctorParts, tally_method hfit hkind hvalue, Part.times_eq_tally, Part.times_eq_tally,
      tally_method hfit hkind hvalue, dropped_class hclass hbody, hfind, Option.elim_some, hvalue,
      (dropped_of_not_site hquiet).1, Part.tally_eq_zero fun d hd => (hkey d hd).1,
      Part.tally_node (r := .value), Part.tally_node (r := .value), Part.tally_node (r := .body)]
    simp only [Option.toList_some, List.map_cons, List.map_append, List.map_nil, List.count_cons,
      List.count_append, List.count_nil, Part.tally_nil, hkeys]
    omega
  . intro x
    rw [hctorParts, tally_method hfit hkind hvalue, (dropped_of_not_site hquiet).2,
      Part.tally_eq_zero fun d hd => (hkey d hd).2, Part.tally_node, Part.tally_node]
    simp
  . intro x
    rw [hctorParts, tally_method hfit hkind hvalue, Part.tally_node (r := .value)]
    omega

theorem isTidy_of_distinct {m : Node} (h : (m.parts.map (·.role)).Nodup)
    (hkind : m.kind ≠ .methodDefinition ∧ m.isConstructor = false) : m.IsTidy := by
  refine ⟨fun r _ _ => ?_, fun hm => ?_, fun hm => absurd hm hkind.1⟩
  . have hcount := List.nodup_iff_count.1 h r
    rw [Node.IsSingle, ← List.countP_eq_length_filter]
    rwa [List.count, List.countP_map] at hcount
  . rw [hkind.2] at hm
    cases hm

theorem directive_subset (n : Node) :
    n.directive?.elim [] Node.preorder ⊆ Part.nodes n.parts := by
  intro m hm
  cases hd : n.directive? with
  | none =>
    rw [hd] at hm
    cases hm
  | some d =>
    rw [hd] at hm
    rw [Node.directive?, Option.ite_none_left_eq_some, Option.bind_eq_some_iff] at hd
    obtain ⟨-, b, hb, hd⟩ := hd
    obtain ⟨-, hheld⟩ := isDirective_of_mem_prologue (List.mem_of_find?_eq_some hd)
    exact Part.mem_nodes_of_holds (Node.holds_of_part? hb) (Node.preorder_subset hheld hm)

theorem builds_default {given : List Part} {cls body function : Node}
    (hclass : cls.kind.isClass = true) (hbody : cls.part? .body = some body)
    (hctor : body.items.filter Node.isConstructor = []) (hmade : MadeUp function)
    (hnew : ∀ x, x < bound → Part.times x [.node .body function] = 0) :
    Builds bound given cls body function := by
  have hquiet : ∀ m ∈ Part.nodes function.parts, m.kind.isSite = false := by
    intro m hm
    simp [Kind.isSite, hmade.plain m hm]
  have hfind : body.items.find? Node.isConstructor = none := by
    rw [← List.head?_filter, hctor]
    rfl
  have hctorParts : ctorParts body = [] := by rw [ctorParts, hctor]; rfl
  have hbound : ∀ m ∈ Part.nodes [.node .body function], bound ≤ m.id := by
    intro m hm
    refine Nat.not_lt.1 fun hlt => ?_
    have := hnew m.id hlt
    have := Part.times_pos_of_mem hm
    omega
  have hsub : Part.nodes function.parts ⊆ Part.nodes [.node .body function] :=
    Node.nodes_parts_subset
  have hclassless : function.memberValues = [] := by
    rw [Node.memberValues, hmade.kind]
    rfl
  have hsimple : Fit [.node .body function] := by
    intro m hm
    rw [Part.nodes_node, Part.nodes_nil, List.append_nil] at hm
    obtain ⟨hdistinct, hmethod, hmarks⟩ := hmade.simple m hm
    refine ⟨?_, isTidy_of_distinct hdistinct ⟨hmethod, by simpa [Node.isConstructor] using hmarks⟩⟩
    rw [Node.preorder_eq, List.mem_cons] at hm
    rcases hm with rfl | hm
    . exact hmade.isFormed
    . exact hmade.formed m hm
  refine ⟨hsimple, hmade.kind, hmade.unnamed, ?_, ?_, ?_, ?_⟩
  . intro n hn
    exact .inr ⟨⟨(hmade.plain n hn).1, hmade.complete n hn⟩,
      .inl ⟨hquiet n hn, hbound n (hsub hn)⟩⟩
  . intro x hx
    have hnone := hnew x hx
    have hdirective : (function.dropped.map (·.id)).count x = 0 := by
      rw [Node.dropped, if_pos (by rw [hmade.kind]; rfl), List.count_eq_zero]
      intro hx'
      obtain ⟨m, hm, rfl⟩ := List.mem_map.1 hx'
      have := hbound m (hsub (directive_subset function hm))
      omega
    rw [Node.times_eq] at hnone
    rw [hctorParts, dropped_class hclass hbody, hfind, Part.tally_node, hdirective,
      (tally_quiet hquiet x).1]
    simp only [Option.elim_none, List.map_nil, List.count_nil, Part.tally_nil, Part.times_nil]
    omega
  . intro x
    rw [hctorParts, Part.tally_node, hclassless, (tally_quiet hquiet x).2]
    rfl
  . intro x
    rw [Part.tally_eq_zero fun m hm => standing_of_not_site (hquiet m hm)]
    exact Nat.zero_le _

theorem isDetached_class {cls body : Node} {heritage : Option Node} {items : List Part}
    (hclass : cls.kind.isClass = true)
    (hforms : ∀ p ∈ items, ∃ m ∈ body.items.filter (fun m => !m.isConstructor), ∃ parts,
      p = .node .item (m.withParts parts)) :
    (cls.withParts (partsAt cls .name ++ (heritage.map (Part.node .heritage)).toList ++
      [.node .body (body.withParts items)])).IsDetached := by
  refine ⟨fun hfunction => ?_, fun _ m hm => ?_⟩
  . rw [Node.kind_withParts] at hfunction
    rw [Kind.isClass_of_isFunction hfunction] at hclass
    cases hclass
  . have hbody : (cls.withParts (partsAt cls .name ++ (heritage.map (Part.node .heritage)).toList ++
        [.node .body (body.withParts items)])).part? .body = some (body.withParts items) := by
      refine part?_append_of_role fun p hp => ?_
      rcases List.mem_append.1 hp with hp | hp
      . rw [role_of_mem_partsAt hp]
        decide
      . obtain ⟨c, -, rfl⟩ := Option.map_eq_some_iff.1 (Option.mem_toList.1 hp)
        exact (by decide : Role.heritage ≠ .body)
    rw [Node.members, hbody, Option.getD_some] at hm
    obtain ⟨d, hd, parts, heq⟩ := hforms _ (mem_parts_of_items hm)
    injection heq with _ heq
    have hlabel : m.label = d.label := by rw [heq]; rfl
    have hd := (List.mem_filter.1 hd).2
    rw [Node.isConstructor, Node.memberMarks] at hd ⊢
    rw [hlabel]
    simpa using hd

def Chooses (cls body function : Node) (s s' : Extraction) : Prop :=
  body.items.filter Node.isConstructor = [] ∧ Ends (defaultConstructor cls) s function s' ∨
    ∃ m, body.items.filter Node.isConstructor = [m] ∧ m.kind ≠ .propertyDefinition ∧
      function = (m.part? .value).getD default ∧ s' = s

theorem chooses_of_extractClass {cls body site : Node} (hbody : cls.part? .body = some body)
    (h : Ends (extractClass visit fn place cls) s site s') :
    ∃ heritage t function u outer c v items,
      Ends (visitOption visit fn (some (cls.placeIn place .heritage)) (cls.part? .heritage)) s
        heritage t ∧
      Chooses cls body function t u ∧ Same cls outer ∧
      (c.isConstructor = true ∧ c.isStrict = true) ∧
      Ends (takeConstructor visit fn outer function c) u () v ∧
      Ends (extractMembers visit fn (some (cls.placeIn place .body)) body
        (body.items.filter fun m => !m.isConstructor)) v items s' ∧
      site = cls.withParts (partsAt cls .name ++ (heritage.map (Part.node .heritage)).toList ++
        [.node .body (body.withParts items)]) := by
  obtain ⟨heritage, t, defs, ctor, function, u, v, items, hheritage, hsplit, hmade, htake, hitems,
    rfl⟩ := ends_extractClass hbody h
  obtain ⟨-, -, hctor, -⟩ := ends_splitMembers hsplit
  obtain ⟨hdefs, hctors⟩ := ends_splitMembers_eq hsplit
  dsimp only at hdefs hctors hctor
  rw [List.reverse_nil, List.nil_append] at hdefs
  rw [Option.toList_none, List.nil_append] at hctors
  rw [hdefs] at hitems
  refine ⟨heritage, t, function, u, _, _, v, items, hheritage, ?_, ?_, ?_, htake, hitems, rfl⟩
  . rcases hmade with ⟨rfl, hdefault⟩ | ⟨m, rfl, rfl, rfl⟩
    . exact .inl ⟨hctors.symm, hdefault⟩
    . refine .inr ⟨m, hctors.symm, ?_, rfl, rfl⟩
      rcases hctor m rfl with hnone | ⟨-, hne⟩
      . cases hnone
      . exact hne
  . exact ⟨rfl, rfl, rfl⟩
  . exact ⟨rfl, rfl⟩

section Class

variable {r : Role} {cls body : Node} (hfit : Fit [.node r cls]) (hclass : cls.kind.isClass = true)
  (hbody : cls.part? .body = some body) (hbodyKind : body.kind = .classBody)

include hfit hbody hbodyKind

theorem fit_members : ∀ m ∈ body.items,
    (m.kind = .methodDefinition ∨ m.kind = .propertyDefinition) ∧ Fit [.node .item m] ∧
      m.preorder ⊆ Part.nodes cls.parts := by
  obtain ⟨-, hparts⟩ := fit_node.1 hfit
  have hheld := Node.holds_of_part? hbody
  intro m hm
  have hsub : m.preorder ⊆ Part.nodes cls.parts := fun d hd =>
    Part.mem_nodes_of_holds hheld (Node.preorder_subset (Node.holds_of_mem_items hm) hd)
  refine ⟨?_, ?_, hsub⟩
  . exact (hparts body (Part.mem_nodes_of_holds hheld Node.mem_preorder_self)).1.member hbodyKind m
      (mem_parts_of_items hm)
  . refine hparts.subset ?_
    rw [Part.nodes_node, Part.nodes_nil, List.append_nil]
    exact hsub

include hclass

theorem Chooses.builds {function : Node} (h : Chooses cls body function s s')
    (hplain : ∀ m : Node, IsPlain m → A m) (hA : ∀ m ∈ Part.nodes cls.parts, A m)
      (hbound : bound ≤ s.counters.node) :
    Shifts bound [] [] s s' ∧ Builds bound [.node r cls] cls body function ∧
      ∀ c, Part.Holds function.parts c → A c := by
  rcases h with ⟨hctors, hdefault⟩ | ⟨m, hctors, hfield, rfl, rfl⟩
  . obtain ⟨htakes, -, hmade⟩ := @ends_defaultConstructor 0 (fun _ => True) _ _ _ _ hdefault
    refine ⟨shifts_defaultConstructor hbound hdefault, builds_default hclass hbody hctors hmade ?_,
      fun c hc => hplain c fun m hm => hmade.plain m (Part.mem_nodes_of_holds hc hm)⟩
    intro x hx
    have hbudget := htakes.budget x
    unfold fresh at hbudget
    rw [if_neg (by omega), Part.times_nil] at hbudget
    omega
  . have hmem : m ∈ body.items.filter Node.isConstructor := by
      rw [hctors]
      exact List.mem_singleton_self m
    obtain ⟨hkinds, hfitm, hsub⟩ := fit_members hfit hbody hbodyKind m (List.mem_filter.1 hmem).1
    have hkind := hkinds.resolve_right hfield
    obtain ⟨value, hvalue, -⟩ := (fit_node.1 hfitm).1.1.method hkind
    have hinner : Part.nodes m.parts ⊆ Part.nodes cls.parts := by
      refine List.Subset.trans ?_ hsub
      rw [Node.preorder_eq]
      exact List.subset_cons_self _ _
    rw [hvalue, Option.getD_some]
    refine ⟨shifts_nil, builds_member hclass hbody hctors hfitm hkind hvalue
      (List.Subset.trans hinner Node.nodes_parts_subset), ?_⟩
    . intro c hc
      exact hA c (hinner (Part.mem_nodes_of_holds (Node.holds_of_part? hvalue)
        (Node.preorder_subset hc Node.mem_preorder_self)))

theorem Builds.shifts {function : Node} {heritage : Option Node} {items : List Part}
    (h : Builds bound [.node r cls] cls body function)
    (hforms : ∀ p ∈ items, ∃ m ∈ body.items.filter (fun m => !m.isConstructor), ∃ parts,
      p = .node .item (m.withParts parts))
    (hall : Moves bound
      (fun x => Part.tally Node.dropped x
          (((cls.part? .heritage).map (Part.node .heritage)).toList ++ []) +
        (Part.tally Node.dropped x [.node .body function] + Part.tally Node.dropped x
          ((body.items.filter fun m => !m.isConstructor).map (Part.node .item))))
      (fun x => Part.tally Node.memberValues x
          (((cls.part? .heritage).map (Part.node .heritage)).toList ++ []) +
        (Part.tally Node.memberValues x [.node .body function] +
          (Part.tally Node.memberValues x
            ((body.items.filter fun m => !m.isConstructor).map (Part.node .item)) +
          (((body.items.filter fun m => !m.isConstructor).filterMap (·.part? .value)).map
            (·.id)).count x)))
      (((cls.part? .heritage).map (Part.node .heritage)).toList ++ [] ++
        (function.parts ++ [shell cls] ++
          (body.items.filter fun m => !m.isConstructor).map (Part.node .item)))
      ((heritage.map (Part.node .heritage)).toList ++ [] ++ ([shell cls] ++ items)) s s') :
    Shifts bound [.node r cls] [.node r (cls.withParts (partsAt cls .name ++
      (heritage.map (Part.node .heritage)).toList ++ [.node .body (body.withParts items)]))] s
        s' := by
  obtain ⟨⟨hformed, htidy⟩, hparts⟩ := fit_node.1 hfit
  have hsite : cls.kind.isSite = true := by simp [Kind.isSite, hclass]
  have hbodySite : body.kind.isSite = false := by rw [hbodyKind]; rfl
  have hclsComplete : ∀ parts, (cls.withParts parts).IsComplete := fun _ =>
    Node.isComplete_of_isBare (Kind.isBare_of_isSite hsite)
  have hquiet := quiet_names hformed hparts.formed hsite
  have hmembers := fit_members hfit hbody hbodyKind
  obtain ⟨hdropped, hvalues⟩ := dropped_of_not_site hbodySite
  have htally := tally_class hfit hclass hbody hbodyKind
  have hclsSub : Part.nodes cls.parts ⊆ Part.nodes [.node r cls] := Node.nodes_parts_subset
  have hclsMem : cls ∈ Part.nodes [.node r cls] := by simp [Node.mem_preorder_self]
  refine hall.balance ?_ ?_ ?_ ?_ ?_
  . intro x hx
    have hlost := h.lost x hx
    have htimes := htally (fun n => [n]) x
    have hdrop := htally Node.dropped x
    rw [hdropped, (tally_quiet hquiet x).1] at hdrop
    simp only [← Part.times_eq_tally, ctorParts, List.map_cons, List.map_nil, List.count_nil]
      at hlost htimes hdrop
    rw [htimes, hdrop, Node.times_eq]
    simp only [shell, Node.times_eq, Part.times_append, Part.tally_append, Node.id_withParts,
      Node.parts_withParts, Part.times_nil, Part.tally_nil]
    omega
  . intro x
    have hvalue := h.values x
    rw [htally, hvalues, (tally_quiet hquiet x).2, memberValues_class hclass hbody]
    simp only [ctorParts, Part.tally_append, List.map_nil, List.count_nil,
      Part.tally_nil] at hvalue ⊢
    omega
  . intro x
    have hstanding := h.standing x
    have hshell : (cls.withParts []).standing.map (·.id) = cls.standing.map (·.id) := by
      simp only [Node.standing, Node.kind_withParts, hsite, if_true]
      rfl
    rw [htally]
    simp only [shell, ctorParts, Part.tally_append, Part.tally_node, hshell, Node.parts_withParts,
      Part.tally_nil] at hstanding ⊢
    omega
  . have hfunction : cls.kind.isFunction = false := by
      refine Bool.eq_false_iff.2 fun hfn => ?_
      rw [Kind.isClass_of_isFunction hfn] at hclass
      cases hclass
    intro n hn
    simp only [Part.nodes_append, List.mem_append, shell, Part.nodes_node, Part.nodes_nil,
      List.append_nil, Node.preorder_eq, Node.parts_withParts, List.mem_singleton] at hn
    rcases hn with hn | (hn | hn) | hn
    . exact .inl (hclsSub (Part.nodes_subset
        (List.Subset.trans (part?_toList_subset cls .heritage) (partsAt_subset _ _)) hn))
    . exact h.covers n hn
    . rw [hn]
      exact .inr ⟨⟨hfunction, hclsComplete _⟩, .inr ⟨cls, hclsMem, ⟨rfl, rfl, rfl⟩⟩⟩
    . obtain ⟨c, ⟨r, hc⟩, hnc⟩ := Part.exists_holds_of_mem_nodes hn
      obtain ⟨m, hm, heq⟩ := List.mem_map.1 hc
      injection heq with _ heq
      exact .inl (hclsSub ((hmembers m (List.mem_filter.1 hm).1).2.2 (heq ▸ hnc)))
  . have hleft : ∀ m, m ∈ Part.nodes ((heritage.map (Part.node .heritage)).toList ++ [] ++
        ([shell cls] ++ items)) ↔ m ∈ Part.nodes (heritage.map (Part.node .heritage)).toList ∨
          m = cls.withParts [] ∨ m ∈ Part.nodes items := by
      intro m
      simp only [Part.nodes_append, List.mem_append, shell, Part.nodes_node, Part.nodes_nil,
        List.append_nil, Node.preorder_eq, Node.parts_withParts, List.mem_singleton]
    have hentry := (hall.fair (cls.withParts []) ((hleft _).2 (.inr (.inl rfl)))).site hsite
    intro m hm
    rw [Part.nodes_node, Part.nodes_nil, List.append_nil, Node.preorder_eq, List.mem_cons,
      Node.parts_withParts, Part.nodes_append, Part.nodes_append, List.mem_append, List.mem_append,
      Part.nodes_node, Part.nodes_nil, List.append_nil, Node.preorder_eq, List.mem_cons,
      Node.parts_withParts] at hm
    rcases hm with rfl | (hm | hm) | rfl | hm
    . refine .inr ⟨.inr ⟨cls, hclsMem, ⟨rfl, rfl, rfl⟩⟩, fun _ => ⟨?_, hentry.2⟩,
        fun _ => hclsComplete _⟩
      exact isDetached_class hclass hforms
    . exact .inr (fair_of_mem (hquiet m hm) (hclsSub (mem_nodes_partsAt hm)))
    . exact .inl ((hleft m).2 (.inl hm))
    . exact .inr (fair_of_not_site hbodySite (.inr ⟨body, hclsSub (Part.mem_nodes_of_holds
        (Node.holds_of_part? hbody) Node.mem_preorder_self), ⟨rfl, rfl, rfl⟩⟩) fun _ =>
          Node.isComplete_of_isBare (by rw [Node.kind_withParts, hbodyKind]; rfl))
    . exact .inl ((hleft m).2 (.inr (.inr hm)))

end Class

theorem Mover.extractClass (hmove : Mover bound visit A) (hgrow : Grower visit)
    (hclosed : IsInherited A)
    (hplain : ∀ m : Node, IsPlain m → A m) {cls site : Node} (r : Role) (hfit : Fit [.node r cls])
    (hclass : cls.kind.isClass = true) (hA : ∀ m ∈ Part.nodes cls.parts, A m)
    (hfn : fn < s.functions.size) (hbound : bound ≤ s.counters.node)
    (h : Ends (extractClass visit fn place cls) s site s') :
    Shifts bound [.node r cls] [.node r site] s s' := by
  obtain ⟨⟨hformed, htidy⟩, hparts⟩ := fit_node.1 hfit
  have hsite : cls.kind.isSite = true := by simp [Kind.isSite, hclass]
  obtain ⟨body, hbody, hbodyKind⟩ := hformed.members hclass
  have hmembers := fit_members hfit hbody hbodyKind
  obtain ⟨heritage, t, function, u, outer, c, v, items, hheritage, hchooses, hsame,
    hc, htake, hitems,
    rfl⟩ := chooses_of_extractClass hbody h
  have hheritageSub : Part.nodes ((cls.part? .heritage).map (Part.node .heritage)).toList ⊆
      Part.nodes cls.parts :=
    Part.nodes_subset (List.Subset.trans (part?_toList_subset cls .heritage) (partsAt_subset _ _))
  have hmheritage := hmove.visitOption .heritage (hparts.subset hheritageSub) hfn hbound
    (fun c hc => hA c (Part.mem_nodes_of_holds (Node.holds_of_part? hc) Node.mem_preorder_self))
    hheritage
  obtain ⟨hmfresh, hbuilds, hActor⟩ := hchooses.builds hfit hclass hbody hbodyKind hplain hA
    (Nat.le_trans hbound hmheritage.node)
  have hmstart := hmheritage.trans hmfresh
  have hfn₂ := Nat.lt_of_lt_of_le hfn hmstart.size
  have hbound₂ := Nat.le_trans hbound hmstart.node
  have hmctor := hmove.takeConstructor hgrow hclosed hsame hclass hbuilds.fit
    hbuilds.kind hbuilds.name hActor hc hfn₂ hbound₂ htake
  have hdefs : ∀ m ∈ body.items.filter (fun m => !m.isConstructor), m ∈ body.items :=
    fun m hm => (List.mem_filter.1 hm).1
  have hfitDefs : Fit ((body.items.filter fun m => !m.isConstructor).map (Part.node .item)) := by
    intro d hd
    obtain ⟨c, ⟨r, hc⟩, hdc⟩ := Part.exists_holds_of_mem_nodes hd
    obtain ⟨m, hm, heq⟩ := List.mem_map.1 hc
    injection heq with _ heq
    exact hparts d ((hmembers m (hdefs m hm)).2.2 (heq ▸ hdc))
  have hADefs : ∀ m ∈ body.items.filter (fun m => !m.isConstructor), ∀ c, Part.Holds m.parts c →
      A c ∧ ∀ d, Part.Holds c.parts d → A d := by
    intro m hm c hc
    have hsub := (hmembers m (hdefs m hm)).2.2
    refine ⟨hA c (hsub (Node.preorder_subset hc Node.mem_preorder_self)), fun d hd => ?_⟩
    exact hA d (hsub (Node.preorder_subset hc (Node.preorder_subset hd Node.mem_preorder_self)))
  obtain ⟨hmitems, hforms⟩ := hmove.extractMembers hgrow hclosed hfitDefs
    (fun m hm => (hmembers m (hdefs m hm)).1) hADefs (Nat.lt_of_lt_of_le hfn₂ hmctor.size)
    (Nat.le_trans hbound₂ hmctor.node) hitems
  exact hbuilds.shifts hfit hclass hbody hbodyKind hforms
    (Moves.trans hmstart (Moves.trans hmctor hmitems))

theorem Mover.step {visit : Node → Nat → Option Place → Extract Node}
    (hmove : Mover bound (fun fn place n => visit n fn place) A)
    (hgrow : Grower (fun fn place n => visit n fn place))
    (hclosed : IsInherited A)
    (hplain : ∀ m : Node, IsPlain m → A m) :
    Mover bound (fun fn place n => Extract.step visit n fn place)
      fun n => ∀ m ∈ Part.nodes n.parts, A m := by
  intro fn place n s n' s' r hfit hfn hbound hA h
  have hheld : ∀ c, Part.Holds n.parts c → A c ∧ ∀ d, Part.Holds c.parts d → A d := by
    intro c hc
    refine ⟨hA c (Part.mem_nodes_of_holds hc Node.mem_preorder_self), fun d hd => ?_⟩
    exact hA d (Part.mem_nodes_of_holds hc (Node.preorder_subset hd Node.mem_preorder_self))
  unfold Extract.step at h
  dsimp only at h
  split at h
  . next hkind =>
    exact hmove.extract hgrow hclosed r hfit hkind (fun c hc => (hheld c hc).1) rfl hfn hbound h
  . next hfunction =>
    split at h
    . next hkind => exact hmove.extractClass hgrow hclosed hplain r hfit hkind hA hfn hbound h
    . next hclass =>
      have hsite : n.kind.isSite = false := by simp [Kind.isSite, hfunction, hclass]
      have hparts : ∀ parts left, parts.Perm n.parts → ∀ t,
          Ends (Extract.visitParts (fun fn place n => visit n fn place) fn place n parts) s left t →
          Ends (pure (n.withParts left) : Extract Node) t n' s' →
          Shifts bound [.node r n] [.node r n'] s s' := by
        intro parts left hperm t hvisits h
        obtain ⟨rfl, rfl⟩ := ends_pure.1 h
        refine .withParts hperm hsite (isComplete_withParts hperm hvisits)
          (hmove.visitParts ?_ hfn hbound ?_ hvisits)
        . exact (fit_node.1 hfit).2.subset (Part.perm_nodes hperm).subset
        . rintro c ⟨r, hc⟩
          exact (hheld c ⟨r, hperm.subset hc⟩).1
      split at h
      . obtain ⟨left, t, hvisits, h⟩ := ends_bind.1 h
        exact hparts _ left (hoisted_perm _) t hvisits h
      . obtain ⟨left, t, hvisits, h⟩ := ends_bind.1 h
        exact hparts _ left (hoisted_perm _) t hvisits h
      . next m hlabel =>
        split at h
        . next value hvalue =>
          split at h
          . next hmember =>
            obtain ⟨key, t, hkey, h⟩ := ends_bind.1 h
            obtain ⟨site, u, hextract, h⟩ := ends_bind.1 h
            obtain ⟨rfl, rfl⟩ := ends_pure.1 h
            rw [Bool.and_eq_true] at hmember
            have hroles : n.kind.roles = [.key, .value] := by
              rw [Node.kind, hlabel]
              rfl
            exact hmove.keyed hgrow hclosed r hfit hsite hroles hvalue hmember.2
              hheld rfl hfn hbound
              hkey hextract
          . obtain ⟨left, t, hvisits, h⟩ := ends_bind.1 h
            exact hparts _ left (.refl _) t hvisits h
        . obtain ⟨left, t, hvisits, h⟩ := ends_bind.1 h
          exact hparts _ left (.refl _) t hvisits h
      . obtain ⟨left, t, hvisits, h⟩ := ends_bind.1 h
        exact hparts _ left (.refl _) t hvisits h

theorem mover_unroll (depth : Nat) :
    Mover bound (fun fn place n => Node.unroll Extract.step (fun n _ _ => pure n) depth n fn place)
      (Reaches depth) := by
  induction depth with
  | zero =>
    intro fn place n s n' s' r _ _ _ hA h
    obtain ⟨hn, hs⟩ := ends_pure.1 h
    subst n' s'
    have hquiet : ∀ m ∈ Part.nodes [.node r n], m.kind.isSite = false := by
      rcases hA with hheight | hplain
      . cases n
        cases hheight
      . intro m hm
        rw [Part.nodes_node, Part.nodes_nil, List.append_nil] at hm
        simp [Kind.isSite, hplain m hm]
    have hsame : Moves bound (fun _ => 0) (fun _ => 0) [.node r n] [.node r n] s s :=
      .refl fun m hm => fair_of_mem (hquiet m hm) hm
    refine hsame.balance (fun x _ => ?_) (fun x => (tally_quiet hquiet x).2)
      (fun _ => Nat.le_refl _)
      (covers_of_subset bound (List.Subset.refl _)) fun _ => .inl
    rw [(tally_quiet hquiet x).1]
  | succ depth ih =>
    intro fn place n s n' s' r hfit hfn hbound hA h
    exact ih.step (grower_unroll depth) (fun c parts h hsub => h.withParts hsub)
      (fun m hm => .inr hm)
      r hfit hfn hbound (fun m hm => hA.below hm) h

theorem mover_visit : Mover bound (fun fn place n => Extract.visit n fn place) fun _ => True :=
  fun r hfit hfn hbound _ h => mover_unroll _ r hfit hfn hbound (.inl (Nat.le_add_right _ _)) h

end Extract
end ScriptC
