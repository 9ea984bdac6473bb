import ScriptC.Proofs.Analysis.Cache

/-!
Volatile variables. A variable of a function is marked exactly when the block of some `try` assigns
to it, the text of that block does not declare it and the function refers to it outside of the
block.
-/

namespace ScriptC.Analyze

open Pass

/-- The patterns that the left side of an assignment or the head of a loop is made of. -/
def patterns (left : Node) : List Node :=
  if left.kind = .variableDeclaration then left.items.flatMap fun d => (d.part? .name).toList
  else [left]

theorem binds_patterns_iff {left id : Node} :
    (∃ target ∈ patterns left, target.Binds id) ↔ left.Assigns id := by
  unfold patterns
  split
  . next hkind =>
    constructor
    . rintro ⟨target, ht, hid⟩
      obtain ⟨d, hd, hname⟩ := List.mem_flatMap.1 ht
      exact .declaration hkind hd (Option.mem_toList.1 hname) hid
    . rintro (hid | ⟨-, hd, hp, hid⟩)
      . have hbound := Node.mem_bound_iff.2 hid
        rcases left with ⟨num, span, label, parts⟩
        cases label <;> cases hkind
        cases hbound
      . exact ⟨_, List.mem_flatMap.2 ⟨_, hd, Option.mem_toList.2 hp⟩, hid⟩
  . next hkind =>
    constructor
    . rintro ⟨target, ht, hid⟩
      exact .pattern (List.mem_singleton.1 ht ▸ hid)
    . rintro (hid | ⟨hdeclares, -⟩)
      . exact ⟨_, List.mem_singleton_self _, hid⟩
      . exact absurd hdeclares hkind

theorem targets_of_left {n left : Node} (hkind : n.kind = .assignment ∨ n.kind = .forInStatement ∨
    n.kind = .forOfStatement) (hleft : n.part? .left = some left) : targets n = patterns left := by
  unfold targets patterns
  rcases n with ⟨num, span, label, parts⟩
  rcases left with ⟨num', span', label', parts'⟩
  cases label <;> rcases hkind with hkind | hkind | hkind <;> cases hkind
  all_goals
    simp only [Node.label, hleft]
    cases label' <;> rfl

theorem binds_targets_iff {n id : Node} : (∃ target ∈ targets n, target.Binds id) ↔
    n.Stores id := by
  constructor
  . rintro ⟨target, ht, hid⟩
    cases hlabel : n.label with
    | assignment op | forInStatement | forOfStatement =>
      have hkind : n.kind = .assignment ∨ n.kind = .forInStatement ∨ n.kind = .forOfStatement := by
        simp [Node.kind, hlabel, Label.kind]
      cases hleft : n.part? .left with
      | none => simp [targets, hlabel, hleft] at ht
      | some left =>
        rw [targets_of_left hkind hleft] at ht
        exact .left hkind hleft (binds_patterns_iff.1 ⟨target, ht, hid⟩)
    | update op before =>
      simp only [targets, hlabel] at ht
      exact .update (by simp [Node.kind, hlabel, Label.kind]) (Option.mem_toList.1 ht) hid
    | declarator =>
      simp only [targets, hlabel] at ht
      split at ht
      . next hinit =>
        exact .declarator (by simp [Node.kind, hlabel, Label.kind]) hinit
          (Option.mem_toList.1 ht) hid
      . cases ht
    | _ => simp [targets, hlabel] at ht
  . rintro (⟨hkind, hleft, hid⟩ | ⟨hkind, ht, hid⟩ | ⟨hkind, hinit, ht, hid⟩)
    . rw [targets_of_left hkind hleft]
      exact binds_patterns_iff.2 hid
    . rcases n with ⟨num, span, label, parts⟩
      cases label <;> cases hkind
      exact ⟨_, Option.mem_toList.2 ht, hid⟩
    . rcases n with ⟨num, span, label, parts⟩
      cases label <;> cases hkind
      refine ⟨_, ?_, hid⟩
      unfold targets
      simp only [Node.label, hinit, if_true]
      exact Option.mem_toList.2 ht

theorem exists_stored_iff {n : Node} {P : Node → Prop} :
    (∃ target ∈ targets n, ∃ id ∈ target.bound, P id) ↔ ∃ id, n.Stores id ∧ P id := by
  simp only [Node.mem_bound_iff, ← binds_targets_iff]
  constructor
  . rintro ⟨target, ht, id, hid, hP⟩
    exact ⟨id, ⟨target, ht, hid⟩, hP⟩
  . rintro ⟨id, ⟨target, ht, hid⟩, hP⟩
    exact ⟨target, ht, id, hid, hP⟩

def Assigns (b : Bindings) (fn : Nat) (block n : Node) (d : Nat) : Prop :=
  (∃ id, n.Stores id ∧ b.resolved? id = some d) ∧ (b.decl d).span.within block.span = false ∨
    n.kind = .call ∧ ((n.part? .callee).any fun c => c.kind == .super) = true ∧
      (b.function (b.thisOwner fn)).this = some d

instance (b : Bindings) (fn : Nat) (block n : Node) (d : Nat) :
    Decidable (Assigns b fn block n d) :=
  decidable_of_iff _ (or_congr (and_congr exists_stored_iff .rfl) .rfl)

def outside (f : Function) (block : Node) : List (Option Place × Node) :=
  f.node.parts.flatMap fun p =>
    match p with
    | .node .param n | .node .body n => n.walkWhere (fun n => !n.span.within block.span) none
    | _ => []

structure Crosses (b : Bindings) (fn : Nat) (block : Node) (d : Nat) : Prop where
  owner : (b.decl d).owner = fn
  notCaptured : (b.decl d).isCaptured = false
  assigned : ∃ n ∈ block.preorder, Assigns b fn block n d
  used : ∃ p ∈ outside (b.function fn) block, p.2.span.within block.span = false ∧
    referenced? b p.2 = some d

structure MarksOnly (b b' : Bindings) : Prop where
  uses : b'.uses = b.uses
  lineage : b'.lineage = b.lineage
  node : ∀ f, (b'.function f).node = (b.function f).node
  this : ∀ f, (b'.function f).this = (b.function f).this
  decl : ∀ d, b'.decl d = { b.decl d with isVolatile := (b'.decl d).isVolatile }
  declared : ∀ d, (b'.decls.get? d).isSome = (b.decls.get? d).isSome

theorem MarksOnly.refl (b : Bindings) : MarksOnly b b :=
  ⟨rfl, rfl, fun _ => rfl, fun _ => rfl, fun _ => rfl, fun _ => rfl⟩

theorem MarksOnly.trans {b c d : Bindings} (h : MarksOnly b c) (h' : MarksOnly c d) :
    MarksOnly b d where
  uses := h'.uses.trans h.uses
  lineage := h'.lineage.trans h.lineage
  node f := (h'.node f).trans (h.node f)
  this f := (h'.this f).trans (h.this f)
  decl i := by
    rw [h'.decl i, h.decl i]
  declared i := (h'.declared i).trans (h.declared i)

theorem MarksOnly.crosses {b b' : Bindings} (h : MarksOnly b b') {fn : Nat} {block : Node}
    {d : Nat} : Crosses b' fn block d ↔ Crosses b fn block d := by
  have hresolved : ∀ n, b'.resolved? n = b.resolved? n := by
    intro n
    unfold Bindings.resolved? Bindings.use?
    rw [h.uses]
  have houtside : outside (b'.function fn) block = outside (b.function fn) block := by
    unfold outside
    rw [h.node]
  have howner : b'.thisOwner fn = b.thisOwner fn := by
    unfold Bindings.thisOwner
    rw [h.lineage]
  have hassigns : ∀ n, Assigns b' fn block n d ↔ Assigns b fn block n d := by
    intro n
    unfold Assigns
    rw [h.decl d, howner, h.this]
    simp only [hresolved]
  have hreferenced : ∀ n, referenced? b' n = referenced? b n := by
    intro n
    unfold referenced?
    simp only [hresolved]
  constructor
  . rintro ⟨hown, hcap, hasg, hused⟩
    rw [h.decl d] at hown hcap
    simp only [hassigns, hreferenced, houtside] at hasg hused
    exact ⟨hown, hcap, hasg, hused⟩
  . rintro ⟨hown, hcap, hasg, hused⟩
    simp only [← hassigns, ← hreferenced, ← houtside] at hasg hused
    refine ⟨?_, ?_, hasg, hused⟩
    . rw [h.decl d]
      exact hown
    . rw [h.decl d]
      exact hcap

def IsMarked (b : Bindings) (d : Nat) : Prop := (b.decl d).isVolatile = true

theorem decl_mark (b : Bindings) (d i : Nat) :
    ({ b with
      decls := b.decls.modify d fun d => { d with isVolatile := true } } : Bindings).decl i =
      if i = d ∧ (b.decls.get? d).isSome = true then { b.decl i with isVolatile := true }
      else b.decl i := by
  unfold Bindings.decl
  simp only [Table.getD_eq_get?, Table.get?_modify]
  by_cases hi : i = d
  . subst hi
    cases b.decls.get? i <;> simp
  . rw [if_neg (Ne.symm hi), if_neg (fun h => hi h.1)]

structure Marks (S : Nat → Prop) (a a' : Analysis) : Prop where
  only : MarksOnly a.bindings a'.bindings
  marked : ∀ i, IsMarked a'.bindings i ↔
    IsMarked a.bindings i ∨ (a.bindings.decls.get? i).isSome = true ∧ S i

namespace Marks

variable {S T : Nat → Prop} {a a' a'' : Analysis}

theorem none (a : Analysis) (hS : ∀ i, ¬S i) : Marks S a a :=
  ⟨.refl _, fun i => ⟨.inl, fun h => h.resolve_right fun h => hS i h.2⟩⟩

theorem trans (h : Marks S a a') (h' : Marks T a' a'') : Marks (fun i => S i ∨ T i) a a'' := by
  refine ⟨h.only.trans h'.only, fun i => ?_⟩
  rw [h'.marked, h.marked, h.only.declared, or_assoc, ← and_or_left]

theorem congr (h : Marks S a a') (hT : ∀ i, ¬IsMarked a.bindings i → (S i ↔ T i)) :
    Marks T a a' := by
  refine ⟨h.only, fun i => ?_⟩
  rw [h.marked]
  by_cases hi : IsMarked a.bindings i
  . simp only [hi, true_or]
  . rw [hT i hi]

theorem forIn {γ : Type} {b : Bindings} {S : γ → Nat → Prop} {xs : List γ} {u : PUnit}
    {f : γ → PUnit → Analyze (ForInStep PUnit)}
    (hf : ∀ x ∈ xs, ∀ a s a', MarksOnly b a.bindings → Ends (f x ⟨⟩) a s a' →
      s = .yield ⟨⟩ ∧ Marks (S x) a a')
    (ha : MarksOnly b a.bindings) (h : Ends (forIn xs ⟨⟩ f) a u a') :
    Marks (fun i => ∃ x ∈ xs, S x i) a a' := by
  induction xs generalizing a with
  | nil =>
    obtain ⟨-, rfl⟩ := ends_pure.1 h
    exact .none _ (by simp)
  | cons x rest ih =>
    rw [List.forIn_cons] at h
    obtain ⟨s, t, hx, hrest⟩ := ends_bind.1 h
    obtain ⟨rfl, hmarks⟩ := hf x List.mem_cons_self a s t ha hx
    have hlater := ih (fun y hy => hf y (List.mem_cons_of_mem _ hy)) (ha.trans hmarks.only) hrest
    refine (hmarks.trans hlater).congr fun i _ => ?_
    simp only [List.mem_cons, exists_eq_or_imp]

end Marks

theorem marks_markVolatile {d : Nat} {a a' : Analysis} (h : Ends (markVolatile d) a () a') :
    Marks (· = d) a a' := by
  unfold markVolatile at h
  rw [ends_get_bind] at h
  dsimp only at h
  split at h
  . next hmarked =>
    obtain ⟨-, rfl⟩ := ends_pure.1 h
    refine ⟨.refl _, fun i => ⟨.inl, ?_⟩⟩
    rintro (hi | ⟨-, rfl⟩)
    . exact hi
    . exact hmarked
  . rw [ends_modify_bind] at h
    rw [ends_modify.1 h]
    refine ⟨⟨rfl, rfl, fun _ => rfl, fun _ => rfl, ?_, ?_⟩, ?_⟩
    . intro i
      dsimp only
      rw [decl_mark]
      split <;> rfl
    . intro i
      dsimp only
      rw [Table.get?_modify]
      split <;> simp
    . intro i
      unfold IsMarked
      dsimp only
      rw [decl_mark]
      split
      . next hi => exact ⟨fun _ => .inr ⟨hi.1 ▸ hi.2, hi.1⟩, fun _ => rfl⟩
      . next hi => exact ⟨.inl, fun h => h.resolve_right fun h => hi ⟨h.2, h.2 ▸ h.1⟩⟩

theorem mem_candidates {b : Bindings} {fn : Nat} {block n : Node} {d : Nat}
    (hd : ¬IsMarked b d) :
    d ∈ ((targets n).flatMap fun t => t.bound.filterMap b.resolved?).filter
        (isCandidate b fn block) ↔
      (b.decl d).owner = fn ∧ (b.decl d).isCaptured = false ∧
        (∃ id, n.Stores id ∧ b.resolved? id = some d) ∧
        (b.decl d).span.within block.span = false := by
  have hmark : (b.decl d).isVolatile = false := by simpa [IsMarked] using hd
  simp only [List.mem_filter, List.mem_flatMap, List.mem_filterMap, isCandidate, hmark,
    Bool.not_false, Bool.and_true, Bool.and_eq_true, beq_iff_eq, Bool.not_eq_true',
    exists_stored_iff]
  constructor
  . rintro ⟨hassigned, ⟨howner, hcap⟩, hspan⟩
    exact ⟨howner, hcap, hassigned, hspan⟩
  . rintro ⟨howner, hcap, hassigned, hspan⟩
    exact ⟨hassigned, ⟨howner, hcap⟩, hspan⟩

theorem mem_assignedInside {b : Bindings} {fn : Nat} {block : Node} {d : Nat}
    (hd : ¬IsMarked b d) :
    d ∈ assignedInside b fn block ↔
      (b.decl d).owner = fn ∧ (b.decl d).isCaptured = false ∧
        ∃ n ∈ block.preorder, Assigns b fn block n d := by
  unfold assignedInside
  rw [List.mem_flatMap]
  constructor
  . rintro ⟨n, hn, hmem⟩
    rcases List.mem_append.1 hmem with hmem | hmem
    . obtain ⟨howner, hcap, hassigned, hspan⟩ := (mem_candidates hd).1 hmem
      exact ⟨howner, hcap, n, hn, .inl ⟨hassigned, hspan⟩⟩
    . split at hmem
      . next hlabel =>
        split at hmem
        . next hsuper =>
          simp only [List.mem_filter, Option.mem_toList, Bool.and_eq_true,
            beq_iff_eq, Bool.not_eq_true'] at hmem
          obtain ⟨hthis, howner, hcap⟩ := hmem
          exact ⟨howner, hcap, n, hn, .inr ⟨congrArg Label.kind hlabel, hsuper, hthis⟩⟩
        . cases hmem
      . cases hmem
  . rintro ⟨howner, hcap, n, hn, hassigns⟩
    refine ⟨n, hn, List.mem_append.2 ?_⟩
    rcases hassigns with ⟨hassigned, hspan⟩ | ⟨hkind, hsuper, hthis⟩
    . left
      exact (mem_candidates hd).2 ⟨howner, hcap, hassigned, hspan⟩
    . right
      cases n with
      | mk id span label parts =>
        cases label with
        | call optional =>
          dsimp only [Node.label]
          rw [if_pos hsuper, hthis]
          simp [howner, hcap]
        | _ => cases hkind

theorem marks_markAround {b : Bindings} {fn : Nat} {block : Node} {a a' : Analysis}
    (ha : MarksOnly b a.bindings) (h : Ends (markAround fn block) a () a') :
    Marks (Crosses b fn block) a a' := by
  have hcrosses : ∀ i, ¬IsMarked a.bindings i → (Crosses b fn block i ↔
      i ∈ assignedInside a.bindings fn block ∧
        ∃ p ∈ outside (a.bindings.function fn) block, p.2.span.within block.span = false ∧
          referenced? a.bindings p.2 = some i) := by
    intro i hi
    rw [← ha.crosses, mem_assignedInside hi]
    constructor
    . intro hc
      exact ⟨⟨hc.owner, hc.notCaptured, hc.assigned⟩, hc.used⟩
    . rintro ⟨⟨howner, hcap, hassigned⟩, hused⟩
      exact ⟨howner, hcap, hassigned, hused⟩
  unfold markAround at h
  rw [ends_function_bind, ends_get_bind] at h
  dsimp only at h
  split at h
  . next hempty =>
    obtain ⟨-, rfl⟩ := ends_pure.1 h
    refine (Marks.none (S := fun _ => False) _ fun _ => id).congr fun i hi => ?_
    rw [hcrosses i hi, List.isEmpty_iff.1 hempty]
    simp
  . obtain ⟨_, t, hloop, hend⟩ := ends_bind.1 h
    obtain ⟨-, rfl⟩ := ends_pure.1 hend
    have hmarks := Marks.forIn (b := a.bindings)
      (S := fun (p : Option Place × Node) i => p.2.span.within block.span = false ∧
        referenced? a.bindings p.2 = some i ∧ i ∈ assignedInside a.bindings fn block)
      ?_ (.refl _) hloop
    . refine hmarks.congr fun i hi => ?_
      rw [hcrosses i hi]
      constructor
      . rintro ⟨p, hp, hspan, href, hmem⟩
        exact ⟨hmem, p, hp, hspan, href⟩
      . rintro ⟨hmem, p, hp, hspan, href⟩
        exact ⟨p, hp, hspan, href, hmem⟩
    . rintro ⟨place, n⟩ - c step c' - hc
      dsimp only at hc ⊢
      split at hc
      . next hspan =>
        split at hc
        . next d href =>
          split at hc
          . next hmem =>
            obtain ⟨_, v, hmark, hc⟩ := ends_bind.1 hc
            obtain ⟨rfl, rfl⟩ := ends_pure.1 hc
            refine ⟨rfl, (marks_markVolatile hmark).congr fun i _ => ?_⟩
            have hspan' : n.span.within block.span = false := by simpa using hspan
            rw [href]
            constructor
            . rintro rfl
              exact ⟨hspan', rfl, by simpa using hmem⟩
            . rintro ⟨-, hi, -⟩
              exact (Option.some.inj hi).symm
          . next hmem =>
            obtain ⟨rfl, rfl⟩ := ends_pure.1 hc
            refine ⟨rfl, .none _ ?_⟩
            rintro i ⟨-, hi, hmem'⟩
            rw [href] at hi
            cases hi
            exact hmem (by simpa using hmem')
        . next href =>
          obtain ⟨rfl, rfl⟩ := ends_pure.1 hc
          refine ⟨rfl, .none _ ?_⟩
          rintro i ⟨-, hi, -⟩
          exact href i hi
      . next hspan =>
        obtain ⟨rfl, rfl⟩ := ends_pure.1 hc
        refine ⟨rfl, .none _ ?_⟩
        rintro i ⟨hi, -, -⟩
        rw [hi] at hspan
        exact hspan rfl

theorem proj_function_modify {α : Type} (proj : Function → α) {change : Function → Function}
    (hproj : ∀ f, proj (change f) = proj f) (b : Bindings) (fn j : Nat) :
    proj (({ b with functions := b.functions.modify fn change } : Bindings).function j) =
      proj (b.function j) := by
  unfold Bindings.function
  rw [Array.getD_eq_getD_getElem?, Array.getD_eq_getD_getElem?, Array.getElem?_modify]
  split
  . cases b.functions[j]? with
    | none => rfl
    | some f => exact hproj f
  . rfl

theorem marks_noteTry {fn : Nat} {a a' : Analysis}
    (h : Ends (modifyFunction fn fun f => { f with hasTry := true }) a () a') :
    Marks (fun _ => False) a a' := by
  rw [ends_modify.1 h]
  refine ⟨⟨rfl, ?_, ?_, ?_, fun _ => rfl, fun _ => rfl⟩, fun i => ⟨.inl, fun h => ?_⟩⟩
  . unfold Bindings.lineage
    apply Array.ext_getElem?
    intro i
    rw [Array.getElem?_map, Array.getElem?_map, Array.getElem?_modify]
    split
    . cases a.bindings.functions[i]? <;> rfl
    . rfl
  . intro j
    apply proj_function_modify (·.node)
    exact fun _ => rfl
  . intro j
    apply proj_function_modify (·.this)
    exact fun _ => rfl
  . exact h.resolve_right fun h => h.2

theorem isVolatile_findVolatiles_iff {fn : Nat} {a a' : Analysis}
    (h : Ends (findVolatiles fn) a () a') (d : Nat) :
    (a'.bindings.decl d).isVolatile = true ↔ (a.bindings.decl d).isVolatile = true ∨
      (a.bindings.decls.get? d).isSome = true ∧
        ∃ t ∈ (a.bindings.function fn).body.preorder, t.kind = .tryStatement ∧
          ∃ block, t.part? .block = some block ∧ Crosses a.bindings fn block d := by
  have hmarks : Marks (fun i => ∃ t ∈ (a.bindings.function fn).body.preorder.filter
      (fun n => n.kind == .tryStatement), ∃ block, t.part? .block = some block ∧
        Crosses a.bindings fn block i) a a' := by
    unfold findVolatiles at h
    rw [ends_function_bind] at h
    dsimp only at h
    split at h
    . next hempty =>
      obtain ⟨-, rfl⟩ := ends_pure.1 h
      rw [List.isEmpty_iff.1 hempty]
      exact .none _ (by simp)
    . obtain ⟨_, c, hnote, h⟩ := ends_bind.1 h
      obtain ⟨_, v, hloop, hend⟩ := ends_bind.1 h
      obtain ⟨-, rfl⟩ := ends_pure.1 hend
      have hfirst := marks_noteTry hnote
      have hrest := Marks.forIn (b := a.bindings)
        (S := fun (t : Node) i => ∃ block, t.part? .block = some block ∧
          Crosses a.bindings fn block i) ?_ hfirst.only hloop
      . exact (hfirst.trans hrest).congr fun i _ => by simp
      . intro t _ e step e' he ht
        obtain ⟨_, w, hblock, ht⟩ := ends_bind.1 ht
        obtain ⟨rfl, rfl⟩ := ends_pure.1 ht
        refine ⟨rfl, ?_⟩
        cases hpart : t.part? .block with
        | none =>
          rw [hpart] at hblock
          obtain ⟨-, rfl⟩ := ends_pure.1 hblock
          exact .none _ (by simp)
        | some block =>
          rw [hpart] at hblock
          exact (marks_markAround he hblock).congr fun i _ => by simp
  have hmarked := hmarks.marked d
  simp only [IsMarked, List.mem_filter, beq_iff_eq, and_assoc] at hmarked
  exact hmarked

def protectedParts (t : Node) : List Node :=
  (t.part? .block).toList ++ if (t.part? .finalizer).isSome then (t.part? .handler).toList else []

def Stores (b : Bindings) (fn : Nat) (n : Node) (d : Nat) : Prop :=
  (∃ id, n.Stores id ∧ b.resolved? id = some d) ∨
    (n.kind = .call ∧ ((n.part? .callee).any fun c => c.kind == .super) = true ∧
      (b.function (b.thisOwner fn)).this = some d) ∨
    (b.aliases.get? n.id).bind b.resolved? = some d

instance (b : Bindings) (fn : Nat) (n : Node) (d : Nat) : Decidable (Stores b fn n d) :=
  decidable_of_iff _ (or_congr exists_stored_iff .rfl)

structure AtRisk (b : Bindings) (fn : Nat) (t : Node) (d : Nat) : Prop where
  owner : (b.decl d).owner = fn
  notCaptured : (b.decl d).isCaptured = false
  declared : (b.scopes.getD (b.decl d).scope default).isFunction = true ∨
    ∀ r ∈ protectedParts t, (b.decl d).span.within r.span = false
  stored : ∃ r ∈ protectedParts t, ∃ n ∈ r.preorder, Stores b fn n d
  used : ∃ n ∈ (b.function fn).node.preorder,
    (∀ r ∈ protectedParts t, n.span.within r.span = false) ∧ referenced? b n = some d

/--
A variable at risk is volatile exactly when it was before or crosses the block of a `try`: what only
a handler stores is missed, as are variables whose name stands in the block itself.
-/
theorem atRisk_isVolatile_iff {fn : Nat} {a a' : Analysis} (h : Ends (findVolatiles fn) a () a')
    (t : Node) (d : Nat) :
    (AtRisk a.bindings fn t d → (a'.bindings.decl d).isVolatile = true) ↔
      (AtRisk a.bindings fn t d → (a.bindings.decl d).isVolatile = true ∨
        (a.bindings.decls.get? d).isSome = true ∧
          ∃ s ∈ (a.bindings.function fn).body.preorder, s.kind = .tryStatement ∧
            ∃ block, s.part? .block = some block ∧ Crosses a.bindings fn block d) := by
  rw [isVolatile_findVolatiles_iff h]

def riskBlock (id : Nat) (span : Span) (n : Node) : Node :=
  .mk id span .block [.node .item (.mk (id + 1) span .expressionStatement [.node .expression n])]

def riskTry (inBlock inHandler inFinalizer : Node) : Node :=
  .mk 3 ⟨20, 50⟩ .tryStatement
    [.node .block (riskBlock 10 ⟨20, 30⟩ inBlock),
      .node .handler (.mk 20 ⟨30, 40⟩ .catchClause [.node .body (riskBlock 21 ⟨30, 40⟩ inHandler)]),
      .node .finalizer (riskBlock 30 ⟨40, 50⟩ inFinalizer)]

def riskProgram (statement : Node) : Bindings where
  counters := ⟨50, 0⟩
  sites := {}
  functions :=
    let body : Node := .mk 1 ⟨10, 60⟩ .block [.node .item statement]
    #[{ node := .mk 0 ⟨0, 60⟩ (.functionExpression {}) [.node .body body] }]
  scopes := #[{ isFunction := true }]
  decls := Std.TreeMap.empty.insert 2 { name := "x", kind := .var, owner := 0, span := ⟨11, 12⟩ }
  uses := (Std.TreeMap.empty.insert 40 (.direct 2)).insert 41 (.direct 2)

def riskVariable (id : Nat) (start : Int) : Node := .mk id ⟨start, start + 1⟩ (.identifier "x") []

def riskAssignment (start : Int) : Node :=
  .mk 42 ⟨start, start + 5⟩ (.assignment "=")
    [.node .left (riskVariable 40 start),
      .node .right (.mk 43 ⟨start + 4, start + 5⟩ (.literal .null "") [])]

/-- A variable assigned in the block and used in the finalizer is at risk, and volatile. -/
theorem atRisk_isVolatile_block :
    let guarded := riskTry (riskAssignment 21) (.mk 44 ⟨31, 32⟩ .this []) (riskVariable 41 41)
    ∃ a', Ends (findVolatiles 0) { bindings := riskProgram guarded } () a' ∧
      AtRisk (riskProgram guarded) 0 guarded 2 ∧ (a'.bindings.decl 2).isVolatile = true := by
  intro guarded
  have hrisk : AtRisk (riskProgram guarded) 0 guarded 2 :=
    ⟨by decide +kernel, by decide +kernel, by decide +kernel, by decide +kernel, by decide +kernel⟩
  have hcross : Crosses (riskProgram guarded) 0 (riskBlock 10 ⟨20, 30⟩ (riskAssignment 21)) 2 :=
    ⟨by decide +kernel, by decide +kernel, by decide +kernel, by decide +kernel⟩
  have hok : (((findVolatiles 0).run { bindings := riskProgram guarded }).toOption).isSome := by
    decide +kernel
  cases hrun : (findVolatiles 0).run { bindings := riskProgram guarded } with
  | error f =>
    rw [hrun] at hok
    cases hok
  | ok r =>
    have hends : Ends (findVolatiles 0) { bindings := riskProgram guarded } () r.2 := hrun
    refine ⟨r.2, hends, hrisk, (atRisk_isVolatile_iff hends guarded 2).2 (fun _ => .inr ?_) hrisk⟩
    exact ⟨by decide +kernel, guarded, List.mem_cons_of_mem _ List.mem_cons_self, rfl,
      _, rfl, hcross⟩

/-- A variable assigned in the handler and used in the finalizer is at risk, but not volatile. -/
theorem handler_assignment_not_volatile :
    let guarded := riskTry (.mk 44 ⟨21, 22⟩ .this []) (riskAssignment 31) (riskVariable 41 41)
    AtRisk (riskProgram guarded) 0 guarded 2 ∧
      (((findVolatiles 0).run { bindings := riskProgram guarded }).toOption.map fun r =>
        (r.2.bindings.decl 2).isVolatile) = some false :=
  ⟨⟨by decide +kernel, by decide +kernel, by decide +kernel, by decide +kernel, by decide +kernel⟩,
    by decide +kernel⟩

end ScriptC.Analyze
