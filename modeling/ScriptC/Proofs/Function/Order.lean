import ScriptC.Proofs.Function.Lineage
import ScriptC.Proofs.Function.Split

/-!
The order of the functions of a script. Along the lists of children every function is met once,
which is the order they are numbered in; each is complete after those in it.
-/

namespace ScriptC

open Pass

/--
The functions below a list of children, first each before those in it and then each after those in
it. All of them name the function that has them as children.
-/
inductive Forest (functions : Array Function) :
    Option Nat → List Nat → List Nat → List Nat → Prop where
  | nil {p : Option Nat} : Forest functions p [] [] []
  | cons {p : Option Nat} {i : Nat} {f : Function} {rest pre post pre' post' : List Nat}
    (get : functions[i]? = some f) (parent : f.parent = p)
    (below : Forest functions (some i) f.children pre post)
    (beside : Forest functions p rest pre' post') :
    Forest functions p (i :: rest) (i :: (pre ++ pre')) (post ++ i :: post')

namespace Forest

variable {functions functions' : Array Function} {p : Option Nat}
  {roots pre post roots' pre' post' : List Nat}

theorem append (h : Forest functions p roots pre post) (h' : Forest functions p roots' pre' post') :
    Forest functions p (roots ++ roots') (pre ++ pre') (post ++ post') := by
  induction h with
  | nil => exact h'
  | cons get parent below _ _ ih =>
    have := cons get parent below (ih h')
    simpa only [List.cons_append, List.append_assoc] using this

theorem congr (h : Forest functions p roots pre post)
    (hsame : ∀ i ∈ pre, functions'[i]? = functions[i]?) : Forest functions' p roots pre post := by
  induction h with
  | nil => exact .nil
  | cons get parent _ _ ihBelow ihBeside =>
    rw [List.forall_mem_cons, List.forall_mem_append] at hsame
    exact .cons (hsame.1.trans get) parent (ihBelow hsame.2.1) (ihBeside hsame.2.2)

theorem perm (h : Forest functions p roots pre post) : post.Perm pre := by
  induction h with
  | nil => exact .refl _
  | cons _ _ _ _ ihBelow ihBeside =>
    exact List.perm_middle.trans ((ihBelow.append ihBeside).cons _)

theorem mem_pre (h : Forest functions p roots pre post) : roots ⊆ pre := by
  induction h with
  | nil => exact List.Subset.refl _
  | cons _ _ _ _ _ ih =>
    exact List.cons_subset_cons _ (List.Subset.trans ih (List.subset_append_right _ _))

theorem child_before (h : Forest functions p roots pre post) {i c : Nat} {f : Function}
    (hi : i ∈ pre) (hf : functions[i]? = some f) (hc : c ∈ f.children) :
    ∃ a b d, post = a ++ c :: b ++ i :: d := by
  induction h with
  | nil => cases hi
  | @cons p j g rest pre post pre' post' get parent below beside ihBelow ihBeside =>
    rcases List.mem_cons.1 hi with rfl | hi
    . rw [get] at hf
      cases hf
      obtain ⟨a, b, rfl⟩ := List.append_of_mem (below.perm.symm.subset (below.mem_pre hc))
      exact ⟨a, b, post', rfl⟩
    . rcases List.mem_append.1 hi with hi | hi
      . obtain ⟨a, b, d, rfl⟩ := ihBelow hi
        exact ⟨a, b, d ++ j :: post', by simp⟩
      . obtain ⟨a, b, d, rfl⟩ := ihBeside hi
        exact ⟨post ++ j :: a, b, d, by simp⟩

theorem idxOf_child_lt (h : Forest functions p roots pre post) (hnodup : post.Nodup) {i c : Nat}
    {f : Function} (hi : i ∈ pre) (hf : functions[i]? = some f) (hc : c ∈ f.children) :
    post.idxOf c < post.idxOf i := by
  obtain ⟨a, b, d, rfl⟩ := h.child_before hi hf hc
  have hlast : i ∉ a ++ c :: b := fun hmem =>
    (List.nodup_append.1 hnodup).2.2 i hmem i List.mem_cons_self rfl
  have hfirst : c ∈ a ++ c :: b := List.mem_append_right _ List.mem_cons_self
  generalize a ++ c :: b = l at hfirst hlast
  rw [List.idxOf_append, if_pos hfirst, List.idxOf_append, if_neg hlast, List.idxOf_cons_self]
  have := List.idxOf_lt_length_of_mem hfirst
  omega

theorem parent_of_mem (h : Forest functions p roots pre post) {i : Nat} (hi : i ∈ pre) :
    ∃ f, functions[i]? = some f ∧ (f.parent = p ∧ i ∈ roots ∨ ∃ q g, q ∈ pre ∧
      functions[q]? = some g ∧ f.parent = some q ∧ i ∈ g.children) := by
  induction h with
  | nil => cases hi
  | @cons p j g rest pre post pre' post' get parent below beside ihBelow ihBeside =>
    rcases List.mem_cons.1 hi with rfl | hi
    . exact ⟨g, get, .inl ⟨parent, List.mem_cons_self⟩⟩
    . rcases List.mem_append.1 hi with hi | hi
      . obtain ⟨f, hf, ⟨hp, hroot⟩ | ⟨q, o, hq, ho, hp, hchild⟩⟩ := ihBelow hi
        . exact ⟨f, hf, .inr ⟨j, g, List.mem_cons_self, get, hp, hroot⟩⟩
        . exact ⟨f, hf, .inr ⟨q, o, by simp [hq], ho, hp, hchild⟩⟩
      . obtain ⟨f, hf, ⟨hp, hroot⟩ | ⟨q, o, hq, ho, hp, hchild⟩⟩ := ihBeside hi
        . exact ⟨f, hf, .inl ⟨hp, List.mem_cons_of_mem _ hroot⟩⟩
        . exact ⟨f, hf, .inr ⟨q, o, by simp [hq], ho, hp, hchild⟩⟩

end Forest

namespace Extraction

def descend (functions : Array Function) : Nat → Nat → List Nat
  | 0, _ => []
  | depth + 1, i => i :: (functions[i]?.elim [] (·.children)).flatMap (descend functions depth)

def preorder (e : Extraction) (root : Nat) : List Nat := descend e.functions e.functions.size root

end Extraction

theorem Forest.flatMap_descend {functions : Array Function} {p : Option Nat}
    {roots pre post : List Nat} (h : Forest functions p roots pre post) {depth : Nat}
    (hdepth : pre.length ≤ depth) : roots.flatMap (Extraction.descend functions depth) = pre := by
  induction h generalizing depth with
  | nil => rfl
  | @cons p i f rest pre post pre' post' get parent below beside ihBelow ihBeside =>
    simp only [List.length_cons, List.length_append] at hdepth
    obtain ⟨depth, rfl⟩ : ∃ d, depth = d + 1 := ⟨depth - 1, by omega⟩
    rw [List.flatMap_cons, ihBeside (by omega), Extraction.descend, get, Option.elim_some,
      ihBelow (by omega), List.cons_append]

namespace Extract

structure Grows (fn : Nat) (s s' : Extraction) : Prop where
  size : s.functions.size ≤ s'.functions.size
  others : ∀ i, i < s.functions.size → i ≠ fn → s'.functions[i]? = s.functions[i]?
  forest : ∃ roots post, Forest s'.functions (some fn) roots
      (List.range' s.functions.size (s'.functions.size - s.functions.size)) post ∧
    s'.finished = s.finished ++ post ∧ ∀ f, s.functions[fn]? = some f →
      s'.functions[fn]? = some { f with children := f.children ++ roots }

def Growing (fn : Nat) (s s' : Extraction) : Prop := fn < s.functions.size → Grows fn s s'

variable {fn : Nat} {s t s' : Extraction}

theorem grows_same (hfunctions : s'.functions = s.functions)
    (hfinished : s'.finished = s.finished) :
    Grows fn s s' := by
  refine ⟨Nat.le_of_eq (by rw [hfunctions]), fun i _ _ => by rw [hfunctions], [], [], ?_, ?_, ?_⟩
  . rw [hfunctions, Nat.sub_self]
    exact .nil
  . rw [hfinished, List.append_nil]
  . intro f hf
    rw [hfunctions, List.append_nil]
    exact hf

theorem Grows.trans (hfn : fn < s.functions.size) (h : Grows fn s t) (h' : Grows fn t s') :
    Grows fn s s' := by
  have hsize := h.size
  have hsize' := h'.size
  obtain ⟨roots, post, hforest, hfinished, hself⟩ := h.forest
  obtain ⟨roots', post', hforest', hfinished', hself'⟩ := h'.forest
  refine ⟨by omega, ?_, roots ++ roots', post ++ post', ?_, ?_, ?_⟩
  . intro i hi hne
    rw [h'.others i (by omega) hne, h.others i hi hne]
  . have hrange : List.range' s.functions.size (s'.functions.size - s.functions.size) =
        List.range' s.functions.size (t.functions.size - s.functions.size) ++
          List.range' t.functions.size (s'.functions.size - t.functions.size) := by
      rw [show s'.functions.size - s.functions.size = (t.functions.size - s.functions.size) +
        (s'.functions.size - t.functions.size) by omega, ← List.range'_append_1]
      congr 2
      omega
    rw [hrange]
    refine (hforest.congr fun i hi => ?_).append hforest'
    rw [List.mem_range'_1] at hi
    exact h'.others i (by omega) (by omega)
  . rw [hfinished', hfinished, List.append_assoc]
  . intro f hf
    rw [hself' _ (hself f hf), List.append_assoc]

theorem isSteady_growing : IsSteady (Growing fn) where
  refl _ _ := grows_same rfl rfl
  trans h h' hfn := (h hfn).trans hfn (h' (Nat.lt_of_lt_of_le hfn (h hfn).size))

theorem keeps_freshNode : Keeps (Growing fn) freshNode := by
  intro s id s' h _
  obtain ⟨-, rfl⟩ := ends_freshNode h
  exact grows_same rfl rfl

def Grower (visit : Visit) : Prop := ∀ fn place n, Keeps (Growing fn) (visit fn place n)

variable {visit : Visit} {place : Option Place} {parent : Node}

theorem Grower.visitParts (hvisit : Grower visit) (parts : List Part) :
    Keeps (Growing fn) (visitParts visit fn place parent parts) := by
  induction parts with
  | nil => exact .pure isSteady_growing _
  | cons p rest ih =>
    cases p with
    | hole r => exact .bind isSteady_growing ih fun _ => .pure isSteady_growing _
    | node r c =>
      refine .bind isSteady_growing (hvisit _ _ _) fun _ => ?_
      exact .bind isSteady_growing ih fun _ => .pure isSteady_growing _

theorem Grower.visitOption (hvisit : Grower visit) (n : Option Node) :
    Keeps (Growing fn) (visitOption visit fn place n) := by
  cases n with
  | none => exact .pure isSteady_growing _
  | some n => exact .map (hvisit _ _ _)

def prologue : List Part → List Node
  | .node _ n :: rest => if isDirective n then n :: prologue rest else []
  | _ => []

def asksStrict (parts : List Part) : Bool := (prologue parts).any isUseStrict

def rawString? (n : Node) : Option String :=
  match n.label with
  | .literal (.string _) raw => some raw
  | _ => none

/--
What the directive asks of a matcher of patterns: anchored choices of plain texts match these texts
and no others.
-/
def MatchesChoices (isMatch : String → String → Bool) : Prop :=
  ∀ texts text, texts ≠ [] → (∀ t ∈ texts, ∀ c ∈ t.toList, c.isAlphanum ∨ c ∈ " '\"".toList) →
    isMatch ("^(?:" ++ "|".intercalate texts ++ ")$") text = texts.contains text

theorem asksStrict_eq_isMatch {isMatch : String → String → Bool} (h : MatchesChoices isMatch)
    (parts : List Part) :
    asksStrict parts = (prologue parts).any fun n =>
      ((n.part? .expression).bind rawString?).any
        (isMatch "^(?:'use strict'|\"use strict\")$") := by
  have hmatch : ∀ raw, isMatch "^(?:'use strict'|\"use strict\")$" raw =
      (raw == "'use strict'" || raw == "\"use strict\"") := by
    intro raw
    have hchoice := h ["'use strict'", "\"use strict\""] raw (by simp) (by simp)
    simpa [List.contains_cons, Bool.beq_eq_decide_eq] using hchoice
  unfold asksStrict
  congr
  funext n
  unfold isUseStrict
  cases n.part? .expression with
  | none => rfl
  | some x =>
    cases x with
    | mk id span label parts =>
      cases label with
      | literal value raw => cases value <;> simp [rawString?, Node.label, hmatch]
      | _ => rfl

theorem stripDirective_snd (parts : List Part) : (stripDirective parts).2 = asksStrict parts := by
  unfold asksStrict
  induction parts with
  | nil => rfl
  | cons p rest ih =>
    cases p with
    | hole r => rfl
    | node r n =>
      rw [stripDirective, prologue]
      cases hd : isDirective n with
      | false => rfl
      | true =>
        cases hu : isUseStrict n with
        | true => simp [hu]
        | false => simp [hu, ih]

end Extract

def Node.isStrictBody (n : Node) : Bool :=
  !n.functionMarks.exprBody && (n.part? .body).any fun b => Extract.asksStrict b.parts

namespace Extract

variable {fn : Nat} {s s' : Extraction} {visit : Visit}

theorem Grower.visitFunction (hvisit : Grower visit) {node node' : Node}
    (hfn : fn < s.functions.size) (h : Ends (visitFunction visit fn node) s node' s') :
    ∃ t, Grows fn t s' ∧ t.functions.size = s.functions.size ∧ t.finished = s.finished ∧
      (∀ i, i ≠ fn → t.functions[i]? = s.functions[i]?) ∧
      ∀ f, s.functions[fn]? = some f →
        t.functions[fn]? = some { f with isStrict := f.isStrict || node.isStrictBody } := by
  obtain ⟨body, params, body', hbody, -, ⟨hexpr, ret, block, t₁, t₂, t₃, hret, hblock,
    hparams, hvalue⟩ |
    ⟨hexpr, -, t, hparams, hvisits⟩⟩ := ends_visitFunction h
  . have hbody' : Keeps (Growing fn) (visitValueBody visit fn body ret block) :=
      .bind isSteady_growing (hvisit _ _ _) fun _ => .pure isSteady_growing _
    have hgrowing := isSteady_growing.trans (hvisit.visitParts _ _ _ _ hparams)
      (hbody' _ _ _ hvalue)
    refine ⟨s, isSteady_growing.trans (keeps_freshNode _ _ _ hret)
      (isSteady_growing.trans (keeps_freshNode _ _ _ hblock) hgrowing) hfn, rfl, rfl,
      fun _ _ => rfl, fun f hf => ?_⟩
    simpa [Node.isStrictBody, hexpr] using hf
  . refine ⟨_, isSteady_growing.trans (hvisit.visitParts _ _ _ _ hparams)
      (hvisit _ _ _ _ _ _ hvisits)
      (by simpa using hfn), Array.size_modify, rfl, fun i hi => ?_, fun f hf => ?_⟩
    . rw [Array.getElem?_modify, if_neg (Ne.symm hi)]
    . rw [Array.getElem?_modify, if_pos rfl, hf, stripDirective_snd]
      simp [Node.isStrictBody, hexpr, hbody]

structure Entered (parent : Option Nat) (site : Option Node) (isProgram : Bool) (node : Node)
    (c : Circumstances) (s s' : Extraction) (f : Function) : Prop where
  get : s'.functions[s.functions.size]? = some f
  outer : f.parent = parent
  place : f.site = site
  constructor : f.isConstructor = c.isConstructor
  strict : f.isStrict = (c.isStrict || (parent.any fun p => s.functions[p]?.any (·.isStrict)) ||
    node.isStrictBody)
  size : s.functions.size < s'.functions.size
  change : ∀ (i : Nat) (g : Function), s.functions[i]? = some g →
    s'.functions[i]? = some (if parent = some i then
      { g with children := g.children ++ [s.functions.size] } else g)
  forest : ∃ post, s'.finished = s.finished ++ (post ++ [s.functions.size]) ∧
    Forest s'.functions (some s.functions.size) f.children
      (List.range' (s.functions.size + 1) (s'.functions.size - (s.functions.size + 1))) post

theorem Grower.entered (hvisit : Grower visit) {parent : Option Nat} {site : Option Node}
    {isProgram : Bool} {node : Node} {c : Circumstances}
    (hparent : ∀ p, parent = some p → p < s.functions.size)
    (h : Ends (Extract.enter visit parent site isProgram node c) s () s') :
    ∃ f, Entered parent site isProgram node c s s' f := by
  obtain ⟨record, t, u, node', henters, hfunction, rfl⟩ := ends_enter hparent h
  have hsize := henters.size
  obtain ⟨t₁, hgrows, hsize₁, hfinished₁, hothers₁, hself₁⟩ :=
    hvisit.visitFunction (by omega) hfunction
  obtain ⟨roots, post, hforest, hfinished, hself⟩ := hgrows.forest
  have hgrown := hgrows.size
  have hrecord := hself _ (hself₁ _ henters.added)
  have hget : ∀ i, (u.functions.modify s.functions.size fun f => { f with node := node' })[i]? =
      if s.functions.size = i then u.functions[i]?.map fun f => { f with node := node' }
      else u.functions[i]? := fun i => Array.getElem?_modify
  refine ⟨{ record with
      isStrict := record.isStrict || node.isStrictBody
      children := record.children ++ roots
      node := node' }, ⟨(hget _).trans ?_, henters.outer, henters.place,
        henters.constructor, ?_, ?_,
    ?_, post, ?_, ?_⟩⟩
  . rw [if_pos rfl, hrecord]
    rfl
  . exact congrArg (· || node.isStrictBody) henters.strict
  . simp only [Array.size_modify]
    omega
  . intro i g hg
    obtain ⟨hi, -⟩ := Array.getElem?_eq_some_iff.1 hg
    rw [hget, if_neg (by omega), hgrows.others i (by omega) (by omega), hothers₁ i (by omega),
      henters.change i g hg]
  . dsimp only
    rw [hfinished, hfinished₁, henters.finished, List.append_assoc]
  . simp only [Array.size_modify, henters.childless, List.nil_append]
    rw [hsize₁, hsize] at hforest
    refine hforest.congr fun i hi => ?_
    rw [List.mem_range'_1] at hi
    rw [hget, if_neg (by omega)]

theorem Grower.enter (hvisit : Grower visit) {site : Option Node} {node : Node}
    {c : Circumstances} : Keeps (Growing fn) (enter visit (some fn) site false node c) := by
  intro s _ s' h hfn
  obtain ⟨f, hf⟩ := hvisit.entered (by rintro p ⟨⟩; exact hfn) h
  have hsize := hf.size
  obtain ⟨post, hfinished, hforest⟩ := hf.forest
  refine ⟨Nat.le_of_lt hsize, ?_, [s.functions.size], post ++ [s.functions.size], ?_, hfinished, ?_⟩
  . intro i hi hne
    obtain ⟨g, hg⟩ : ∃ g, s.functions[i]? = some g := ⟨_, Array.getElem?_eq_getElem hi⟩
    rw [hf.change i g hg, if_neg (by simpa using Ne.symm hne), hg]
  . have hrange : List.range' s.functions.size (s'.functions.size - s.functions.size) =
        s.functions.size :: (List.range' (s.functions.size + 1)
          (s'.functions.size - (s.functions.size + 1)) ++ []) := by
      rw [List.append_nil, ← List.range'_succ]
      congr 1
      omega
    rw [hrange]
    exact .cons hf.get hf.outer hforest .nil
  . intro g hg
    rw [hf.change fn g hg, if_pos rfl]

theorem Grower.extract (hvisit : Grower visit) {n : Node} {c : Circumstances} :
    Keeps (Growing fn) (extract visit fn n c) := by
  refine .bind isSteady_growing keeps_freshNode fun id => ?_
  refine .bind isSteady_growing (.modify fun _ _ => grows_same rfl rfl) fun _ => ?_
  exact .bind isSteady_growing hvisit.enter fun _ => .pure isSteady_growing _

theorem Grower.takeConstructor (hvisit : Grower visit) {site ctor : Node} {c : Circumstances} :
    Keeps (Growing fn) (takeConstructor visit fn site ctor c) := by
  refine .bind isSteady_growing keeps_freshNode fun id => ?_
  exact .bind isSteady_growing (.modify fun _ _ => grows_same rfl rfl) fun _ => hvisit.enter

theorem Grower.extractMembers (hvisit : Grower visit) {place : Option Place} {body : Node}
    (members : List Node) :
    Keeps (Growing fn) (extractMembers visit fn place body members) := by
  induction members with
  | nil => exact .pure isSteady_growing _
  | cons m rest ih =>
    refine .bind isSteady_growing (hvisit.visitOption _) fun key => ?_
    cases (m.part? .value).filter (·.kind.isFunction) with
    | none => exact .throw _
    | some value =>
      refine .bind isSteady_growing hvisit.extract fun site => ?_
      exact .bind isSteady_growing ih fun _ => .pure isSteady_growing _

theorem keeps_defaultConstructor (cls : Node) : Keeps (Growing fn) (defaultConstructor cls) := by
  unfold defaultConstructor
  refine .bind isSteady_growing keeps_freshNode fun _ => ?_
  refine .bind isSteady_growing keeps_freshNode fun _ => ?_
  refine .ite (fun _ => .pure isSteady_growing _) fun _ => ?_
  iterate 7 refine .bind isSteady_growing keeps_freshNode fun _ => ?_
  exact .pure isSteady_growing _

theorem keeps_splitMembers (items : List Node) (ctor : Option Node) (members : List Node) :
    Keeps (Growing fn) (splitMembers items ctor members) := by
  intro s r s' h _
  obtain ⟨rfl, -⟩ := ends_splitMembers h
  exact grows_same rfl rfl

theorem Grower.extractClass (hvisit : Grower visit) {place : Option Place} {cls : Node} :
    Keeps (Growing fn) (extractClass visit fn place cls) := by
  refine .bind isSteady_growing (hvisit.visitOption _) fun heritage => ?_
  refine .bind isSteady_growing (keeps_splitMembers _ _ _) fun split => ?_
  obtain ⟨members, ctor⟩ := split
  cases ctor with
  | some m =>
    refine .bind isSteady_growing (.pure isSteady_growing _) fun function => ?_
    refine .bind isSteady_growing hvisit.takeConstructor fun _ => ?_
    exact .bind isSteady_growing (hvisit.extractMembers _) fun _ => .pure isSteady_growing _
  | none =>
    refine .bind isSteady_growing (keeps_defaultConstructor _) fun function => ?_
    refine .bind isSteady_growing hvisit.takeConstructor fun _ => ?_
    exact .bind isSteady_growing (hvisit.extractMembers _) fun _ => .pure isSteady_growing _

theorem Grower.step {visit : Node → Nat → Option Place → Extract Node}
    (hvisit : Grower (fun fn place n => visit n fn place)) :
    Grower (fun fn place n => step visit n fn place) := by
  intro fn place n
  have hparts : ∀ parts, Keeps (Growing fn) (do
      return n.withParts (← Extract.visitParts (fun fn place n => visit n fn place) fn
        place n parts)) :=
    fun parts => .bind isSteady_growing (hvisit.visitParts _) fun _ => .pure isSteady_growing _
  refine .ite (fun _ => hvisit.extract) fun _ => .ite (fun _ => hvisit.extractClass) fun _ => ?_
  split
  . exact hparts _
  . exact hparts _
  . split
    . refine .ite (fun _ => ?_) fun _ => hparts _
      refine .bind isSteady_growing (hvisit.visitOption _) fun key => ?_
      exact .bind isSteady_growing hvisit.extract fun _ => .pure isSteady_growing _
    . exact hparts _
  . exact hparts _

theorem grower_unroll (depth : Nat) :
    Grower (fun fn place n => Node.unroll step (fun n _ _ => pure n) depth n fn place) := by
  induction depth with
  | zero => exact fun _ _ _ => .pure isSteady_growing _
  | succ depth ih => exact ih.step

theorem grower_visit : Grower (fun fn place n => Extract.visit n fn place) :=
  fun fn place n => grower_unroll _ fn place n

theorem ends_program_entered {n : Node} {counters : Counters} {e : Extraction}
    (h : Ends (program n) { counters } () e) : ∃ f, e.functions[0]? = some f ∧ f.parent = none ∧
      f.isStrict = asksStrict (partsAt n .item) ∧ f.isConstructor = false ∧ f.site = none ∧
      ∃ post, e.finished = post ++ [0] ∧ Forest e.functions (some 0) f.children
        (List.range' 1 (e.functions.size - 1)) post := by
  obtain ⟨f, hf⟩ := grower_visit.entered (by rintro p ⟨⟩) (enters_of_program h)
  obtain ⟨post, hpost, hforest⟩ := hf.forest
  refine ⟨f, hf.get, hf.outer, ?_, hf.constructor, hf.place, post, hpost, hforest⟩
  rw [hf.strict]
  simp [Node.isStrictBody, Node.part?, Part.role, Part.node?, Node.functionMarks, Node.label]

theorem forest_program {n : Node} {counters : Counters} {e : Extraction}
    (h : Ends (program n) { counters } () e) :
    Forest e.functions none [0] (List.range e.functions.size) e.finished := by
  obtain ⟨f, hf, hparent, -, -, -, post, hpost, hforest⟩ := ends_program_entered h
  have hpos := (Array.getElem?_eq_some_iff.1 hf).1
  have hrange : List.range e.functions.size = 0 ::
    (List.range' 1 (e.functions.size - 1) ++ []) := by
    obtain ⟨k, hk⟩ : ∃ k, e.functions.size = k + 1 := ⟨e.functions.size - 1, by omega⟩
    rw [hk, List.range_eq_range', List.range'_succ, List.append_nil, Nat.add_sub_cancel]
  rw [hrange, hpost]
  exact .cons hf hparent hforest .nil

end Extract
end ScriptC
