import ScriptC.Proofs.Analysis.Passes
import ScriptC.Proofs.Literals

/-!
The shapes of object literals. As long as keys tell the lists of names of a script apart, the shape
of a literal has the names of its first properties in order, so the values that a new object is
given stand in the slots of their names.
-/

namespace ScriptC

open Pass

namespace Analyze

theorem length_literalNames (items : List Node) (seen : List String) :
    seen <+: literalNames items seen := by
  induction items generalizing seen with
  | nil => exact List.prefix_rfl
  | cons p rest ih =>
    unfold literalNames
    split
    . exact List.prefix_rfl
    . split
      . exact List.prefix_rfl
      . exact (List.prefix_append _ _).trans (ih _)

theorem getElem?_literalNames {items : List Node} {seen : List String} {i : Nat} {name : String}
    (h : (literalNames items seen)[seen.length + i]? = some name) :
    ∃ p, items[i]? = some p ∧ shapeName? p = some name := by
  induction items generalizing seen i with
  | nil => simp [literalNames] at h
  | cons p rest ih =>
    unfold literalNames at h
    split at h
    . simp at h
    . next first hfirst =>
      split at h
      . simp at h
      . cases i with
        | zero =>
          refine ⟨p, rfl, ?_⟩
          have hlt : seen.length < (seen ++ [first]).length := by simp
          obtain ⟨more, hmore⟩ := length_literalNames rest (seen ++ [first])
          rw [Nat.add_zero, ← hmore, List.getElem?_append_left hlt] at h
          simpa [hfirst] using h
        | succ i =>
          apply @ih (seen ++ [first])
          rw [List.length_append, List.length_singleton, Nat.add_assoc, Nat.add_comm 1]
          exact h

theorem nodup_literalNames {items : List Node} {seen : List String} (hseen : seen.Nodup) :
    (literalNames items seen).Nodup := by
  induction items generalizing seen with
  | nil => exact hseen
  | cons p rest ih =>
    unfold literalNames
    split
    . exact hseen
    . split
      . exact hseen
      . next hnew =>
        apply ih
        rw [List.nodup_append]
        simp only [List.contains_eq_mem, decide_eq_true_eq] at hnew
        refine ⟨hseen, by simp, ?_⟩
        intro x hx y hy
        rw [List.mem_singleton.1 hy]
        rintro rfl
        exact hnew hx

end Analyze

def Bindings.nodes (b : Bindings) : List Node :=
  b.functions.toList.flatMap fun f => (f.walkBody ++ f.walkParams).map (·.2)

def Bindings.shapeLists (b : Bindings) : List (List String) :=
  b.nodes.map (fun n => Analyze.literalNames n.items []) ++
    b.functions.toList.map Analyze.constructorNames

theorem Bindings.function_mem {b : Bindings} {fn : Nat} (h : fn < b.functions.size) :
    b.function fn ∈ b.functions.toList := by
  unfold function
  rw [Array.getD_eq_getD_getElem?, Array.getElem?_eq_getElem h]
  exact Array.getElem_mem_toList h

theorem Bindings.mem_nodes {b : Bindings} {fn : Nat} (h : fn < b.functions.size)
    {place : Option Place} {n : Node}
    (hn : (place, n) ∈ (b.function fn).walkBody ++ (b.function fn).walkParams) : n ∈ b.nodes :=
  List.mem_flatMap.2 ⟨_, function_mem h, List.mem_map.2 ⟨_, hn, rfl⟩⟩

namespace Analysis

structure IsAligned (b : Bindings) (a : Analysis) : Prop where
  keyed : a.literals.IsKeyed
  known : a.literals.Holds (· ∈ b.shapeLists)
  shapes : ∀ id s, a.shapes.get? id = some s →
    ∃ n ∈ b.nodes, n.kind = .object ∧ n.id = id ∧ s.props = Analyze.literalNames n.items []

def Leaves (fn : Nat) (a a' : Analysis) : Prop :=
  ∀ j, j ≠ fn → a'.bindings.function j = a.bindings.function j

theorem isSteady_leaves (fn : Nat) : IsSteady (Leaves fn) where
  refl _ _ _ := rfl
  trans h h' j hj := (h' j hj).trans (h j hj)

structure Spares (fn : Nat) (a a' : Analysis) : Prop where
  shapes : a'.shapes = a.shapes
  interned : a'.literals.shapes = a.literals.shapes
  literals : a.literals.Serves a'.literals
  functions : a.Leaves fn a'

theorem isSteady_spares (fn : Nat) : IsSteady (Spares fn) where
  refl _ := ⟨rfl, rfl, .refl _, (isSteady_leaves fn).refl _⟩
  trans h h' := ⟨h'.shapes.trans h.shapes, h'.interned.trans h.interned,
    h.literals.trans h'.literals, (isSteady_leaves fn).trans h.functions h'.functions⟩

theorem IsAligned.spared {b : Bindings} {fn : Nat} {a a' : Analysis} (ha : a.IsAligned b)
    (h : a.Spares fn a') : a'.IsAligned b where
  keyed := h.literals.keyed ha.keyed
  known := by
    intro key s hs
    rw [h.interned] at hs
    exact ha.known key s hs
  shapes := by
    intro id s hs
    rw [h.shapes] at hs
    exact ha.shapes id s hs

end Analysis

namespace Analyze

open Analysis

theorem function_modify {b : Bindings} {fn j : Nat} {change : Function → Function} (h : j ≠ fn) :
    ({ b with functions := b.functions.modify fn change } : Bindings).function j =
      b.function j := by
  unfold Bindings.function
  rw [Array.getD_eq_getD_getElem?, Array.getD_eq_getD_getElem?, Array.getElem?_modify]
  simp [Ne.symm h]

theorem spares_modifyFunction (fn : Nat) (change : Function → Function) :
    Keeps (Spares fn) (modifyFunction fn change) := by
  apply Keeps.modify
  intro a
  exact ⟨rfl, rfl, .refl _, fun j hj => function_modify hj⟩

theorem spares_modifyStats (fn : Nat) (change : Stats → Stats) :
    Keeps (Spares fn) (modifyStats change) := by
  apply Keeps.modify
  intro a
  exact ⟨rfl, rfl, .refl _, fun _ _ => rfl⟩

theorem spares_string (fn : Nat) (value : String) (isKey : Bool) :
    Keeps (Spares fn) (string value isKey) := by
  apply Keeps.get_bind
  intro a name a' h
  cases h
  exact ⟨rfl, Literals.shapes_string .., Literals.serves_string .., fun _ _ => rfl⟩

theorem spares_bigint (fn : Nat) (digits : String) : Keeps (Spares fn) (bigint digits) := by
  apply Keeps.get_bind
  intro a name a' h
  cases h
  exact ⟨rfl, Literals.shapes_assign .., Literals.serves_bigint .., fun _ _ => rfl⟩

theorem spares_modifySame {fn : Nat} {change : Analysis → Analysis}
    (h : ∀ a, (change a).shapes = a.shapes ∧ (change a).literals = a.literals ∧
      (change a).bindings.functions = a.bindings.functions) :
    Keeps (Spares fn) (modify change : Analyze PUnit) := by
  apply Keeps.modify
  intro a
  obtain ⟨hshapes, hliterals, hfunctions⟩ := h a
  refine ⟨hshapes, by rw [hliterals], by rw [hliterals]; exact .refl _, ?_⟩
  intro j _
  unfold Bindings.function
  rw [hfunctions]

theorem spares_function (fn j : Nat) : Keeps (Spares fn) (function j) :=
  .bind (isSteady_spares fn) (.get (isSteady_spares fn)) fun _ => .pure (isSteady_spares fn) _

theorem spares_assignSlots (fn : Nat) : Keeps (Spares fn) (assignSlots fn) := by
  have hR := isSteady_spares fn
  unfold assignSlots
  apply Keeps.bind hR (.get hR)
  intro a
  apply Keeps.bind hR (.lift hR _)
  rintro ⟨-, s⟩
  apply Keeps.bind hR
  . exact spares_modifySame fun _ => ⟨rfl, rfl, rfl⟩
  . intro _
    exact spares_modifyFunction fn _

theorem spares_collectAt (fn : Nat) (place : Option Place) (n : Node) :
    Keeps (Spares fn) (collectAt place n) := by
  have hR := isSteady_spares fn
  have hadd : ∀ isKey value, Keeps (Spares fn) (do let _ ← string value isKey : Analyze Unit) :=
    fun isKey value => .bind hR (spares_string fn value isKey) fun _ => .pure hR _
  unfold collectAt
  dsimp only
  split
  . exact hadd _ _
  . exact .bind hR (spares_bigint fn _) fun _ => .pure hR _
  . exact .bind hR (.lift hR _) fun _ => .bind hR (hadd _ _) fun _ => hadd _ _
  . exact .forM_option hR fun _ _ => hadd _ _
  . apply Keeps.bind hR (.get hR)
    intro a
    split
    . exact hadd _ _
    . exact hadd _ _
    . exact .pure hR _
  . apply Keeps.bind hR
    . apply Keeps.forIn hR
      intro x _ r
      split
      . exact .bind hR (hadd _ _) fun _ => .pure hR _
      . exact .pure hR _
    . intro _
      split
      . apply Keeps.bind hR
        . exact .forIn hR fun _ _ _ => .bind hR (hadd _ _) fun _ => .pure hR _
        . exact fun _ => .pure hR _
      . exact .pure hR _
  . exact hadd _ _
  . exact .pure hR _

theorem spares_collectStrings (fn j : Nat) : Keeps (Spares fn) (collectStrings j) := by
  have hR := isSteady_spares fn
  unfold collectStrings
  apply Keeps.bind hR (spares_function fn j)
  intro f
  apply Keeps.bind hR (spares_string fn _ _)
  intro _
  apply Keeps.bind hR
  . exact .forIn hR fun x _ _ => .bind hR (spares_collectAt fn x.1 x.2) fun _ => .pure hR _
  . intro _
    exact spares_modifySame fun _ => ⟨rfl, rfl, rfl⟩

theorem spares_globalMember (fn : Nat) (n : Node) : Keeps (Spares fn) (globalMember n) := by
  have hR := isSteady_spares fn
  unfold globalMember
  apply Keeps.bind hR (.get hR)
  intro a
  apply Keeps.bind hR
  . exact spares_modifySame fun _ => ⟨rfl, rfl, rfl⟩
  . intro _
    exact .bind hR (spares_string fn _ _) fun _ => .pure hR _

theorem spares_globalize (fn : Nat) (n : Node) : Keeps (Spares fn) (globalize n) := by
  have hR := isSteady_spares fn
  unfold globalize
  apply Keeps.bind hR (.get hR)
  intro a
  apply Keeps.ite
  . intro _
    apply Keeps.bind hR (spares_modifyStats fn _)
    intro _
    apply Keeps.ite
    . exact fun _ => .pure hR _
    . exact fun _ => .map (spares_globalMember fn n)
  . exact fun _ => .pure hR _

theorem spares_globalizeNames (fn : Nat) : Keeps (Spares fn) (globalizeNames fn) := by
  have hR := isSteady_spares fn
  unfold globalizeNames
  apply Keeps.bind hR (spares_function fn fn)
  intro f
  apply Keeps.bind hR (.replacePartsM hR (spares_globalize fn) _)
  intro params
  apply Keeps.bind hR (.replacePartsM hR (spares_globalize fn) _)
  intro body
  exact spares_modifyFunction fn _

theorem spares_markVolatile (fn d : Nat) : Keeps (Spares fn) (markVolatile d) := by
  have hR := isSteady_spares fn
  unfold markVolatile
  apply Keeps.bind hR (.get hR)
  intro a
  apply Keeps.ite
  . exact fun _ => .pure hR _
  . intro _
    apply Keeps.bind hR
    . exact spares_modifySame fun _ => ⟨rfl, rfl, rfl⟩
    . exact fun _ => spares_modifyStats fn _

theorem spares_markAround (fn : Nat) (block : Node) : Keeps (Spares fn) (markAround fn block) := by
  have hR := isSteady_spares fn
  unfold markAround
  apply Keeps.bind hR (spares_function fn fn)
  intro f
  apply Keeps.bind hR (.get hR)
  intro a
  apply Keeps.ite
  . exact fun _ => .pure hR _
  . intro _
    refine .bind hR (.forIn hR ?_) fun _ => .pure hR _
    rintro ⟨place, n⟩ _ r
    dsimp only
    split
    . split
      . split
        . exact .bind hR (spares_markVolatile fn _) fun _ => .pure hR _
        . exact .pure hR _
      . exact .pure hR _
    . exact .pure hR _

theorem spares_findVolatiles (fn : Nat) : Keeps (Spares fn) (findVolatiles fn) := by
  have hR := isSteady_spares fn
  unfold findVolatiles
  apply Keeps.bind hR (spares_function fn fn)
  intro f
  apply Keeps.ite
  . exact fun _ => .pure hR _
  . intro _
    apply Keeps.bind hR (spares_modifyFunction fn _)
    intro _
    refine .bind hR (.forIn hR ?_) fun _ => .pure hR _
    intro t _ r
    exact .bind hR (.forM_option hR fun _ _ => spares_markAround fn _) fun _ => .pure hR _

theorem ends_shape {b : Bindings} {a a' : Analysis} {props : List String} {s : Shape}
    (hb : Shape.TellsApart b.shapeLists) (ha : a.IsAligned b) (hprops : props ∈ b.shapeLists)
    (h : Ends (shape props) a s a') : a'.IsAligned b ∧ s.props = props := by
  unfold shape at h
  rw [ends_get_bind] at h
  have hnames := Literals.props_shape hb ha.keyed ha.known hprops
  have hkeyed := (Literals.serves_shape _ props).keyed ha.keyed
  have hknown := Literals.holds_shape ha.known hprops
  generalize a.literals.shape props = made at h hnames hkeyed hknown
  rw [ends_modify_bind] at h
  obtain ⟨rfl, rfl⟩ := ends_pure.1 h
  exact ⟨⟨hkeyed, hknown, ha.shapes⟩, hnames⟩

def Aligns (b : Bindings) (a a' : Analysis) : Prop := a.IsAligned b → a'.IsAligned b

theorem isSteady_aligns (b : Bindings) : IsSteady (Aligns b) where
  refl _ := id
  trans h h' := h' ∘ h

theorem aligns_literalShape {b : Bindings} (hb : Shape.TellsApart b.shapeLists) {n : Node}
    (hn : n ∈ b.nodes) :
    Keeps (Aligns b) (literalShape n) := by
  have hR := isSteady_aligns b
  unfold literalShape
  apply Keeps.ite
  . exact fun _ => .pure hR _
  . intro hkind
    split
    . exact .pure hR _
    . intro a isKnown a' h ha
      obtain ⟨s, t, hs, h⟩ := ends_bind.1 h
      rw [ends_modify_bind] at h
      obtain ⟨rfl, rfl⟩ := ends_pure.1 h
      have hmem : literalNames n.items [] ∈ b.shapeLists :=
        List.mem_append_left _ (List.mem_map.2 ⟨n, hn, rfl⟩)
      obtain ⟨ht, hprops⟩ := ends_shape hb ha hmem hs
      refine ⟨ht.keyed, ht.known, ?_⟩
      intro id s' hs'
      rw [Table.get?_insert] at hs'
      split at hs'
      . next hid =>
        refine ⟨n, hn, by simpa using hkind, hid, ?_⟩
        rw [← Option.some.inj hs', hprops]
      . exact ht.shapes id s' hs'

theorem aligns_modifySame {b : Bindings} {change : Analysis → Analysis}
    (h : ∀ a, (change a).shapes = a.shapes ∧ (change a).literals = a.literals) :
    Keeps (Aligns b) (modify change : Analyze PUnit) := by
  apply Keeps.modify
  intro a ha
  obtain ⟨hshapes, hliterals⟩ := h a
  exact ⟨hliterals ▸ ha.keyed, hliterals ▸ ha.known, hshapes ▸ ha.shapes⟩

theorem aligns_findShapes {b : Bindings} (hb : Shape.TellsApart b.shapeLists) {fn : Nat}
    (hfn : fn < b.functions.size) {a a' : Analysis}
    (hnode : (a.bindings.function fn).node = (b.function fn).node)
    (h : Ends (findShapes fn) a () a') : Aligns b a a' := by
  have hR := isSteady_aligns b
  unfold findShapes at h
  rw [ends_function_bind] at h
  have hbody : (a.bindings.function fn).walkBody = (b.function fn).walkBody := by
    unfold Function.walkBody Function.body
    rw [hnode]
  have hparams : (a.bindings.function fn).walkParams = (b.function fn).walkParams := by
    unfold Function.walkParams Function.params
    rw [hnode]
  have hnames : constructorNames (a.bindings.function fn) = constructorNames (b.function fn) := by
    unfold constructorNames
    rw [hbody]
  have hstats : ∀ change, Keeps (Aligns b) (modifyStats change) :=
    fun _ => aligns_modifySame fun _ => ⟨rfl, rfl⟩
  rw [hbody, hparams, hnames] at h
  refine Keeps.bind hR ?_ ?_ _ _ _ h
  . apply Keeps.forIn hR
    rintro ⟨place, n⟩ hn r
    apply Keeps.bind hR (aligns_literalShape hb
      (Bindings.mem_nodes hfn (List.mem_append_left _ hn)))
    intro isKnown
    apply Keeps.ite
    . exact fun _ => .bind hR (hstats _) fun _ => .pure hR _
    . exact fun _ => .pure hR _
  . intro _
    apply Keeps.bind hR
    . apply Keeps.forIn hR
      rintro ⟨place, n⟩ hn r
      apply Keeps.bind hR (aligns_literalShape hb
        (Bindings.mem_nodes hfn (List.mem_append_right _ hn)))
      exact fun _ => .pure hR _
    . intro _
      have hcount : Keeps (Aligns b) (modify fun a =>
          { a with stats := { a.stats with shapes := a.literals.shapeCount } } : Analyze PUnit) :=
        aligns_modifySame fun _ => ⟨rfl, rfl⟩
      dsimp only
      split
      . split
        . exact hcount
        . have hmem : constructorNames (b.function fn) ∈ b.shapeLists :=
            List.mem_append_right _ (List.mem_map.2 ⟨_, Bindings.function_mem hfn, rfl⟩)
          apply Keeps.bind hR (fun _ _ _ hs ha => (ends_shape hb ha hmem hs).1)
          intro s
          apply Keeps.bind hR
          . exact aligns_modifySame fun _ => ⟨rfl, rfl⟩
          . exact fun _ => .bind hR (hstats _) fun _ => hcount
      . exact hcount

theorem leaves_shape (fn : Nat) (props : List String) : Keeps (Leaves fn) (shape props) := by
  apply Keeps.get_bind
  intro a s a' h
  generalize a.literals.shape props = made at h
  rw [ends_modify_bind] at h
  obtain ⟨-, rfl⟩ := ends_pure.1 h
  exact fun _ _ => rfl

theorem leaves_literalShape (fn : Nat) (n : Node) : Keeps (Leaves fn) (literalShape n) := by
  have hR := isSteady_leaves fn
  unfold literalShape
  apply Keeps.ite
  . exact fun _ => .pure hR _
  . intro _
    split
    . exact .pure hR _
    . exact .bind hR (leaves_shape fn _) fun s =>
        .bind hR (.modify fun _ _ _ => rfl) fun _ => .pure hR _

theorem leaves_findShapes (fn : Nat) : Keeps (Leaves fn) (findShapes fn) := by
  have hR := isSteady_leaves fn
  have hstats : ∀ change, Keeps (Leaves fn) (modifyStats change) :=
    fun _ => .modify fun _ _ _ => rfl
  have hcount : Keeps (Leaves fn) (modify fun a =>
      { a with stats := { a.stats with shapes := a.literals.shapeCount } } : Analyze PUnit) :=
    .modify fun _ _ _ => rfl
  unfold findShapes
  refine .bind hR (.bind hR (.get hR) fun _ => .pure hR _) fun f => ?_
  apply Keeps.bind hR
  . apply Keeps.forIn hR
    rintro ⟨place, n⟩ _ r
    apply Keeps.bind hR (leaves_literalShape fn n)
    intro isKnown
    apply Keeps.ite
    . exact fun _ => .bind hR (hstats _) fun _ => .pure hR _
    . exact fun _ => .pure hR _
  . intro _
    apply Keeps.bind hR
    . exact .forIn hR fun _ _ _ => .bind hR (leaves_literalShape fn _) fun _ => .pure hR _
    . intro _
      dsimp only
      split
      . split
        . exact hcount
        . apply Keeps.bind hR (leaves_shape fn _)
          intro s
          apply Keeps.bind hR
          . exact .modify fun _ _ hj => function_modify hj
          . exact fun _ => .bind hR (hstats _) fun _ => hcount
      . exact hcount

theorem node_assignSlots {fn j : Nat} {a a' : Analysis} (h : Ends (assignSlots fn) a () a') :
    (a'.bindings.function j).node = (a.bindings.function j).node := by
  obtain ⟨s, -, rfl⟩ := ends_assignSlots h
  by_cases hj : j = fn
  . subst hj
    unfold Bindings.function
    simp only [Array.getD_eq_getD_getElem?, Array.getElem?_modify, if_true]
    cases a.bindings.functions[j]? <;> rfl
  . rw [function_modify hj]

theorem aligns_functions {b : Bindings} (hb : Shape.TellsApart b.shapeLists) {fns : List Nat}
    (hfns : fns.Nodup) {a a' : Analysis}
    (hsize : ∀ j ∈ fns, j < b.functions.size)
    (hsame : ∀ j ∈ fns, a.bindings.function j = b.function j)
    (h : Ends (functions fns) a () a') : Aligns b a a' := by
  induction fns generalizing a with
  | nil =>
    obtain ⟨-, rfl⟩ := ends_pure.1 h
    exact id
  | cons fn rest ih =>
    unfold functions at h
    obtain ⟨_, a₁, h₁, h⟩ := ends_bind.1 h
    obtain ⟨_, a₂, h₂, h⟩ := ends_bind.1 h
    obtain ⟨_, a₃, h₃, h⟩ := ends_bind.1 h
    obtain ⟨_, a₄, h₄, h⟩ := ends_bind.1 h
    obtain ⟨_, a₅, h₅, h⟩ := ends_bind.1 h
    obtain ⟨_, a₆, h₆, h⟩ := ends_bind.1 h
    obtain ⟨_, a₇, h₇, h⟩ := ends_bind.1 h
    obtain ⟨_, a₈, h₈, h⟩ := ends_bind.1 h
    have hslots := spares_assignSlots fn _ _ _ h₁
    have hstrings := spares_collectStrings fn fn _ _ _ h₂
    have hlater : Spares fn a₃ a₈ := by
      have hR := isSteady_spares fn
      apply hR.trans (spares_globalizeNames fn _ _ _ h₄)
      apply hR.trans (spares_findVolatiles fn _ _ _ h₅)
      apply hR.trans (spares_modifyFunction fn _ _ _ _ h₆)
      apply hR.trans (spares_modifyFunction fn _ _ _ _ h₇)
      exact spares_modifyStats fn _ _ _ _ h₈
    have hnode : (a₂.bindings.function fn).node = (b.function fn).node := by
      have hfree := spares_collectStrings (fn + 1) fn _ _ _ h₂
      rw [hfree.functions fn (by omega), node_assignSlots h₁, hsame fn List.mem_cons_self]
    obtain ⟨hnot, hrest⟩ := List.nodup_cons.1 hfns
    intro ha
    apply ih hrest (fun j hj => hsize j (List.mem_cons_of_mem _ hj)) _ h
    . apply IsAligned.spared _ hlater
      apply aligns_findShapes hb (hsize fn List.mem_cons_self) hnode h₃
      exact (ha.spared hslots).spared hstrings
    . intro j hj
      have hne : j ≠ fn := by
        rintro rfl
        exact hnot hj
      rw [hlater.functions j hne, leaves_findShapes fn _ _ _ h₃ j hne, hstrings.functions j hne,
        hslots.functions j hne]
      exact hsame j (List.mem_cons_of_mem _ hj)

end Analyze

theorem Analysis.isAligned_of {b : Bindings} {a : Analysis} (hb : Shape.TellsApart b.shapeLists)
    (h : Analysis.of b = .ok a) : a.IsAligned b := by
  apply Analyze.aligns_functions hb List.nodup_range (fun _ hj => List.mem_range.1 hj)
    (fun _ _ => rfl) (ends_of_run h)
  refine ⟨?_, ?_, ?_⟩
  . intro key s hs
    cases hs
  . intro key s hs
    cases hs
  . intro id s hs
    cases hs

/--
Shapes are faithful exactly as far as the keys of their lists. Each list asked for gets a shape of
its names, and two lists share a shape and a C name exactly when they are equal, if and only if the
keys tell the lists apart. If they do so for the lists of a script, slot `i` of the shape of an
object literal has the name of the literal's property `i`, whose value is put there, and no name has
two slots.
-/
theorem shapes_faithful (requests : List Request) {b : Bindings} {a : Analysis}
    (h : Analysis.of b = .ok a) :
    ((∀ p ∈ ({} : Literals).interned requests, ∀ q ∈ ({} : Literals).interned requests,
      p.2.props = p.1 ∧ (p.2 = q.2 ↔ p.1 = q.1) ∧ (p.2.cname = q.2.cname ↔ p.1 = q.1)) ↔
      Shape.TellsApart ((({} : Literals).interned requests).map (·.1))) ∧
    (Shape.TellsApart b.shapeLists → ∀ id s, a.shapes.get? id = some s →
      ∃ n ∈ b.nodes, n.kind = .object ∧ n.id = id ∧ s.props.Nodup ∧
        ∀ (i : Nat) (name : String), s.props[i]? = some name →
          ∃ p, n.items[i]? = some p ∧ Analyze.shapeName? p = some name) := by
  refine ⟨Literals.interned_faithful_iff requests, ?_⟩
  intro hb id s hs
  obtain ⟨n, hn, hkind, hid, hprops⟩ := (Analysis.isAligned_of hb h).shapes id s hs
  refine ⟨n, hn, hkind, hid, ?_, ?_⟩
  . rw [hprops]
    exact Analyze.nodup_literalNames List.nodup_nil
  . intro i name hname
    rw [hprops] at hname
    apply @Analyze.getElem?_literalNames n.items [] i name
    rwa [List.length_nil, Nat.zero_add]

def literalProgram : Bindings :=
  let property (id : Nat) (name : String) : Part :=
    .node .item (.mk id default (.property { kind := .init })
      [.node .key (.mk (id + 1) default (.literal (.string name) "") []),
        .node .value (.mk (id + 2) default (.literal .null "") [])])
  let object : Node := .mk 3 default .object [property 4 "x", property 7 "y"]
  let body : Node := .mk 1 default .block
    [.node .item (.mk 2 default .expressionStatement [.node .expression object])]
  { counters := ⟨10, 0⟩, sites := {}
    functions := #[{ node := .mk 0 default (.functionExpression {}) [.node .body body] }] }

theorem shapes_faithful_literalProgram :
    let requests : List Request := [.shape ["x", "y"], .string "x" false, .shape ["xy"]]
    ∃ a s, Analysis.of literalProgram = .ok a ∧ a.shapes.get? 3 = some s ∧
      (∀ p ∈ ({} : Literals).interned requests, ∀ q ∈ ({} : Literals).interned requests,
        p.2.props = p.1 ∧ (p.2 = q.2 ↔ p.1 = q.1) ∧ (p.2.cname = q.2.cname ↔ p.1 = q.1)) ∧
      ∃ n ∈ literalProgram.nodes, n.kind = .object ∧ n.id = 3 ∧ s.props.Nodup ∧
        ∀ (i : Nat) (name : String), s.props[i]? = some name →
          ∃ p, n.items[i]? = some p ∧ Analyze.shapeName? p = some name := by
  intro requests
  have hplain : Shape.TellsApart ((({} : Literals).interned requests).map (·.1)) :=
    Shape.tellsApart_of_isPlain (by decide)
  have hlists : Shape.TellsApart literalProgram.shapeLists := by
    unfold Shape.TellsApart
    decide +kernel
  have hfound : ((Analysis.of literalProgram).toOption.bind fun a => a.shapes.get? 3).isSome := by
    decide +kernel
  cases ha : Analysis.of literalProgram with
  | error f =>
    rw [ha] at hfound
    cases hfound
  | ok a =>
    rw [ha] at hfound
    obtain ⟨s, hs⟩ := Option.isSome_iff_exists.1 hfound
    obtain ⟨hiff, hlits⟩ := shapes_faithful requests ha
    exact ⟨a, s, rfl, hs, hiff.2 hplain, hlits hlists 3 s hs⟩

end ScriptC
