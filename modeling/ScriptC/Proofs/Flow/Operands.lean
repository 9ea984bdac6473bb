import ScriptC.Proofs.Flow.Closures
import ScriptC.Proofs.Function.Partition

/-!
All operands of the code of a script are there. Writers pass on expressions that may be missing, for
a condition that is known to hold or an effect that there is none of; none is left where the code is
put together.
-/

namespace ScriptC

namespace C.Expr

mutual

def isWhole : Expr → Bool
  | .missing => false
  | .raw _ _ => true
  | .call _ args => allWhole args
  | .callPtr fn args => fn.isWhole && allWhole args
  | .seq list => !list.isEmpty && allWhole list
  | .cond test x y => test.isWhole && x.isWhole && y.isWhole
  | .assign x _ y | .binary _ x y | .index x y => x.isWhole && y.isWhole
  | .unary _ x | .field x _ _ | .likely x _ | .cast _ x | .bits _ x | .pointer _ x => x.isWhole

def allWhole : List Expr → Bool
  | [] => true
  | e :: rest => e.isWhole && allWhole rest

end

variable {R : Rules} {e : Expr}

theorem Obeys.isWhole (hfull : R.isFull) (hrows : ∀ list, ¬R.rows list) (h : e.Obeys R) :
    e.isWhole = true := by
  induction e using Expr.rec (motive_2 := fun l => AllObey R l → allWhole l = true) with
  | missing => exact absurd hfull h
  | seq list ih =>
    rw [Expr.isWhole, ih (h.2.resolve_left (hrows list)), Bool.and_true, Bool.not_eq_true',
      List.isEmpty_eq_false_iff]
    exact h.1 hfull
  | raw text isConstant => rfl
  | nil => rfl
  | _ => simp_all [Expr.isWhole, allWhole]

theorem allWhole_map {α : Type} {f : α → Expr} (h : ∀ x, (f x).isWhole = true) (list : List α) :
    allWhole (list.map f) = true := by
  induction list with
  | nil => rfl
  | cons x rest ih => rw [List.map_cons, allWhole, h, ih, Bool.and_true]

end C.Expr

namespace C.Stmt

mutual

def IsWhole : Stmt → Prop
  | .missing => False
  | .expr x | .ret x => x.isWhole = true
  | .block decls body | .loop decls body =>
    (∀ d ∈ decls, d.init = .missing ∨ d.init.isWhole = true) ∧ AreWhole body
  | .branch test a b => test.isWhole = true ∧ a.IsWhole ∧ (b = .missing ∨ b.IsWhole)
  | .decl d => d.init = .missing ∨ d.init.isWhole = true
  | _ => True

def AreWhole : List Stmt → Prop
  | [] => True
  | st :: rest => st.IsWhole ∧ AreWhole rest

end

variable {P : Expr → Prop}

mutual

theorem Holds.isWhole (h : ∀ e, P e → e.isWhole = true) : ∀ {st : Stmt}, st.Holds P → st.IsWhole
  | .missing, hst => absurd (h _ hst) (by simp [Expr.isWhole])
  | .expr _, hst | .ret _, hst => h _ hst
  | .block _ _, hst | .loop _ _, hst =>
    ⟨fun d hd => (hst.1 d hd).2.imp_right (h _), Every.areWhole h hst.2⟩
  | .branch _ _ _, hst =>
    ⟨h _ hst.1, Holds.isWhole h hst.2.1, hst.2.2.imp_right (Holds.isWhole h)⟩
  | .decl _, hst => hst.2.imp_right (h _)
  | .label _, _ | .goto _, _ | .raw _, _ | .comment _, _ => trivial

theorem Every.areWhole (h : ∀ e, P e → e.isWhole = true) :
    ∀ {code : List Stmt}, Every P code → AreWhole code
  | [], _ => trivial
  | _ :: _, hcode => ⟨Holds.isWhole h hcode.1, Every.areWhole h hcode.2⟩

end

end C.Stmt

theorem Literals.isWhole_initializers (t : Literals) :
    (C.Stmt.block [] t.initializers).IsWhole := by
  refine ⟨by simp, ?_⟩
  unfold initializers
  induction t.named with
  | nil => trivial
  | cons p rest ih =>
    refine ⟨?_, ih⟩
    have hinitial : (t.initial p.2).isWhole = true := by
      unfold initial
      split
      . rfl
      . rfl
      . exact C.Expr.allWhole_map (fun _ => rfl) _
    exact hinitial

namespace Lower

open C.Expr

theorem complete_of_prepared {tree : Node} {bound : Nat} {e : Extraction} {b b' : Bindings}
    (hcomplete : ∀ m ∈ tree.preorder, m.IsComplete) (he : Extract.Parted tree bound e)
    (hb : Prepared e b b') {fn : Nat} {m : Node}
    (hm : m ∈ Part.nodes (b'.function fn).node.parts) : m.IsComplete := by
  obtain ⟨g, hg⟩ := hb.exists_function hm
  rcases hb.origin hg hm with ⟨m₀, hm₀, hshape⟩ | ⟨hplain, -⟩
  . have hm₀' := Part.nodes_subset (Resolve.innerParts_subset hb.split hg) hm₀
    have hgiven : ∀ n ∈ Part.nodes tree.parts, n.IsComplete := by
      intro n hn
      refine hcomplete n ?_
      rw [Node.preorder_eq]
      exact List.mem_cons_of_mem _ hn
    refine ((he.inner fn g hg m₀ hm₀').complete hgiven).congr
      (Node.kind_of_shape hshape) fun r => ?_
    have hsketch : m.parts.map Part.sketch = m₀.parts.map Part.sketch := congrArg (·.2.2) hshape
    have hpresent := congrArg (List.map fun s => (s.1, s.2.isSome)) hsketch
    have hpart : ∀ p : Part, (p.sketch.1, p.sketch.2.isSome) = (p.role, p.node?.isSome) := by
      intro p
      cases p <;> rfl
    simp only [List.map_map, Function.comp_def, hpart] at hpresent
    rw [Node.isSome_part?, Node.isSome_part?, hpresent]
  . refine Node.isComplete_of_isBare ?_
    simp only [List.mem_cons, List.not_mem_nil, or_false] at hplain
    rcases hplain with hk | hk | hk | hk <;> rw [hk] <;> rfl

def present (plan : Plan) : Knowledge plan where
  at_ fn := (Calls.total plan fn (fun _ _ => True) (fun _ _ _ => trivial) (fun _ => True)
    (fun _ _ => trivial) (fun _ => True) fun _ _ => trivial).setting True
  plan_eq _ := rfl
  fn_eq _ := rfl

theorem total_present (plan : Plan) (fn : Nat) : ((present plan).at_ fn).Total :=
  ⟨fun _ => trivial, fun _ => trivial, fun _ => trivial⟩

theorem isWhole_of_present {plan : Plan} {fn : Nat} {x : C.Expr}
    (h : ((present plan).at_ fn).Part x) :
    x.isWhole = true :=
  Obeys.isWhole trivial (Setting.not_rows rfl) h

theorem isWhole_of_bodied {plan : Plan} {fn : Nat} {st : C.Stmt}
    (hfits : ((present plan).at_ fn).FitsFunction)
    (hst : Bodied ((present plan).at_ fn) ((present plan).at_ fn).eval st.core) : st.IsWhole := by
  have hopen : ((present plan).at_ fn).IsOpen :=
    ⟨fun _ => trivial, fun _ => ⟨trivial, trivial, trivial⟩, fun _ => ⟨trivial, trivial⟩,
      fun _ _ _ => trivial⟩
  exact ((Composes.mk (sound_upTo _) hfits.whole hopen).bodied hfits hst).isWhole
    fun _ => isWhole_of_present

theorem allWhole_cells {plan : Plan} {list : List Nat} {w w' : Writer} {xs : List C.Expr}
    (h : Runs plan (cells list) w xs w') : allWhole xs = true := by
  induction list generalizing w w' xs with
  | nil =>
    obtain ⟨rfl, -⟩ := runs_pure.1 h
    rfl
  | cons d rest ih =>
    obtain ⟨x, v, hx, h⟩ := runs_bind.1 h
    obtain ⟨ys, v', hys, h⟩ := runs_bind.1 h
    obtain ⟨rfl, -⟩ := runs_pure.1 h
    have hwhole : x.isWhole = true := by
      obtain ⟨_, _, -, hx⟩ := runs_bind.1 hx
      obtain ⟨_, _, -, hx⟩ := runs_bind.1 hx
      split at hx
      all_goals
        obtain ⟨_, _, -, hx⟩ := runs_bind.1 hx
        rw [(runs_pure.1 hx).1]
        rfl
    rw [allWhole, hwhole, ih hys, Bool.and_true]

theorem isWhole_programFunction {plan : Plan} {w w' : Writer} {program : C.Expr}
    (h : Runs plan programFunction w program w') : program.isWhole = true := by
  obtain ⟨_, _, -, h⟩ := runs_bind.1 h
  obtain ⟨_, _, -, h⟩ := runs_bind.1 h
  obtain ⟨_, _, -, h⟩ := runs_bind.1 h
  obtain ⟨name, _, hname, h⟩ := runs_bind.1 h
  obtain ⟨xs, _, hxs, h⟩ := runs_bind.1 h
  have hlit : name.isWhole = true := by
    obtain ⟨_, _, -, hname⟩ := runs_bind.1 hname
    obtain ⟨_, _, -, hname⟩ := runs_bind.1 hname
    rw [(runs_pure.1 hname).1]
    rfl
  have hshape : ∀ shape : Option Shape,
      ((shape.map fun s => C.Expr.raw s.cname true).getD
        (.raw Engine.valUndefined true)).isWhole := by
    intro shape
    cases shape <;> rfl
  dsimp only at h
  split at h
  all_goals
    rw [(runs_pure.1 h).1]
    simp [callEnv, isWhole, allWhole, env, var, nat, hlit, hshape, allWhole_cells hxs]

structure Printed (plan : Plan) (code : String) (trees : List C.Stmt) : Prop where
  file : ∃ blocks v program w, Runs plan
      (functionBlocks (List.range plan.analysis.bindings.functions.size)) (startOf plan) blocks v ∧
    Runs plan programFunction v program w ∧ code = C.textOf (fileLines plan w blocks program) ∧
    trees = w.literals.decls.map .decl ++
      w.templates.map (fun name => .decl { type := Engine.typeValue, name, isStatic := true }) ++
      blocks ++ [.block [] w.literals.initializers, entryBlock plan.source program]

/--
In all that is printed for a script, no operand, condition, branch or value is missing and no row
is empty.
-/
theorem operands_present {source : Source} {settings : Settings} {tree : Node} {nodes : Nat}
    {c : Compiled} (htree : tree.IsScript nodes) (hkind : tree.kind = .program)
    (htidy : ∀ m ∈ tree.preorder, m.IsTidy) (hcomplete : ∀ m ∈ tree.preorder, m.IsComplete)
    (h : (compileTree source settings tree nodes).result = .ok c) :
    ∃ e b a trees, Extraction.of tree ⟨nodes, nameSeed source.shownPath⟩ = .ok e ∧
      Bindings.of e = .ok b ∧ Analysis.of b = .ok a ∧ Printed ⟨a, source, settings⟩ c.code trees ∧
      ∀ st ∈ trees, st.IsWhole := by
  obtain ⟨e, b, a, he, hb, ha, hc⟩ := exists_of_compileTree h
  have hparted := Extract.parted_of htree hkind htidy (Pass.ends_of_run he)
  obtain ⟨blocks, hwritten⟩ := written_of_compile hc
  obtain ⟨v, program, w, hr, hprogram, hcode⟩ := hwritten.file
  refine ⟨e, b, a, _, he, hb, ha, ⟨blocks, v, program, w, hr, hprogram, hcode, rfl⟩, ?_⟩
  have hfits : ∀ fn, ((present ⟨a, source, settings⟩).at_ fn).FitsFunction := fun fn =>
    fitsFunction_of_suits rfl rfl (fun m hm => (total_present _ fn).suits fun _ =>
      complete_of_prepared hcomplete hparted (.of_analysis htree he hb ha) hm)
      (total_present _ fn).whole
  have hbodied := ((functionBlocks_bodied (present _) (fun fn _ => hfits fn)
    (proper_startOf _)).1 blocks v hr).2.2 fun _ _ => trivial
  have hblocks : ∀ st ∈ blocks, st.IsWhole := by
    intro st hst
    obtain ⟨i, hi, rfl⟩ := List.getElem_of_mem hst
    exact isWhole_of_bodied (hfits _) (hbodied.get (hbodied.length_eq ▸ hi) hi)
  simp only [List.forall_mem_append, List.forall_mem_map, List.forall_mem_cons]
  refine ⟨⟨⟨?_, fun _ _ => .inl rfl⟩, hblocks⟩, w.literals.isWhole_initializers, ?_, by simp⟩
  . intro d hd
    obtain ⟨p, -, rfl⟩ := List.mem_map.1 hd
    exact .inl rfl
  . refine ⟨?_, rfl, .inr (isWhole_programFunction hprogram), rfl, rfl, trivial⟩
    exact fun d hd => .inr (List.mem_singleton.1 hd ▸ rfl)

/-- The script `with (a) if (b, c) d + true;`. -/
def guardedSum : Node :=
  let name (id : Nat) (text : String) : Node := .mk id default (.identifier text) []
  let test : Node := .mk 5 default .sequence [.node .item (name 6 "b"), .node .item (name 7 "c")]
  let sum : Node := .mk 9 default (.binary "+")
    [.node .left (name 10 "d"), .node .right (.mk 11 default (.literal (.boolean true) "") [])]
  .mk 0 default .program [.node .item (.mk 1 default .withStatement [.node .object (name 2 "a"),
    .node .body (.mk 4 default .ifStatement [.node .test test,
      .node .consequent (.mk 8 default .expressionStatement [.node .expression sum])])])]

theorem operands_present_guardedSum :
    ∃ c e b a trees, guardedSum.IsScript 12 ∧ guardedSum.kind = .program ∧
      (∀ m ∈ guardedSum.preorder, m.IsTidy) ∧ (∀ m ∈ guardedSum.preorder, m.IsComplete) ∧
      (compileTree default {} guardedSum 12).result = .ok c ∧
      Extraction.of guardedSum ⟨12, nameSeed (default : Source).shownPath⟩ = .ok e ∧
      Bindings.of e = .ok b ∧ Analysis.of b = .ok a ∧ Printed ⟨a, default, {}⟩ c.code trees ∧
      ∀ st ∈ trees, st.IsWhole := by
  have hscript : guardedSum.IsScript 12 := by decide +kernel
  have htidy : ∀ m ∈ guardedSum.preorder, m.IsTidy := by decide +kernel
  have hcomplete : ∀ m ∈ guardedSum.preorder, m.IsComplete := by decide +kernel
  have hok : (compileTree default {} guardedSum 12).result.isOk = true := by decide +kernel
  cases hc : (compileTree default {} guardedSum 12).result with
  | error f =>
    rw [hc] at hok
    cases hok
  | ok c =>
    obtain ⟨e, b, a, trees, h⟩ := operands_present hscript rfl htidy hcomplete hc
    exact ⟨c, e, b, a, trees, hscript, rfl, htidy, hcomplete, rfl, h⟩

end Lower
end ScriptC
