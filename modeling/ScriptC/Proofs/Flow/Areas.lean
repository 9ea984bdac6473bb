import ScriptC.Proofs.Flow.Closures

/-!
The calls of a function stay within the part of the value stack that it reserves. Whichever way
control takes through its code, no slot beyond the reservation is touched, and the arguments that a
call has stored are intact when it is made.
-/

namespace ScriptC

open Analyze (callReach deepestAt le_deepestAt)

namespace Analyze

open Pass

def Measured (f : Function) : Prop := f.stackDepth = deepestAt callReach 0 (f.params ++ [f.body])

def SameReach (i : Nat) (a a' : Analysis) : Prop :=
  (a'.bindings.function i).node = (a.bindings.function i).node ∧
    (a'.bindings.function i).stackDepth = (a.bindings.function i).stackDepth

variable {i fn : Nat} {a a' : Analysis}

theorem SameReach.measured (h : SameReach i a a') (ha : Measured (a.bindings.function i)) :
    Measured (a'.bindings.function i) := by
  unfold Measured Function.params Function.body at *
  rw [h.1, h.2]
  exact ha

theorem isSteady_sameReach : IsSteady (SameReach i) where
  refl _ := ⟨rfl, rfl⟩
  trans h h' := ⟨h'.1.trans h.1, h'.2.trans h.2⟩

theorem sameReach_modify (h : i ≠ fn) (change : Function → Function) :
    SameReach i a { a with
      bindings := { a.bindings with functions := a.bindings.functions.modify fn change } } := by
  rcases Bindings.function_modify_cases a.bindings fn i change with heq | ⟨rfl, -⟩
  . unfold SameReach
    rw [heq]
    exact ⟨rfl, rfl⟩
  . contradiction

theorem permitsSlots_sameReach (h : i ≠ fn) : PermitsSlots fn (SameReach i) where
  toIsSteady := isSteady_sameReach
  stats _ _ _ := ⟨rfl, rfl⟩
  slots a _ _ _ := sameReach_modify (a := a) h _
  string _ _ _ := ⟨rfl, rfl⟩
  bigint _ _ := ⟨rfl, rfl⟩
  shapes _ _ := ⟨rfl, rfl⟩
  shape _ _ := ⟨rfl, rfl⟩
  numbers _ := ⟨rfl, rfl⟩
  volatile _ _ := ⟨rfl, rfl⟩
  record _ change _ := sameReach_modify h change

theorem keeps_globalizeNames_sameReach (h : i ≠ fn) :
    Keeps (SameReach i) (globalizeNames fn) := by
  have hR := isSteady_sameReach (i := i)
  have hglobalize := Keeps.replacePartsM hR (permitsSlots_sameReach h).globalize
  refine .bind hR ((permitsSlots_sameReach h).function fn) fun f => .bind hR (hglobalize _)
    fun params => .bind hR (hglobalize _) fun body => .modify fun a => sameReach_modify h _

theorem measured_measureCalls {u : Unit} (h : Ends (measureCalls fn) a u a') :
    Measured (a'.bindings.function fn) := by
  obtain rfl := ends_modify.1 h
  unfold Measured Bindings.function
  dsimp only
  rw [Array.getD_eq_getD_getElem?, Array.getElem?_modify, if_pos rfl]
  cases a.bindings.functions[fn]? with
  | none => rfl
  | some f => rfl

theorem sameReach_change {change : Function → Function}
    (h : ∀ f, (change f).node = f.node ∧ (change f).stackDepth = f.stackDepth) :
    SameReach i a { a with
      bindings := { a.bindings with functions := a.bindings.functions.modify fn change } } := by
  unfold SameReach
  rcases Bindings.function_modify_cases a.bindings fn i change with heq | ⟨-, heq⟩
  . rw [heq]
    exact ⟨rfl, rfl⟩
  . rw [heq]
    exact h _

theorem keeps_markCoroutine_sameReach : Keeps (SameReach i) (markCoroutine fn) := by
  refine .modify fun a => sameReach_change fun f => ?_
  dsimp only
  split <;> exact ⟨rfl, rfl⟩

theorem measured_functions {list : List Nat} {u : Unit} (hlist : list.Nodup)
    (h : Ends (functions list) a u a') : ∀ fn ∈ list, Measured (a'.bindings.function fn) := by
  induction list generalizing a with
  | nil => simp
  | cons fn rest ih =>
    rw [List.nodup_cons] at hlist
    rw [functions] at h
    obtain ⟨_, t₁, -, h⟩ := ends_bind.1 h
    obtain ⟨_, t₂, -, h⟩ := ends_bind.1 h
    obtain ⟨_, t₃, -, h⟩ := ends_bind.1 h
    obtain ⟨_, t₄, -, h⟩ := ends_bind.1 h
    obtain ⟨_, t₅, -, h⟩ := ends_bind.1 h
    obtain ⟨_, t₆, hmeasure, h⟩ := ends_bind.1 h
    obtain ⟨_, t₇, hmark, h⟩ := ends_bind.1 h
    obtain ⟨_, t₈, hstats, h⟩ := ends_bind.1 h
    rw [List.forall_mem_cons]
    refine ⟨?_, ih hlist.2 h⟩
    have hother : ∀ j ∈ rest, fn ≠ j := by
      rintro j hj rfl
      exact hlist.1 hj
    have hrest := PermitsSlots.functions isSteady_sameReach
      (fun j hj => permitsSlots_sameReach (hother j hj))
      (fun j hj => keeps_globalizeNames_sameReach (hother j hj)) _ _ _ h
    obtain rfl := ends_modify.1 hstats
    refine SameReach.measured hrest (SameReach.measured (a := t₇) ⟨rfl, rfl⟩ ?_)
    exact (keeps_markCoroutine_sameReach _ _ _ hmark).measured (measured_measureCalls hmeasure)

end Analyze

theorem Analysis.measured_of {b : Bindings} {a : Analysis} (h : Analysis.of b = .ok a) {fn : Nat}
    (hfn : fn < a.bindings.functions.size) : Analyze.Measured (a.bindings.function fn) := by
  refine Analyze.measured_functions List.nodup_range (Pass.ends_of_run h) fn ?_
  rwa [List.mem_range, ← (Analysis.enriches_of h).size_eq]

namespace Lower

open C.Expr

theorem arranged_of_prepared {e : Extraction} {b b' : Bindings} (hb : Prepared e b b') {fn : Nat}
    {m : Node} (hm : m ∈ Part.nodes (b'.function fn).node.parts) : m.IsArranged := by
  intro hkind p hp
  obtain ⟨g, hg⟩ := hb.exists_function hm
  rcases hb.origin hg hm with ⟨m₀, hm₀, hshape⟩ | ⟨hplain, -⟩
  . have hformed : m₀.IsFormed := Resolve.isFormed_of_mem hb.split hg hm₀
    have hsketch : m.parts.map Part.sketch = m₀.parts.map Part.sketch := congrArg (·.2.2) hshape
    obtain ⟨p₀, hp₀, heq⟩ := List.mem_map.1 (hsketch ▸ List.mem_map_of_mem hp)
    have hrole : p.role = p₀.role := by
      have hfst := congrArg (·.1) heq
      cases p <;> cases p₀ <;> exact hfst.symm
    rw [hrole, Node.kind_of_shape hshape]
    exact hformed.roles p₀ hp₀
  . simp only [Node.isInvocation, Bool.or_eq_true, beq_iff_eq] at hkind
    rcases hkind with (hk | hk) | hk <;> rw [hk] at hplain <;> simp at hplain

def reservation (plan : Plan) (f : Function) : C.Stmt :=
  let limit : Int := (f.stackDepth + 1 : Nat) + plan.settings.stackHeadroom
  .expr (.callEnv Engine.stackCheck [.var s!"stk_ptr + {limit}"])

-- The body of a coroutine runs on a stack of its own, where it reserves its part once more.
structure CallsFit (plan : Plan) (f : Function) (st : C.Stmt) : Prop where
  measured : Analyze.Measured f
  reserved : ∃ decls rest, st.core = .block decls (reservation plan f :: rest)
  resumed : f.injectYield = true → ∃ decls before after, st.core = .block decls
    (before ++ .expr (.callEnv Engine.yieldValue [.undefined]) :: reservation plan f :: after)
  areas : ∀ x ∈ C.Stmt.exprs st, ∀ row ∈ x.traces .path, KeepsAreas 0 f.stackDepth row

def reserving (plan : Plan) : Knowledge plan where
  at_ fn := (Calls.total plan fn (fun _ _ => True) (fun _ _ _ => trivial) (fun _ => True)
    (fun _ _ => trivial) (fun _ => True) fun _ _ => trivial).setting False
      (some (plan.analysis.bindings.function fn).stackDepth)
  plan_eq _ := rfl
  fn_eq _ := rfl

theorem fitsFunction_reserving {plan : Plan} {e : Extraction} {b : Bindings} {fn : Nat}
    (hb : Prepared e b plan.analysis.bindings)
    (hmeasured : Analyze.Measured (plan.analysis.bindings.function fn)) :
    ((reserving plan).at_ fn).FitsFunction := by
  have htotal : ((reserving plan).at_ fn).Total :=
    ⟨fun _ => trivial, fun _ => trivial, fun _ => trivial⟩
  have hheld : ∀ n, Part.Holds (plan.analysis.bindings.function fn).node.parts n →
      n ∈ (plan.analysis.bindings.function fn).params ++
        [(plan.analysis.bindings.function fn).body] →
      ((reserving plan).at_ fn).Fits n := by
    refine fun n hn hmem => ⟨?_, fun m _ => htotal.suits False.elim⟩
    rintro _ ⟨⟩
    refine ⟨?_, fun m hm => arranged_of_prepared hb (Part.mem_nodes_of_holds hn hm)⟩
    exact Nat.le_trans (le_deepestAt hmem) (Nat.le_of_eq hmeasured.symm)
  refine ⟨rfl, fun p hp => ?_, fun n hn => ?_, htotal.whole⟩
  . exact hheld p (Node.holds_of_mem_nodesAt hp) (List.mem_append_left _ hp)
  . have hbody : (plan.analysis.bindings.function fn).body =
        ((plan.analysis.bindings.function fn).node.part? .body).getD default := rfl
    change n ∈ (plan.analysis.bindings.function fn).body.items at hn
    cases hpart : (plan.analysis.bindings.function fn).node.part? .body with
    | none =>
      rw [hbody, hpart] at hn
      cases hn
    | some body =>
      rw [hpart, Option.getD_some] at hbody
      rw [hbody] at hn
      refine (hheld body (Node.holds_of_part? hpart) ?_).item n hn
      rw [hbody]
      exact List.mem_append_right _ List.mem_cons_self

theorem Bodied.exists_opening {S : Setting} {E : Eval} {code : C.Stmt} (h : Bodied S E code) :
    ∃ decls params rest, code =
      .block decls (effectCode (reserveCode S) ++ (params ++ yieldCode S ++ rest)) := by
  cases h with
  | @mk decls _ c ends _ _ _ _ _ hopens _ _ =>
    cases hopens with
    | @mk params args _ _ => exact ⟨decls, params ++ args, c ++ ends, by simp⟩

theorem callsFit_of_bodied {plan : Plan} {fn : Nat} {st : C.Stmt}
    (hfits : ((reserving plan).at_ fn).FitsFunction)
    (hmeasured : Analyze.Measured (plan.analysis.bindings.function fn))
    (hst : Bodied ((reserving plan).at_ fn) ((reserving plan).at_ fn).eval st.core) :
    CallsFit plan (plan.analysis.bindings.function fn) st := by
  have hreserve : effectCode (reserveCode ((reserving plan).at_ fn)) =
      [reservation plan (plan.analysis.bindings.function fn)] :=
    effectCode_callEnv (by decide)
  obtain ⟨decls, params, rest, hcore⟩ := hst.exists_opening
  rw [hreserve] at hcore
  refine ⟨hmeasured, ⟨decls, _, hcore⟩, fun hyield => ?_, fun x hx row hrow => ?_⟩
  . have hinject : ((reserving plan).at_ fn).function.injectYield = true := hyield
    rw [yieldCode, if_pos hinject, hreserve, effectCode_callEnv (by decide)] at hcore
    refine ⟨decls, reservation plan (plan.analysis.bindings.function fn) :: params, rest, ?_⟩
    simpa using hcore
  . have hopen : ((reserving plan).at_ fn).IsOpen :=
      ⟨fun _ => trivial, fun _ => ⟨trivial, trivial, trivial⟩, fun _ => ⟨trivial, trivial⟩,
        fun _ _ _ => trivial⟩
    rcases ((Composes.mk (sound_upTo _) hfits.whole hopen).bodied hfits hst).exprs x
      hx with rfl | hx
    . rw [traces_missing] at hrow
      exact one_le_areas hrow
    . exact Setting.traces_le rfl hx hrow

def nestedCalls : Node :=
  let inner : Node := .mk 4 default (.call false)
    [.node .callee (.mk 5 default (.identifier "g") []),
      .node .item (.mk 6 default (.literal .null "") [])]
  let outer : Node := .mk 2 default (.call false)
    [.node .callee (.mk 3 default (.identifier "f") []), .node .item inner,
      .node .item (.mk 7 default (.literal (.boolean true) "") [])]
  .mk 0 default .program [.node .item (.mk 1 default .expressionStatement
    [.node .expression outer])]

end Lower
end ScriptC
