import ScriptC.Program
import ScriptC.Proofs.Flow.Statement

/-!
The code of a function: its frame is set up, its statements follow, and it returns at the end.
-/

namespace ScriptC.Lower

open C
open scoped C.Expr

def reserveCode (S : Setting) : C.Expr :=
  let limit : Int := (S.function.stackDepth + 1 : Nat) + S.plan.settings.stackHeadroom
  .callEnv Engine.stackCheck [.var s!"stk_ptr + {limit}"]

def restArguments (i : Nat) : C.Expr :=
  .callEnv Engine.restArguments [.var "stk_args + 1", .var "stk_argc", .nat i]

def Receives (S : Setting) (E : Eval) (i : Nat) (p : Node) (code : List C.Stmt) : Prop :=
  if p.kind = .identifier then code = []
  else if p.kind = .rest then
    ∃ x, Given S (E.destructureOption (p.part? .argument) (restArguments i) .init) x ∧
      code = effectCode x
  else ∃ (k : Nat) (x : C.Expr), Given S (E.destructure p (.var (temporaryName "tmp" k)) .init) x ∧
    code = effectCode (.comma [.set (.var (temporaryName "tmp" k)) (argument i), x])

inductive ReceivesAll (S : Setting) (E : Eval) : Nat → List Node → List C.Stmt → Prop where
  | nil {i : Nat} : ReceivesAll S E i [] []
  | cons {i : Nat} {p : Node} {rest : List Node} {a b : List C.Stmt} (ha : Receives S E i p a)
    (hb : ReceivesAll S E (i + 1) rest b) : ReceivesAll S E i (p :: rest) (a ++ b)

def argumentsCode : C.Expr :=
  .callEnv Engine.currentArguments [.var "stk_args + 1", .var "stk_argc"]

def yieldCode (S : Setting) : List C.Stmt :=
  if S.function.injectYield then
    effectCode (.callEnv Engine.yieldValue [.undefined]) ++ effectCode (reserveCode S)
  else []

inductive Opens (S : Setting) (E : Eval) : List C.Stmt → Prop where
  | mk {params args : List C.Stmt} (hparams : ReceivesAll S E 0 S.function.params params)
    (hargs : args = [] ∨ args = effectCode argumentsCode) :
    Opens S E (effectCode (reserveCode S) ++ params ++ args ++ yieldCode S)

inductive Bodied (S : Setting) (E : Eval) : C.Stmt → Prop where
  | mk {decls opens c ends P lo mid hi} (hdecls : ∀ d ∈ decls, S.Silent d)
    (hopens : Opens S E opens)
    (hc : Laid S E ⟨[], [], P⟩ lo mid (.list S.function.body.items) c)
    (hends : if endsByLeaving S.function.body.items then ends = []
      else Returns S ⟨[], [], P⟩ mid hi .undefined ends) :
    Bodied S E (.block decls (opens ++ c ++ ends))

variable {S : Setting} {E : Eval} {X : List Exit} {T : List Target} {L : List String}

theorem lays_reserveStack :
    LaysHere S X T L reserveStack fun _ m m' _ c => c = effectCode (reserveCode S) ∧ m' = m :=
  .function (.read (lays_effect _))

theorem yields_declareIf (d : Option Nat) (isNeeded : Declaration → Bool) {init : C.Expr}
    (hinit : ∀ slot, init.Obeys (S.rules slot)) (hstill : init.traces .path = 1) :
    Yields S (declareIf d isNeeded init) fun _ => True := by
  unfold declareIf
  split
  . exact .pure fun _ => trivial
  . refine .bindings ?_
    split
    . exact yields_declare _ hinit hstill
    . exact .pure fun _ => trivial

theorem yields_declareVars (list : List Nat) : Yields S (declareVars list) fun _ => True := by
  induction list with
  | nil => exact .pure fun _ => trivial
  | cons d rest ih =>
    refine (yields_declare d ?_ ?_).andThen fun _ _ => ih
    . simp
    . simp

theorem isFixed_argument (i : Nat) :
    C.isFixed s!"(stk_argc > {i} ? stk_args[{i + 1}] : {Engine.valUndefined})" = true := by
  have htext : s!"(stk_argc > {i} ? stk_args[{i + 1}] : {Engine.valUndefined})".toList =
      "(stk_argc >".toList ++ ' ' :: (i.repr.toList ++ ' ' :: ("? stk_args".toList ++ '[' ::
        ((i + 1).repr.toList ++ ']' ::
          (" : ".toList ++ Engine.valUndefined.toList ++ [')'])))) := by
    simp [ToString.toString]
  rw [C.isFixed, htext, C.isFixedList_append_cons _ _ (by decide),
    C.isFixedList_append_cons _ _ (by decide), C.isFixedList_append_cons _ _ (by decide),
    C.isFixedList_append_cons _ _ (by decide), C.isFixedList_digits, C.isFixedList_digits]
  decide

theorem obeys_argument (i slot : Nat) : (argument i).Obeys (S.rules slot) :=
  .inr (S.reads_fixed _ (isFixed_argument i))

theorem isFixed_stackLimit (limit : Int) : C.isFixed s!"stk_ptr + {limit}" = true := by
  cases limit with
  | ofNat k =>
    have htext : s!"stk_ptr + {Int.ofNat k}".toList = "stk_ptr +".toList ++ ' ' ::
      k.repr.toList := by
      simp [ToString.toString, Int.repr]
    rw [C.isFixed, htext, C.isFixedList_append_cons _ _ (by decide), C.isFixedList_digits]
    decide
  | negSucc k =>
    have htext : s!"stk_ptr + {Int.negSucc k}".toList =
        "stk_ptr + ".toList ++ '-' :: (k + 1).repr.toList := by
      simp [ToString.toString, Int.repr]
    rw [C.isFixed, htext, C.isFixedList_append_cons _ _ (by decide), C.isFixedList_digits]
    decide

theorem Sound.lays_bindParam (hE : Sound S E) (i : Nat) {p : Node} (hp : S.Fits p) :
    LaysHere S X T L (bindParam E i p) fun _ _ m' _ c => Receives S E i p c ∧ Flagged m' c := by
  unfold bindParam Receives
  by_cases hid : p.kind = .identifier
  . rw [if_pos (by simpa using hid)]
    simp only [if_pos hid]
    refine (Lays.leaf (yields_declare p.id (obeys_argument i) ?_)).mono ?_
    . simp [argument]
    . rintro P m m' _ c - - ⟨rfl, -⟩
      exact ⟨rfl, .of_eq_nil rfl⟩
  rw [if_neg (by simpa using hid)]
  simp only [if_neg hid]
  refine Lays.afterLeaf (yields_declareVars _) (fun _ h => h) fun _ => ?_
  by_cases hrest : p.kind = .rest
  . rw [if_pos (by simpa using hrest)]
    simp only [if_pos hrest]
    refine (Lays.leaf (hE.destructureOption _ _ (hp.argument hrest rfl))).bind fun x _ =>
      (lays_effect x).mono ?_
    rintro P m m' _ c - - ⟨rfl, rfl⟩ m₀ c₀ ⟨rfl, hx⟩ - -
    exact ⟨⟨x, hx, rfl⟩, flagged_effectCode x⟩
  . rw [if_neg (by simpa using hrest)]
    simp only [if_neg hrest]
    have htemp : Meets S True temp (IsTemp "tmp") S.Slot := writes_temp
    refine (Lays.leaf htemp).bind ?_
    rintro _ ⟨k, rfl⟩
    refine (Lays.leaf (hE.destructure _ _ hp)).bind fun x _ => (lays_effect _).mono ?_
    rintro P m m' _ c - - ⟨rfl, rfl⟩ m₁ c₁ ⟨rfl, hx⟩ - - m₀ c₀ ⟨rfl, -⟩ - -
    exact ⟨⟨k, x, hx, rfl⟩, flagged_effectCode _⟩

theorem Sound.lays_bindParams (hE : Sound S E) (i : Nat) {list : List Node}
    (hlist : ∀ p ∈ list, S.Fits p) :
    LaysHere S X T L (bindParams E i list) fun _ _ m' _ c =>
      ReceivesAll S E i list c ∧ Flagged m' c := by
  induction list generalizing i with
  | nil => exact .pure trivial fun _ _ => ⟨.nil, .of_eq_nil rfl⟩
  | cons p rest ih =>
    rw [List.forall_mem_cons] at hlist
    refine (hE.lays_bindParam i hlist.1).bind fun _ _ => (ih (i + 1) hlist.2).mono ?_
    rintro P m m' _ c - - ⟨hrest, hflag⟩ m₀ c₀ ⟨hp, hflag₀⟩ - hle
    exact ⟨.cons hp hrest, (hflag₀.mono hle).append hflag⟩

@[simp]
theorem reads_functionValue : S.reads "func_val" := S.reads_fixed _ (by decide)

@[simp]
theorem reads_arguments : S.reads "stk_args + 1" := S.reads_fixed _ (by decide)

@[simp]
theorem reads_argumentCount : S.reads "stk_argc" := S.reads_fixed _ (by decide)

@[simp]
theorem reads_thisValue : S.reads "this_val" := S.reads_fixed _ (by decide)

@[simp]
theorem reads_stackStart : S.reads "stk_args + 1 + stk_argc" := S.reads_fixed _ (by decide)

theorem lays_bindArguments :
    LaysHere S X T L (bindArguments S.function) fun _ _ _ _ c =>
      c = [] ∨ c = effectCode argumentsCode := by
  unfold bindArguments
  split
  . exact .pure trivial fun _ _ => .inl rfl
  . next d hd =>
    dsimp only
    refine .bindings ?_
    split
    . refine (Lays.leaf (yields_declare d ?_ ?_)).mono ?_
      . simp +decide
      . split <;> simp +decide
      . rintro P m m' _ c - - ⟨rfl, -⟩
        exact .inl rfl
    . split
      . refine (lays_effect _).mono ?_
        rintro P m m' _ c - - ⟨rfl, -⟩
        exact .inr rfl
      . exact .pure trivial fun _ _ => .inl rfl

theorem obeys_initialThis (f : Function) :
    (∀ slot, (initialThis f).Obeys (S.rules slot)) ∧ (initialThis f).traces .path = 1 := by
  unfold initialThis
  split
  . simp
  . split <;> simp +decide

theorem Sound.lays_setUp (hE : Sound S E) (hparams : ∀ p ∈ S.function.params, S.Fits p) :
    LaysHere S X T L (setUp E S.function) fun _ _ m' _ c => Opens S E c ∧ Flagged m' c := by
  have hown : ∀ {name : String} {init : C.Expr} {type : String}, name ∈ frameNames →
      (∀ slot, init.Obeys (S.rules slot)) → init.traces .path = 1 →
      Yields S (declareC { type, name, init }) fun _ => True :=
    fun hname hinit hstill => yields_declareC ⟨.inr ((by decide : ∀ s ∈ frameNames,
      C.Expr.isOwn s = false) _ hname), fun slot => .inr (hinit slot), hstill,
      .of_not ((by decide : ∀ s ∈ frameNames, C.isCellName s.toList = false) _ hname)⟩ hname
  have hthis := obeys_initialThis (S := S) S.function
  unfold setUp
  refine .afterLeafIf (u := ()) (hown (by decide) (by simp +decide) (by simp +decide))
    (fun _ h => h) fun _ => ?_
  refine .afterLeafIf (u := ()) (hown (by decide) (by simp +decide) (by simp +decide))
    (fun _ h => h) fun _ => ?_
  refine .afterLeaf (yields_emitRaw (by decide)) (fun _ h => h) fun _ => ?_
  refine .afterLeaf (hown (by decide) (by simp) (by simp)) (fun _ h => h) fun _ => ?_
  refine lays_reserveStack.bind fun _ _ => Lays.mono (F := fun _ _ m' _ c => ∃ params args,
    c = params ++ args ++ yieldCode S ∧ ReceivesAll S E 0 S.function.params params ∧
    (args = [] ∨ args = effectCode argumentsCode) ∧ Flagged m' c) ?_ ?_
  . refine .afterLeaf (yields_declareIf _ _ hthis.1 hthis.2) (fun _ h => h) fun _ => ?_
    refine .afterLeaf (yields_declareIf _ _ ?_ ?_) (fun _ h => h) fun _ => ?_
    . simp +decide
    . simp +decide
    refine .afterLeaf (yields_declareIf _ _ ?_ ?_) (fun _ h => h) fun _ => ?_
    . simp
    . simp
    refine .afterLeaf (yields_declareIf _ _ ?_ ?_) (fun _ h => h) fun _ => ?_
    . simp
    . simp
    refine .afterLeaf (yields_declareVars _) (fun _ h => h) fun _ => ?_
    refine .afterLeaf (yields_declareNames _) (fun _ h => h) fun _ => ?_
    refine (hE.lays_bindParams 0 hparams).bind fun _ _ => lays_bindArguments.bind fun _ _ => ?_
    have hyield : LaysHere S X T L (if S.function.injectYield = true then do
        effect (.callEnv Engine.yieldValue [.undefined])
        emit [.raw s!"stk_ptr = {Engine.stackBase}(env);"]
        reserveStack
      else pure ()) fun _ _ _ _ c => c = yieldCode S := by
      unfold yieldCode
      split
      . refine (lays_effect _).bind fun _ _ => (lays_emit _).bind fun _ _ =>
          lays_reserveStack.mono ?_
        rintro P m m' _ c - - ⟨rfl, rfl⟩ m₁ c₁ ⟨rfl, rfl⟩ - - m₀ c₀ ⟨rfl, rfl⟩ - -
        rfl
      . exact .pure trivial fun _ _ => rfl
    refine hyield.mono ?_
    rintro P m m' _ c hle - rfl m₁ c₁ hargs hle₁ - m₀ c₀ ⟨hparams, hflag⟩ - hle₀
    refine ⟨c₀, c₁, by simp, hparams, hargs, (hflag.mono hle₀).append (.append ?_ ?_)⟩
    . rcases hargs with rfl | rfl
      . exact .of_eq_nil rfl
      . exact flagged_effectCode _
    . unfold yieldCode
      split
      . exact (flagged_effectCode _).append (flagged_effectCode _)
      . exact .of_eq_nil rfl
  . rintro P m m' _ c hle - ⟨params, args, rfl, hparams, hargs, hflag⟩ m₀ c₀ ⟨rfl, rfl⟩ - -
    have hopens := Opens.mk (S := S) (E := E) hparams hargs
    simp only [List.append_assoc] at hopens
    simp only [List.append_assoc] at hflag ⊢
    exact ⟨hopens, (flagged_effectCode _).append hflag⟩

structure Setting.FitsFunction (S : Setting) : Prop where
  stack : S.stack = 0
  params : ∀ p ∈ S.function.params, S.Fits p
  body : ∀ c ∈ S.function.body.items, S.Fits c
  whole : S.Whole

abbrev Setting.eval (S : Setting) : Eval := .upTo S.function.node.height

theorem lays_functionBody (hS : S.FitsFunction) :
    LaysHere S [] [] [] (do
        setUp S.eval S.function
        statements (statement S.eval) S.function.body.items
        if !endsByLeaving S.function.body.items then returnFrom .undefined) fun P m m' _ c =>
      ∃ opens body ends mid, c = opens ++ body ++ ends ∧ Opens S S.eval opens ∧
        Laid S S.eval ⟨[], [], P⟩ m.last mid (.list S.function.body.items) body ∧
        if endsByLeaving S.function.body.items then ends = []
        else Returns S ⟨[], [], P⟩ mid m'.last .undefined ends := by
  have hE : Sound S S.eval := sound_upTo _
  refine (hE.lays_setUp hS.params).bind fun _ _ => ?_
  have hheight : ∀ c ∈ S.function.body.items, S.Low S.function.body.height c := fun c hc =>
    ⟨Nat.le_of_lt (Node.height_lt (Node.holds_of_mem_items hc)), hS.body c hc⟩
  refine ((laysUpTo_statement hE hS.whole _).statements hheight).bind fun _ _ => ?_
  cases endsByLeaving S.function.body.items with
  | true =>
    refine .pure trivial ?_
    rintro P m m₁ c₁ ⟨hlaid, -⟩ - - m₀ c₀ ⟨hopens, -⟩ hle -
    exact ⟨c₀, c₁, [], _, by simp, hopens, .widen hlaid hle.last (Nat.le_refl _), rfl⟩
  | false =>
    refine (lays_returnFrom hS.whole _).mono ?_
    rintro P m m' _ c - - ⟨hreturns, -⟩ m₁ c₁ ⟨hlaid, -⟩ - - m₀ c₀ ⟨hopens, -⟩ hle -
    exact ⟨c₀, c₁, c, _, by simp, hopens, .widen hlaid hle.last (Nat.le_refl _), hreturns⟩

theorem functionBlock_bodied (hS : S.FitsFunction) {w : Writer}
    (hw : w.names.Proper S.bindings w.lastName) :
    (∀ st w', Runs S.plan (functionBlock S.fn) w st w' → w'.names.Proper S.bindings w'.lastName ∧
      w.names.Le w'.names ∧ (S.final w'.names → Bodied S S.eval st.core)) ∧
    ∀ f, Fails S.plan (functionBlock S.fn) w f → S.faults f := by
  -- The first block of the function is the first block that is open at all.
  have hstage : Stage S [] [] [] { w with
      fn := S.fn, frames := Frames.push {}, body := [], stack := 0, chain := none, exits := []
      targets := [], labels := [], breaks := [], continues := [], pending := [] } := {
    ready := ⟨rfl, hS.stack.symm, hw, nofun, by simp [Frames.push]⟩
    chain := rfl
    exits := rfl
    targets := rfl
    labels := rfl
    known := nofun
    distinct := .nil
    finals := .nil
    old := nofun
    fresh := fun _ _ => rfl
    routed := fun Y f Z h => absurd h.symm (by simp) }
  obtain ⟨hruns, hfails⟩ := lays_functionBody hS _ hstage
  constructor
  . intro st w' hr
    obtain ⟨_, v, hv, hr⟩ := runs_bind.1 hr
    obtain rfl := runs_modify.1 hv
    obtain ⟨f, v, hf, hr⟩ := runs_bind.1 hr
    obtain ⟨rfl, rfl⟩ := runs_function.1 hf
    obtain ⟨r, v, hinner, hr⟩ := runs_bind.1 hr
    obtain ⟨rfl, rfl⟩ := runs_pure.1 hr
    obtain ⟨z, frames, hz, hpop, hbody, rfl⟩ := runs_inBlock.1 hinner
    obtain ⟨hz', -, code, hstep, hF⟩ := hruns _ z hz
    obtain ⟨decls, hdecls, hadded⟩ := hstep.frames
    rw [Frames.pop, hdecls] at hpop
    injection hpop with hpop
    obtain ⟨hr₁, -⟩ := Prod.mk.inj hpop
    refine ⟨hz'.ready.names, hstep.names, fun hfinal => ?_⟩
    obtain ⟨list, hlist, rfl⟩ := hstep.body
    have hlist : z.body = list := hlist
    obtain ⟨opens, c, ends, mid, hcode, hopens, hlaid, hends⟩ := hF hfinal (fun _ => {}) nofun
    change Bodied S S.eval (.block r.1 (Stmt.coreList r.2))
    rw [hbody, hlist, hcode, ← hr₁]
    exact .mk hadded.silent hopens hlaid hends
  . intro f hf
    rcases fails_bind.1 hf with hf | ⟨_, v, hv, hf⟩
    . exact absurd hf not_fails_modify
    obtain rfl := runs_modify.1 hv
    rcases fails_bind.1 hf with hf | ⟨g, v, hg, hf⟩
    . exact absurd hf not_fails_function
    obtain ⟨rfl, rfl⟩ := runs_function.1 hg
    rcases fails_bind.1 hf with hf | ⟨r, v, -, hf⟩
    . rcases fails_inBlock hf with hf | ⟨z, e, hz, he⟩
      . exact hfails f hf
      . obtain ⟨-, -, code, hstep, -⟩ := hruns _ z hz
        obtain ⟨decls, hdecls, -⟩ := hstep.frames
        rw [Frames.pop, hdecls] at he
        cases he
    . exact absurd hf not_fails_pure

structure Knowledge (plan : Plan) where
  at_ : Nat → Setting
  plan_eq : ∀ fn, (at_ fn).plan = plan
  fn_eq : ∀ fn, (at_ fn).fn = fn

theorem functionBlocks_bodied {plan : Plan} (A : Knowledge plan) {list : List Nat}
    (hlist : ∀ fn ∈ list, (A.at_ fn).FitsFunction) {w : Writer}
    (hw : w.names.Proper plan.analysis.bindings w.lastName) :
    (∀ blocks w', Runs plan (functionBlocks list) w blocks w' →
      w'.names.Proper plan.analysis.bindings w'.lastName ∧ w.names.Le w'.names ∧
        ((∀ fn ∈ list, (A.at_ fn).final w'.names) →
        List.Forall₂ (fun fn st => Bodied (A.at_ fn) (A.at_ fn).eval st.core) list blocks)) ∧
    ∀ f, Fails plan (functionBlocks list) w f → ∃ fn ∈ list, (A.at_ fn).faults f := by
  induction list generalizing w with
  | nil =>
    refine ⟨fun blocks w' hr => ?_, fun f hf => absurd hf not_fails_pure⟩
    obtain ⟨rfl, rfl⟩ := runs_pure.1 hr
    exact ⟨hw, .refl _, fun _ => .nil⟩
  | cons fn rest ih =>
    rw [List.forall_mem_cons] at hlist
    have hbindings : (A.at_ fn).bindings = plan.analysis.bindings := by
      rw [Setting.bindings, A.plan_eq]
    obtain ⟨hruns, hfails⟩ := functionBlock_bodied hlist.1 (hbindings ▸ hw)
    rw [A.plan_eq, A.fn_eq, hbindings] at hruns
    rw [A.plan_eq, A.fn_eq] at hfails
    constructor
    . intro blocks w' hr
      obtain ⟨st, v, hst, hr⟩ := runs_bind.1 hr
      obtain ⟨more, v', hmore, hr⟩ := runs_bind.1 hr
      obtain ⟨rfl, rfl⟩ := runs_pure.1 hr
      obtain ⟨hv, hle, hbodied⟩ := hruns st v hst
      obtain ⟨hw', hle', hforall⟩ := (ih hlist.2 hv).1 more w' hmore
      refine ⟨hw', hle.trans hle', fun hfinal => ?_⟩
      rw [List.forall_mem_cons] at hfinal
      exact .cons (hbodied ((A.at_ fn).final_of_le hle' hfinal.1)) (hforall hfinal.2)
    . intro f hf
      rcases fails_bind.1 hf with hf | ⟨st, v, hst, hf⟩
      . exact ⟨fn, List.mem_cons_self, hfails f hf⟩
      obtain ⟨hv, -⟩ := hruns st v hst
      rcases fails_bind.1 hf with hf | ⟨more, v', -, hf⟩
      . obtain ⟨fn', hfn', hf⟩ := (ih hlist.2 hv).2 f hf
        exact ⟨fn', List.mem_cons_of_mem _ hfn', hf⟩
      . exact absurd hf not_fails_pure

def startOf (plan : Plan) : Writer :=
  { literals := plan.analysis.literals, lastName := plan.analysis.bindings.counters.name }

theorem proper_startOf (plan : Plan) :
    (startOf plan).names.Proper plan.analysis.bindings (startOf plan).lastName := by
  constructor
  . intro d s hs
    simp [startOf, CNames.name?] at hs
  . intro d s hs
    simp [startOf, CNames.name?] at hs
  . intro d d' s hs
    simp [startOf, CNames.name?] at hs

/--
How a file is written: the code of all functions first, which leaves `v`, and then the function that
the whole script is.
-/
structure FileRun (plan : Plan) (code : String) (blocks : List C.Stmt) (v : Writer)
    (program : C.Expr) (w : Writer) : Prop where
  functions : Runs plan (functionBlocks (List.range plan.analysis.bindings.functions.size))
    (startOf plan) blocks v
  main : Runs plan programFunction v program w
  text : code = C.textOf (fileLines plan w blocks program)

structure Written (plan : Plan) (code : String) (blocks : List C.Stmt) : Prop where
  file : ∃ v program w, Runs plan (functionBlocks
    (List.range plan.analysis.bindings.functions.size))
    (startOf plan) blocks v ∧ Runs plan programFunction v program w ∧
    code = C.textOf (fileLines plan w blocks program)

theorem Written.exists_run {plan : Plan} {code : String} {blocks : List C.Stmt}
    (h : Written plan code blocks) : ∃ v program w, FileRun plan code blocks v program w := by
  obtain ⟨v, program, w, hfunctions, hmain, htext⟩ := h.file
  exact ⟨v, program, w, hfunctions, hmain, htext⟩

def ordinary (plan : Plan) : Knowledge plan where
  at_ fn := (Calls.total plan fn (fun fn _ => Engine.isOrdinary fn ∨ fn = Engine.newFunction)
    (fun _ _ => id) (fun _ => True) (fun _ _ => trivial) (fun _ => True) fun _ _ => trivial).setting
  plan_eq _ := rfl
  fn_eq _ := rfl

theorem fitsFunction_ordinary (plan : Plan) (fn : Nat) : ((ordinary plan).at_ fn).FitsFunction := by
  have htotal : ((ordinary plan).at_ fn).Total :=
    ⟨fun _ => trivial, fun _ => trivial, fun _ => trivial⟩
  have hfits (n : Node) : ((ordinary plan).at_ fn).Fits n :=
    Setting.fits_of_reserved_none rfl fun m _ => htotal.suits False.elim
  exact ⟨rfl, fun p _ => hfits p, fun c _ => hfits c, htotal.whole⟩

theorem written_of_compile {plan : Plan} {c : Compiled} (h : plan.compile = .ok c) :
    ∃ blocks, Written plan c.code blocks := by
  unfold Plan.compile at h
  cases hfile : (Lower.file.run plan).run (startOf plan) with
  | error f =>
    simp only [startOf] at hfile
    simp [hfile, bind, Except.bind] at h
  | ok r =>
    obtain ⟨code, w⟩ := r
    have hcode : c.code = code := by
      simp only [startOf] at hfile
      simp only [hfile, bind, Except.bind, pure, Except.pure, Except.ok.injEq] at h
      rw [← h]
    obtain ⟨p, v₀, hread, hrest⟩ := runs_bind.1 (show Runs plan Lower.file (startOf plan)
      code w from hfile)
    obtain ⟨rfl, rfl⟩ := runs_read.1 hread
    obtain ⟨blocks, v₁, hblocks, hrest⟩ := runs_bind.1 hrest
    obtain ⟨program, v₂, hprogram, hrest⟩ := runs_bind.1 hrest
    obtain ⟨v, v₃, hget, hpure⟩ := runs_bind.1 hrest
    obtain ⟨rfl, rfl⟩ := runs_get.1 hget
    exact ⟨blocks, ⟨v₁, program, _, hblocks, hprogram, hcode.trans (runs_pure.1 hpure).1⟩⟩

theorem fails_of_compile {plan : Plan} {f : Fault} (h : plan.compile = .error f) :
    Fails plan file (startOf plan) f := by
  unfold Plan.compile at h
  cases hfile : (Lower.file.run plan).run (startOf plan) with
  | error f' =>
    simp only [startOf] at hfile
    simp only [hfile, bind, Except.bind, Except.error.injEq] at h
    rw [← h]
    exact hfile
  | ok r =>
    simp only [startOf] at hfile
    simp [hfile, bind, Except.bind, pure, Except.pure] at h

structure Started (plan : Plan) (w : Writer) : Prop where
  names : w.names.Proper plan.analysis.bindings w.lastName
  frames : w.frames.blocks ≠ []

theorem faults_of_compile {plan : Plan} (A : Knowledge plan)
    (hA : ∀ fn, (A.at_ fn).FitsFunction) {f : Fault} (h : plan.compile = .error f) :
    (∃ fn, (A.at_ fn).faults f) ∨
      ∃ w, Started plan w ∧ w.fn = 0 ∧ Fails plan (newFunction 0) w f := by
  rcases fails_bind.1 (fails_of_compile h) with hf | ⟨p, w₁, hp, hf⟩
  . exact (not_fails_read hf).elim
  obtain ⟨rfl, rfl⟩ := runs_read.1 hp
  rcases fails_bind.1 hf with hf | ⟨blocks, w₂, hblocks, hf⟩
  . obtain ⟨fn, -, hf⟩ :=
      (functionBlocks_bodied A (fun fn _ => hA fn) (proper_startOf p)).2 f hf
    exact .inl ⟨fn, hf⟩
  rcases fails_bind.1 hf with hf | ⟨program, w₃, -, hf⟩
  . rcases fails_bind.1 hf with hf | ⟨_, w₃, hmodify, hf⟩
    . exact (not_fails_modify hf).elim
    . obtain rfl := runs_modify.1 hmodify
      have hnames := ((functionBlocks_bodied A (fun fn _ => hA fn)
        (proper_startOf p)).1 _ _ hblocks).1
      refine .inr ⟨_, ?_, ?_, hf⟩
      . exact ⟨hnames, by simp [Frames.push]⟩
      . rfl
  rcases fails_bind.1 hf with hf | ⟨_, w₄, -, hf⟩
  . exact (not_fails_get hf).elim
  . exact (not_fails_pure hf).elim

theorem exists_of_compileTree {source : Source} {settings : Settings} {tree : Node} {nodes : Nat}
    {c : Compiled} (h : (compileTree source settings tree nodes).result = .ok c) :
    ∃ e b a, Extraction.of tree ⟨nodes, nameSeed source.shownPath⟩ = .ok e ∧
      Bindings.of e = .ok b ∧ Analysis.of b = .ok a ∧
      Plan.compile { analysis := a, source, settings } = .ok c := by
  unfold compileTree at h
  split at h
  . cases h
  . next e he =>
    dsimp only at h
    split at h
    . cases h
    . next b hb =>
      split at h
      . cases h
      . next a ha =>
        split at h
        . cases h
        . next c' hc =>
          cases h
          exact ⟨e, b, a, he, hb, ha, hc⟩

theorem Written.bodied {plan : Plan} {code : String} {blocks : List C.Stmt}
    (h : Written plan code blocks) :
    List.Forall₂ (fun fn b => Bodied ((ordinary plan).at_ fn) ((ordinary plan).at_ fn).eval b.core)
      (List.range plan.analysis.bindings.functions.size) blocks := by
  obtain ⟨v, program, w, hr, -, -⟩ := h.file
  obtain ⟨-, -, hbodied⟩ := (functionBlocks_bodied (ordinary plan)
    (fun fn _ => fitsFunction_ordinary plan fn) (proper_startOf plan)).1 blocks v hr
  exact hbodied fun _ _ => trivial

theorem Written.forall_mem {plan : Plan} {code : String} {blocks : List C.Stmt}
    (h : Written plan code blocks) {p : C.Stmt → Prop} (hp : ∀ fn b,
      Bodied ((ordinary plan).at_ fn) ((ordinary plan).at_ fn).eval b.core → p b) :
    ∀ b ∈ blocks, p b := by
  have hbodied := h.bodied
  clear h
  generalize List.range _ = list at hbodied
  induction hbodied with
  | nil => exact nofun
  | cons hb _ ih => exact List.forall_mem_cons.2 ⟨hp _ _ hb, ih⟩

end ScriptC.Lower
