import Mathlib.Logic.Function.Basic
import ScriptC.Proofs.Lower.Expression

/-!
The form of the code of statements, as a relation between a tree and a list of C statements. The
numbers that went into C names while a statement was written lie in an interval; comments and lines
of text are left out.
-/

namespace ScriptC

namespace C.Stmt

def placed : List Stmt → List String
  | [] => []
  | .label l :: rest => l :: placed rest
  | _ :: rest => placed rest

mutual

def escapes : Stmt → List String
  | .goto l => [l]
  | .block _ body | .loop _ body => (jumps body).filter fun l => !(placed body).contains l
  | .branch _ a b => a.escapes ++ b.escapes
  | _ => []

def jumps : List Stmt → List String
  | [] => []
  | st :: rest => st.escapes ++ jumps rest

end

variable {st : Stmt} {l : String} {code rest : List Stmt}

@[simp]
theorem placed_append : placed (code ++ rest) = placed code ++ placed rest := by
  induction code with
  | nil => rfl
  | cons st code ih => cases st <;> simp [placed, ih]

@[simp]
theorem jumps_nil : jumps [] = [] := rfl

theorem jumps_cons : jumps (st :: rest) = st.escapes ++ jumps rest := rfl

@[simp]
theorem jumps_append : jumps (code ++ rest) = jumps code ++ jumps rest := by
  induction code with
  | nil => rfl
  | cons st code ih => rw [List.cons_append, jumps_cons, ih, jumps_cons, List.append_assoc]

@[simp]
theorem mem_escapes_block {decls : List Decl} :
    l ∈ (Stmt.block decls code).escapes ↔ l ∈ jumps code ∧ l ∉ placed code := by
  change l ∈ (jumps code).filter _ ↔ _
  simp

@[simp]
theorem mem_escapes_loop {decls : List Decl} :
    l ∈ (Stmt.loop decls code).escapes ↔ l ∈ jumps code ∧ l ∉ placed code := by
  change l ∈ (jumps code).filter _ ↔ _
  simp

end C.Stmt

namespace Lower

open C

inductive Spot where
  | stop (id : Nat)
  | skip (id : Nat)
  | done (id : Nat)
  | case (id index : Nat)
  | final (id : Nat)
  deriving DecidableEq

def Spot.name : Spot → String
  | .stop id => s!"brk_{id}"
  | .skip id => s!"cont_{id}"
  | .done id => s!"done_{id}"
  | .case id index => caseLabel id index
  | .final id => s!"fin_{id}"

theorem Spot.toList_name (p : Spot) :
    p.name.toList =
      match p with
      | .stop id => "brk_".toList ++ id.repr.toList
      | .skip id => "cont_".toList ++ id.repr.toList
      | .done id => "done_".toList ++ id.repr.toList
      | .case id index => "case_".toList ++ (id.repr.toList ++ '_' :: index.repr.toList)
      | .final id => "fin_".toList ++ id.repr.toList := by
  cases p <;> simp [Spot.name, caseLabel, toString]

theorem Spot.name_inj {p q : Spot} : p.name = q.name ↔ p = q := by
  refine ⟨fun h => ?_, fun h => h ▸ rfl⟩
  have h := congrArg String.toList h
  rw [toList_name, toList_name] at h
  cases p <;> cases q <;> simp [C.toDigits_inj] at h ⊢
  case stop.stop => exact h
  case skip.skip => exact h
  case done.done => exact h
  case final.final => exact h
  case case.case =>
    rw [List.append_cons_inj_of_notMem (C.notMem_toDigits _) (C.notMem_toDigits _)] at h
    exact ⟨C.toDigits_inj.1 h.1, C.toDigits_inj.1 h.2.2⟩

/--
Where a statement is written: the open obligations, the statements that can be left, and the exits
that go through each `finally` block in the end.
-/
structure Scene where
  exits : List Exit
  targets : List Target
  pending : Nat → Pending

namespace Scene

def within (K : Scene) (x : Exit) : Scene := { K with exits := x :: K.exits }

def opening (K : Scene) (t : Target) : Scene := { K with targets := t :: K.targets }

def finalizing (K : Scene) (f : Finalizer) (p : Pending) : Scene :=
  { K with exits := .finalizer f :: K.exits, pending := Function.update K.pending f.id p }

def iterating (K : Scene) (n : Node) (it : String) : Scene :=
  { K with exits := if n.kind = .forOfStatement then .iterator it :: K.exits else K.exits }

end Scene

def Given {α : Type} (S : Setting) (act : Lower α) (a : α) : Prop :=
  ∃ w w', S.Ready w ∧ Runs S.plan act w a w' ∧ S.final w'.names

section Given

variable {α : Type} {S : Setting} {pre : Prop} {act : Lower α} {P₀ P : α → Prop} {a : α}

theorem Given.yields (h : Given S act a) (hact : Meets S pre act P₀ P) : P₀ a := by
  obtain ⟨w, w', hw, hr, -⟩ := h
  exact ((hact w hw).1 a w' hr).2.2.1

theorem Given.writes (h : Given S act a) (hact : Meets S pre act P₀ P) (hshows : ∀ f, S.shows f)
    (hpre : pre) : P a := by
  obtain ⟨w, w', hw, hr, hfinal⟩ := h
  exact ((hact w hw).1 a w' hr).2.2.2 hpre hfinal (hshows _)

end Given

def effectCode (e : C.Expr) : List C.Stmt := if isIdle e then [] else [.expr e]

theorem effectCode_callEnv {fn : String} {args : List C.Expr} (h : fn ≠ Engine.makeNumber) :
    effectCode (.callEnv fn args) = [.expr (.callEnv fn args)] := by
  have hfn : (fn == Engine.makeNumber) = false := beq_eq_false_iff_ne.2 h
  simp [effectCode, isIdle, C.Expr.callEnv, C.Expr.isConstant, hfn]

@[simp]
theorem effectCode_set {x y : C.Expr} : effectCode (.set x y) = [.expr (.set x y)] := rfl

def throughFinally (f : Finalizer) (code : Nat) : List C.Stmt :=
  [.expr (.set (.var f.code) (.nat code)), unregister f.handler, .goto f.label]

inductive Leaves (final : Finalizer → List C.Stmt → Prop) (done : List C.Stmt → Prop) :
    List Exit → List C.Stmt → Prop where
  | done {c : List C.Stmt} (h : done c) : Leaves final done [] c
  | handler {name : String} {rest : List Exit} {c : List C.Stmt} (h : Leaves final done rest c) :
    Leaves final done (.handler name :: rest) (unregister name :: c)
  | withBody {rest : List Exit} {c : List C.Stmt} (h : Leaves final done rest c) :
    Leaves final done (.withBody :: rest) (.expr (.callEnv Engine.popWith []) :: c)
  | iterator {name : String} {rest : List Exit} {c : List C.Stmt} (h : Leaves final done rest c) :
    Leaves final done (.iterator name :: rest)
      (.expr (.callEnv Engine.closeIterator [.var name]) :: c)
  | finalizer {f : Finalizer} {rest : List Exit} {c : List C.Stmt} (h : final f c) :
    Leaves final done (.finalizer f :: rest) c

def Target.labelFor (t : Target) (continues : Bool) : String :=
  if continues then t.continueLabel else t.breakLabel

def Admits (T : List Target) (t : Target) (continues : Bool) : Prop :=
  t ∈ T ∧ (continues = true → t.isLoop = true)

def Jumps (K : Scene) (t : Target) (continues : Bool) : List C.Stmt → Prop :=
  Leaves
    (fun f c => ∃ i, (K.pending f.id).jumps[i]? = some (t, continues) ∧
      c = throughFinally f (Pending.jumpCode i))
    (fun c => c = [.goto (Target.labelFor t continues)])
    (K.exits.take (K.exits.length - t.depth))

inductive Returns (S : Setting) (K : Scene) (lo hi : Nat) (v : C.Expr) : List C.Stmt → Prop where
  | here {r : C.Expr} (hexits : K.exits = []) (hle : lo ≤ hi) (hr : Given S (resultOf v) r) :
    Returns S K lo hi v [.ret r]
  | leaving {id : Nat} {c : List C.Stmt} (hexits : K.exits ≠ []) (hlo : lo < id) (hhi : id ≤ hi)
    (hc : Leaves
      (fun f c => (K.pending f.id).returns = true ∧
        c = .expr (.set (.var f.value) (.var (temporaryName "tmp" id))) ::
          throughFinally f Pending.returnCode)
      (fun c => ∃ r, Given S (resultOf (.var (temporaryName "tmp" id))) r ∧ c = [.ret r])
      K.exits c) :
    Returns S K lo hi v (.expr (.set (.var (temporaryName "tmp" id)) v) :: c)

inductive ResumesJumps (S : Setting) (K : Scene) (f : Finalizer) :
    Nat → List (Target × Bool) → List C.Stmt → Prop where
  | nil {i : Nat} : ResumesJumps S K f i [] []
  | cons {i : Nat} {t : Target} {continues : Bool} {rest : List (Target × Bool)}
    {decls : List C.Decl} {jump c : List C.Stmt} (ht : Admits K.targets t continues)
    (hdecls : ∀ d ∈ decls, S.Silent d) (hjump : Jumps K t continues jump)
    (hc : ResumesJumps S K f (i + 1) rest c) :
    ResumesJumps S K f i ((t, continues) :: rest)
      (.branch (isLeft f (Pending.jumpCode i)) (.block decls jump) .missing :: c)

inductive ResumesReturn (S : Setting) (K : Scene) (lo hi : Nat) (f : Finalizer) :
    Bool → List C.Stmt → Prop where
  | none (hle : lo ≤ hi) : ResumesReturn S K lo hi f false []
  | some {decls : List C.Decl} {c : List C.Stmt} (hdecls : ∀ d ∈ decls, S.Silent d)
    (hc : Returns S K lo hi (.var f.value) c) :
    ResumesReturn S K lo hi f true
      [.branch (isLeft f Pending.returnCode) (.block decls c) .missing]

def leaveCode (test : C.Expr) (t : Target) : List C.Stmt :=
  match test with
  | .raw "1" true => []
  | _ => [.branch (.not test) (.goto t.breakLabel) .missing]

def Ends (l : String) (code c : List C.Stmt) : Prop :=
  c = [.label l] ∨ c = [] ∧ l ∉ Stmt.jumps code

def Setting.declOf (S : Setting) (site : Node) : Nat :=
  ((site.part? .name).bind S.bindings.resolved?).getD 0

def Stores (S : Setting) (site : Node) (code : List C.Stmt) : Prop :=
  ∃ x y, Given S (storeCode site (S.declOf site)) x ∧ Given S (aliasCode site (S.declOf site)) y ∧
    code = effectCode x ++ effectCode y

inductive Tests (S : Setting) (E : Eval) (id : Nat) (d : C.Expr) :
    Nat → List Node → Option String → Option String → List C.Stmt → Prop where
  | nil {i : Nat} {dflt : Option String} : Tests S E id d i [] dflt dflt []
  | default {i : Nat} {n : Node} {rest : List Node} {dflt out : Option String} {c : List C.Stmt}
    (hn : n.part? .test = none) (hc : Tests S E id d (i + 1) rest (some (caseLabel id i)) out c) :
    Tests S E id d i (n :: rest) dflt out c
  | test {i : Nat} {n m : Node} {rest : List Node} {dflt out : Option String} {v x : C.Expr}
    {c : List C.Stmt} (hn : n.part? .test = some m) (hv : Given S (E.expr (some m)) v)
    (hx : Given S (equal Engine.strictEq d v) x) (hc : Tests S E id d (i + 1) rest dflt out c) :
    Tests S E id d i (n :: rest) dflt out
      (.branch x (.goto (caseLabel id i)) .missing :: c)

def findTarget? (name : String) (continues : Bool) : List Target → Option Target
  | [] => none
  | t :: rest =>
    if name.isEmpty then
      if (continues && t.isLoop) || (!continues && t.isPlain) then some t
      else findTarget? name continues rest
    else if t.labels.contains name then if continues && !t.isLoop then none else some t
    else findTarget? name continues rest

inductive Item where
  | statement (labels : List String) (n : Node)
  | list (list : List Node)
  | option (n : Option Node)
  | block (n : Node)
  | arm (n : Option Node)
  | cases (id index : Nat) (list : List Node)
  | catching (n : Node)

def Row (S : Setting) (E : Eval) (n : Node) (code : List C.Stmt) : Prop :=
  match n.label with
  | .empty | .debuggerStatement => code = []
  | .expressionStatement =>
    match n.part? .expression with
    | none => code = []
    | some e => ∃ x, Given S (E.discard e) x ∧ code = effectCode x
  | .variableDeclaration binds =>
    ∃ list, List.Forall₂ (fun d x => Given S (declaratorCode E binds d) x) n.items list ∧
      code = list.flatMap effectCode
  | .functionDeclaration _ => Stores S n code
  | .classDeclaration => ∃ x, Given S (classCode E n) x ∧ code = effectCode x
  | .throwStatement =>
    ∃ x, Given S (E.expr (n.part? .argument)) x ∧ code = [.expr (.callEnv Engine.throwValue [x])]
  | _ => False

def Begins (S : Setting) (E : Eval) (n : Option Node) (code : List C.Stmt) : Prop :=
  match n with
  | none => code = []
  | some init =>
    match init.label with
    | .variableDeclaration binds =>
      ∃ list, List.Forall₂ (fun d x => Given S (declaratorCode E binds d) x) init.items list ∧
        code = list.flatMap effectCode
    | _ => ∃ x, Given S (E.discard init) x ∧ code = effectCode x

def Continues (S : Setting) (E : Eval) (t : Target) (n : Option Node) (code : List C.Stmt) : Prop :=
  match n with
  | none => code = []
  | some test => ∃ x, Given S (E.test (some test)) x ∧ code = leaveCode x t

def Updates (S : Setting) (E : Eval) (n : Option Node) (code : List C.Stmt) : Prop :=
  match n with
  | none => code = []
  | some update => ∃ x, Given S (E.discard update) x ∧ code = effectCode x

def passesCode (it done : String) (decls : List C.Decl) (y : C.Expr) (body skip : List C.Stmt) :
    C.Stmt :=
  .loop decls (.branch (.not (.callEnv Engine.nextIterator [.var it])) (.goto done) .missing ::
    (effectCode y ++ body ++ skip))

def ownDecls (f : Finalizer) : List C.Decl :=
  [{ type := "int", name := f.code, init := .lit "0", isVolatile := true },
    { type := Engine.typeValue, name := f.value, isVolatile := true }]

def Finalizes (S : Setting) (f : Finalizer) (decls : List C.Decl) : Prop :=
  ∃ a b, decls = a ++ ownDecls f ++ b ∧ (∀ d ∈ a, S.Silent d) ∧ ∀ d ∈ b, S.Silent d

inductive Laid (S : Setting) (E : Eval) : Scene → Nat → Nat → Item → List C.Stmt → Prop where
  | widen {K lo lo' hi hi' item c} (hc : Laid S E K lo hi item c) (hlo : lo' ≤ lo)
    (hhi : hi ≤ hi') :
    Laid S E K lo' hi' item c
  | nil {K lo hi} (hle : lo ≤ hi) : Laid S E K lo hi (.list []) []
  | cons {K lo mid hi n rest a b} (ha : Laid S E K lo mid (.statement [] n) a)
    (hb : Laid S E K mid hi (.list rest) b) : Laid S E K lo hi (.list (n :: rest)) (a ++ b)
  | absent {K lo hi} (hle : lo ≤ hi) : Laid S E K lo hi (.option none) []
  | present {K lo hi n c} (hc : Laid S E K lo hi (.statement [] n) c) :
    Laid S E K lo hi (.option (some n)) c
  | items {K lo hi n c decls} (hn : n.kind = .block) (hdecls : ∀ d ∈ decls, S.Silent d)
    (hc : Laid S E K lo hi (.list n.items) c) : Laid S E K lo hi (.block n) [.block decls c]
  | own {K lo hi n c decls} (hn : n.kind ≠ .block) (hdecls : ∀ d ∈ decls, S.Silent d)
    (hc : Laid S E K lo hi (.statement [] n) c) : Laid S E K lo hi (.block n) [.block decls c]
  | noArm {K lo hi} (hle : lo ≤ hi) : Laid S E K lo hi (.arm none) [.missing]
  | arm {K lo hi n c} (hc : Laid S E K lo hi (.block n) c) : Laid S E K lo hi (.arm (some n)) c
  | row {K lo hi labels n c} (hle : lo ≤ hi) (hc : Row S E n c) :
    Laid S E K lo hi (.statement labels n) c
  | block {K lo hi labels n c} (hn : n.kind = .block) (hc : Laid S E K lo hi (.block n) c) :
    Laid S E K lo hi (.statement labels n) c
  | ifElse {K lo mid mid' hi labels n x a b} (hn : n.kind = .ifStatement) (hlo : lo ≤ mid)
    (hx : Given S (E.test (n.part? .test)) x)
    (ha : Laid S E K mid mid' (.arm (n.part? .consequent)) [a])
    (hb : Laid S E K mid' hi (.arm (n.part? .alternate)) [b]) :
    Laid S E K lo hi (.statement labels n) [.branch x a b]
  | whileLoop {K lo mid hi labels n t x body skip stop decls} (hn : n.kind = .whileStatement)
    (ht : t = ⟨t.id, labels, true, true, K.exits.length⟩) (hlo : lo < t.id) (hmid : t.id ≤ mid)
    (hx : Given S (E.test (n.part? .test)) x) (hdecls : ∀ d ∈ decls, S.Silent d)
    (hbody : Laid S E (K.opening t) mid hi (.option (n.part? .body)) body)
    (hskip : Ends t.continueLabel body skip)
    (hstop : Ends t.breakLabel [.loop decls (leaveCode x t ++ body ++ skip)] stop) :
    Laid S E K lo hi (.statement labels n)
      (.loop decls (leaveCode x t ++ body ++ skip) :: stop)
  | doLoop {K lo mid mid' hi labels n t x body skip stop decls} (hn : n.kind = .doWhileStatement)
    (ht : t = ⟨t.id, labels, true, true, K.exits.length⟩) (hlo : lo < t.id) (hmid : t.id ≤ mid)
    (hbody : Laid S E (K.opening t) mid mid' (.option (n.part? .body)) body)
    (hhi : mid' ≤ hi) (hx : Given S (E.test (n.part? .test)) x)
    (hdecls : ∀ d ∈ decls, S.Silent d) (hskip : Ends t.continueLabel body skip)
    (hstop : Ends t.breakLabel [.loop decls (body ++ skip ++ leaveCode x t)] stop) :
    Laid S E K lo hi (.statement labels n)
      (.loop decls (body ++ skip ++ leaveCode x t) :: stop)
  | forLoop {K lo mid mid' hi labels n t copies begins goes body skip updates stop decls decls'}
    (hn : n.kind = .forStatement) (hcopies : Given S (headCopies n) copies)
    (hbegins : Begins S E (n.part? .init) begins)
    (ht : t = ⟨t.id, labels, true, true, K.exits.length⟩) (hlo : lo < t.id) (hmid : t.id ≤ mid)
    (hgoes : Continues S E t (n.part? .test) goes)
    (hbody : Laid S E (K.opening t) mid mid' (.option (n.part? .body)) body)
    (hhi : mid' ≤ hi) (hskip : Ends t.continueLabel body skip)
    (hupdates : Updates S E (n.part? .update) updates) (hdecls : ∀ d ∈ decls, S.Silent d)
    (hdecls' : ∀ d ∈ decls', S.Silent d)
    (hstop : Ends t.breakLabel [.loop decls' (goes ++ body ++ skip ++ copies ++ updates)] stop) :
    Laid S E K lo hi (.statement labels n)
      [.block decls (begins ++ copies ++
        .loop decls' (goes ++ body ++ skip ++ copies ++ updates) :: stop)]
  | iteration {K lo mid hi labels n t x y body skip stop decls decls'} {it done : String}
    {k id : Nat} (hn : n.kind = .forInStatement ∨ n.kind = .forOfStatement)
    (hit : it = temporaryName "it" k) (hdone : done = (Spot.done id).name) (hk : lo < k)
    (hx : Given S (E.expr (n.part? .right)) x) (hid : k < id) (ht' : id < t.id)
    (ht : t = ⟨t.id, labels, true, true, (K.iterating n it).exits.length⟩) (hmid : t.id ≤ mid)
    (hy : Given S (currentCode E (n.part? .left) (.var (it ++ "[2]"))) y)
    (hbody : Laid S E ((K.iterating n it).opening t) mid hi (.option (n.part? .body)) body)
    (hskip : Ends t.continueLabel body skip)
    (hdecls : ∀ d ∈ decls, S.Silent d) (hdecls' : ∀ d ∈ decls', S.Silent d)
    (hstop : Ends t.breakLabel [passesCode it done decls' y body skip] stop) :
    Laid S E K lo hi (.statement labels n)
      [.block decls
        (.expr (.callEnv (if n.kind = .forOfStatement then Engine.getIterator else Engine.getKeys)
          [x, .var it]) ::
        passesCode it done decls' y body skip ::
        (stop ++
          (if stop ≠ [] ∧ n.kind = .forOfStatement then
            [.expr (.callEnv Engine.closeIterator [.var it])] else []) ++
          [.label done]))]
  | switch {K lo mid hi labels n t x functions dflt tests bodies stop decls} {d id : Nat}
    (hn : n.kind = .switchStatement) (hd : lo < d)
    (hx : Given S (E.expr (n.part? .discriminant)) x)
    (hfunctions : List.Forall₂ (Stores S)
      ((n.items.flatMap (·.items)).filter fun m => m.kind == .functionDeclaration) functions)
    (ht' : d < t.id) (ht : t = ⟨t.id, labels, false, true, K.exits.length⟩) (hid : t.id < id)
    (hmid : id ≤ mid)
    (htests : Tests S E id (.var (temporaryName "tmp" d)) 0 n.items none dflt tests)
    (hbodies : Laid S E (K.opening t) mid hi (.cases id 0 n.items) bodies)
    (hdecls : ∀ d ∈ decls, S.Silent d)
    (hstop : Ends t.breakLabel (.goto (dflt.getD t.breakLabel) :: bodies) stop) :
    Laid S E K lo hi (.statement labels n)
      [.block decls
        (.expr (.set (.var (temporaryName "tmp" d)) x) :: functions.flatten ++ tests ++
          .goto (dflt.getD t.breakLabel) :: (bodies ++ stop))]
  | noCase {K lo hi id i} (hle : lo ≤ hi) : Laid S E K lo hi (.cases id i []) []
  | case {K lo mid hi id i n rest a b}
    (ha : Laid S E K lo mid (.list (n.items.filter fun s => s.kind != .functionDeclaration)) a)
    (hb : Laid S E K mid hi (.cases id (i + 1) rest) b) :
    Laid S E K lo hi (.cases id i (n :: rest)) (.label (caseLabel id i) :: (a ++ b))
  | labelled {K lo hi labels n m c} (hn : n.kind = .labeled) (hm : n.part? .body = some m)
    (htakes : takesLabels m = true)
    (hc : Laid S E K lo hi (.statement (labels ++ [n.name]) m) c) :
    Laid S E K lo hi (.statement labels n) c
  | target {K lo mid hi labels n t c stop} (hn : n.kind = .labeled)
    (htakes : (n.part? .body).any takesLabels = false)
    (ht : t = ⟨t.id, labels ++ [n.name], false, false, K.exits.length⟩) (hlo : lo < t.id)
    (hmid : t.id ≤ mid) (hc : Laid S E (K.opening t) mid hi (.option (n.part? .body)) c)
    (hstop : Ends t.breakLabel c stop) : Laid S E K lo hi (.statement labels n) (c ++ stop)
  | jump {K lo hi labels n name continues t c}
    (hn : n.label = if continues then .continueStatement name else .breakStatement name)
    (hle : lo ≤ hi) (ht : findTarget? name continues K.targets = some t)
    (hc : Jumps K t continues c) : Laid S E K lo hi (.statement labels n) c
  | return_ {K lo mid hi labels n x c} (hn : n.kind = .returnStatement) (hlo : lo ≤ mid)
    (hx : Given S (E.expr (n.part? .argument)) x) (hc : Returns S K mid hi x c) :
    Laid S E K lo hi (.statement labels n) c
  | withBlock {K lo mid hi labels n x st} (hn : n.kind = .withStatement) (hlo : lo ≤ mid)
    (hx : Given S (E.expr (n.part? .object)) x)
    (hc : Laid S E (K.within .withBody) mid hi (.arm (n.part? .body)) [st]) :
    Laid S E K lo hi (.statement labels n)
      [.expr (.callEnv Engine.pushWith [x]), st, .expr (.callEnv Engine.popWith [])]
  | tryCatch {K lo hi labels n c} (hn : n.kind = .tryStatement) (hf : n.part? .finalizer = none)
    (hc : Laid S E K lo hi (.catching n) c) : Laid S E K lo hi (.statement labels n) c
  | tryFinally {K lo mid mid' mid'' hi labels n m p c st returns jumps decls decls'}
    {f : Finalizer} {k : Nat} (hn : n.kind = .tryStatement) (hm : n.part? .finalizer = some m)
    (hf : f.handler = temporaryName "try" k) (hid : lo < f.id) (hk : f.id < k) (hmid : k ≤ mid)
    (hc : Laid S E (K.finalizing f p) mid mid' (.catching n) c)
    (hst : Laid S E K mid' mid'' (.block m) [st])
    (hreturns : ResumesReturn S K mid'' hi f p.returns returns)
    (hjumps : ResumesJumps S K f 0 p.jumps jumps) (hdecls : Finalizes S f decls)
    (hdecls' : ∀ d ∈ decls', S.Silent d) :
    Laid S E K lo hi (.statement labels n)
      [.block decls
        (.branch (.not (register f.handler)) (.block decls' (c ++ [unregister f.handler]))
          (catchFor f) ::
        .label f.label :: st ::
        .branch (isLeft f Pending.throwCode) (.expr (.callEnv Engine.throwValue [.var f.value]))
          .missing ::
        (returns ++ jumps))]
  | noHandler {K lo hi n c} (hn : n.part? .handler = none)
    (hc : Laid S E K lo hi (.option (n.part? .block)) c) : Laid S E K lo hi (.catching n) c
  | handler {K lo mid mid' mid'' hi n h c x body decls decls' decls''} {name : String} {k : Nat}
    (hn : n.part? .handler = some h) (hname : name = temporaryName "try" k) (hk : lo < k)
    (hmid : k ≤ mid)
    (hc : Laid S E (K.within (.handler name)) mid mid' (.option (n.part? .block)) c)
    (hmid' : mid' ≤ mid'')
    (hx : Given S (caughtCode E h (.callEnv Engine.caught [.var ("&" ++ name)])) x)
    (hbody : Laid S E K mid'' hi (.list (((h.part? .body).map (·.items)).getD [])) body)
    (hdecls : ∀ d ∈ decls, S.Silent d) (hdecls' : ∀ d ∈ decls', S.Silent d)
    (hdecls'' : ∀ d ∈ decls'', S.Silent d) :
    Laid S E K lo hi (.catching n)
      [.block decls [.branch (.not (register name)) (.block decls' (c ++ [unregister name]))
        (.block decls'' (effectCode x ++ body))]]

end Lower
end ScriptC
