import ScriptC.Surface.Basic
import ScriptC.Surface.Fault

/-!
The tree of a script, built from its phrases. A node gets its number before the nodes below it. The
value of a property in an object pattern is numbered twice, first as an expression and then as a
pattern; only the latter is kept.
-/

namespace ScriptC.Surface

structure PhraseError where
  fault : PhraseFault
  extent : Extent

abbrev Build := StateT Nat (Except PhraseError)

namespace Build

def fail {α : Type} (extent : Extent) (fault : PhraseFault) : Build α := throw ⟨fault, extent⟩

def node (extent : Extent) (label : Label) (parts : Build (List Part) := pure []) : Build Node := do
  let id ← modifyGet fun n => (n, n + 1)
  return .build id extent.span label (← parts)

def part? {α : Type} (role : Role) (f : α → Build Node) : Option α → Build (List Part)
  | some a => return [.node role (← f a)]
  | none => return []

def part {α : Type} (role : Role) (f : α → Build Node) (a : α) : Build (List Part) :=
  part? role f (some a)

def parts {α : Type} (role : Role) (f : α → Build Node) (as : List α) : Build (List Part) :=
  as.mapM fun a => return .node role (← f a)

def slots {α : Type} (role : Role) (f : α → Build Node) (as : List (Option α)) :
    Build (List Part) :=
  as.mapM fun
    | some a => return .node role (← f a)
    | none => return .hole role

structure Inner where
  expr : Expr → Build Node
  pattern : Expr → Build Node
  stmt : Stmt → Build Node

def name (n : Name) : Build Node := node n.extent (.identifier n.text)

def element (b : Inner) (x : Expr) : Build Node := do
  match x.form with
  | .assign "=" left right =>
    node x.extent .assignmentPattern do
      return (← part .left b.pattern left) ++ (← part .right b.expr right)
  | _ => b.pattern x

def rest (b : Inner) (x : Expr) : Build Node :=
  node x.extent .rest (part .argument b.pattern x)

def param (b : Inner) (x : Expr) : Build Node := do
  match x.binding with
  | (target, none) => b.pattern target
  | (target, some value) =>
    let left ← b.pattern target
    node ⟨target.extent.start, value.stop⟩ .assignmentPattern do
      return .node .left left :: (← part .right b.expr value)

def params (b : Inner) (list : List Expr) (last : Option Expr) : Build (List Part) := do
  return (← parts .param (param b) list) ++ (← part? .param (rest b) last)

def function (b : Inner) (isDeclaration : Bool) (x : Expr) : Build Node := do
  match x.form with
  | .function fname isAsync isGenerator list last body =>
    let marks : FunctionMarks := { isAsync, isGenerator }
    let label := if isDeclaration then .functionDeclaration marks else .functionExpression marks
    node x.extent label do
      return (← part? .name name fname) ++ (← params b list last) ++ (← part .body b.stmt body)
  | _ => fail x.extent .unsupportedExpression

def arrow (b : Inner) (extent : Extent) (isAsync : Bool) (list : List Expr) (last : Option Expr)
    (body : Stmt) : Build Node := do
  match body.form with
  | .expression value =>
    node extent (.arrowFunction { isAsync, exprBody := true }) do
      return (← params b list last) ++ (← part .body b.expr value)
  | _ =>
    node extent (.arrowFunction { isAsync }) do
      return (← params b list last) ++ (← part .body b.stmt body)

def key (b : Inner) (computed : Bool) (x : Expr) : Build Node := do
  if computed then b.expr x
  else
    match x.form with
    | .literal (.string text) _ => node x.extent (.literal (.string text) text)
    | .privateName _ => fail x.extent .privateName
    | _ => fail x.extent .propertyKey

def memberKind (isStatic computed : Bool) (kind : PropertyKind) (k : Expr) : MemberKind :=
  match kind with
  | .get => .get
  | .set => .set
  | _ =>
    match k.form with
    | .literal (.string "constructor") _ => if isStatic || computed then .method else .constructor
    | _ => .method

def member (b : Inner) (x : Expr) : Build Node := do
  match x.form with
  | .method isStatic kind computed k body =>
    let kind := memberKind isStatic computed kind k
    node x.extent (.methodDefinition { kind, computed, isStatic }) do
      return (← part .key (key b computed) k) ++ (← part .value (function b false) body)
  | .field isStatic computed k init =>
    node x.extent (.propertyDefinition { computed, isStatic }) do
      return (← part .key (key b computed) k) ++ (← part? .value b.expr init)
  | _ => node x.extent (.propertyDefinition { isStatic := true })

def classOf (b : Inner) (isDeclaration : Bool) (x : Expr) : Build Node := do
  match x.form with
  | .classLiteral cname heritage elements =>
    node x.extent (if isDeclaration then .classDeclaration else .classExpression) do
      return (← part? .name name cname) ++ (← part? .heritage b.expr heritage) ++
        (← part .body (fun es => node x.extent .classBody (parts .item (member b) es)) elements)
  | _ => fail x.extent .unsupportedExpression

def template (b : Inner) (extent : Extent) (tag : Option Expr) (text : TemplateText)
    (values : List Expr) : Build Node := do
  let n ← node extent (.template text) (parts .item b.expr values)
  match tag with
  | none => return n
  | some tag => node extent .taggedTemplate do
      return (← part .callee b.expr tag) ++ [.node .argument n]

def property (b : Inner) (inPattern : Bool) (x : Expr) : Build Node := do
  match x.form with
  | .short n default =>
    node x.extent (.property { kind := .init, shorthand := true }) do
      let k ← node n.extent (.literal (.string n.text) n.text)
      let value ← name n
      let value ← match default with
        | none => pure value
        | some d => node x.extent .assignmentPattern do
            return .node .left value :: (← part .right b.expr d)
      return [.node .key k, .node .value value]
  | .keyed kind computed k value =>
    let marks : MemberMarks :=
      match kind with
      | .get => { kind := .get, computed }
      | .set => { kind := .set, computed }
      | .method => { kind := .init, computed, method := true }
      | .value => { kind := .init, computed }
    node x.extent (.property marks) do
      let k ← part .key (key b computed) k
      let v ← part .value b.expr value
      let v ← if inPattern then part .value (element b) value else pure v
      return k ++ v
  | .spread argument => node x.extent .spread (part .argument b.expr argument)
  | _ => fail x.extent .property

def pattern (b : Inner) (x : Expr) : Build Node := do
  match x.form with
  | .identifier text => node x.extent (.identifier text)
  | .arrayPattern items last =>
    node x.extent .arrayPattern do
      return (← slots .item (element b) items) ++ (← part? .item (rest b) last)
  | .objectPattern properties last =>
    node x.extent .objectPattern do
      return (← parts .item (property b true) properties) ++ (← part? .item (rest b) last)
  | .member .. | .index .. | .privateMember .. => b.expr x
  | .assign "=" .. => element b x
  | .object _ | .array _ => fail x.extent .patternTarget
  | _ => fail x.extent .assignmentTarget

def isLogical (op : String) : Bool := op == "&&" || op == "||" || op == "??"

def expr (b : Inner) (x : Expr) : Build Node := do
  let e := x.extent
  match x.form with
  | .identifier text => node e (.identifier text)
  | .literal value raw => node e (.literal value raw)
  | .template tag text values => template b e tag text values
  | .this => node e .this
  | .super => node e .super
  | .array items => node e .array (slots .item b.expr items)
  | .object properties => node e .object (parts .item (property b false) properties)
  | .function .. => function b false x
  | .arrow isAsync list last body => arrow b e isAsync list last body
  | .classLiteral .. => classOf b false x
  | .update op before operand => node e (.update op before) (part .argument b.expr operand)
  | .unary op operand => node e (.unary op) (part .argument b.expr operand)
  | .binary op left right =>
    node e (if isLogical op then .logical op else .binary op) do
      return (← part .left b.expr left) ++ (← part .right b.expr right)
  | .assign op left right =>
    node e (.assignment op) do return (← part .left b.pattern left) ++ (← part .right b.expr right)
  | .conditional test consequent alternate =>
    node e .conditional do
      return (← part .test b.expr test) ++ (← part .consequent b.expr consequent) ++
        (← part .alternate b.expr alternate)
  | .call optional callee args =>
    node e (.call optional) do return (← part .callee b.expr callee) ++ (← parts .item b.expr args)
  | .new callee args =>
    node e .new do return (← part .callee b.expr callee) ++ (← parts .item b.expr args)
  | .member optional object n =>
    node e (.member false optional) do
      return (← part .object b.expr object) ++ (← part .property name n)
  | .index optional object k =>
    node e (.member true optional) do
      return (← part .object b.expr object) ++ (← part .property b.expr k)
  | .privateMember .. => fail e .privateName
  | .chain link => node e .chain (part .expression b.expr link)
  | .sequence items => node e .sequence (parts .item b.expr items)
  | .spread argument => node e .spread (part .argument b.expr argument)
  | .yield delegate argument => node e (.yieldExpression delegate) (part? .argument b.expr argument)
  | .await argument => node e .awaitExpression (part .argument b.expr argument)
  | .newTarget => node e (.metaProperty "new.target")
  | .arrayPattern .. | .objectPattern .. => b.pattern x
  | .bad => fail e .badExpression
  | .privateName _ | .short .. | .keyed .. | .method .. | .field .. | .staticBlock =>
    fail e .unsupportedExpression

def declarator (b : Inner) (x : Expr) : Build Node :=
  let (target, value) := x.binding
  node ⟨target.extent.start, (value.getD target).stop⟩ .declarator do
    return (← part .name b.pattern target) ++ (← part? .init b.expr value)

def declaration (b : Inner) (e : Extent) (kind : BindingKind) (bindings : List Expr) : Build Node :=
  node e (.variableDeclaration kind) (parts .item (declarator b) bindings)

def forInit (b : Inner) (s : Stmt) : Build Node := do
  match s.form with
  | .expression x => b.expr x
  | _ => b.stmt s

def forTarget (b : Inner) (s : Stmt) : Build Node := do
  match s.form with
  | .expression x => b.pattern x
  | _ => b.stmt s

def stmt (b : Inner) (s : Stmt) : Build Node := do
  let e := s.extent
  match s.form with
  | .block body => node e .block (parts .item b.stmt body)
  | .empty => node e .empty
  | .debugger => node e .debuggerStatement
  | .expression x => node e .expressionStatement (part .expression b.expr x)
  | .branch test consequent alternate =>
    node e .ifStatement do
      return (← part .test b.expr test) ++ (← part .consequent b.stmt consequent) ++
        (← part? .alternate b.stmt alternate)
  | .labelled text body => node e (.labeled text) (part .body b.stmt body)
  | .breakOff label => node e (.breakStatement (label.getD ""))
  | .continueOn label => node e (.continueStatement (label.getD ""))
  | .inside object body =>
    node e .withStatement do return (← part .object b.expr object) ++ (← part .body b.stmt body)
  | .switch discriminant cases =>
    node e .switchStatement do
      return (← part .discriminant b.expr discriminant) ++ (← parts .item b.stmt cases)
  | .switchCase test body =>
    node e .switchCase do return (← part? .test b.expr test) ++ (← parts .item b.stmt body)
  | .returnValue value => node e .returnStatement (part? .argument b.expr value)
  | .throw value => node e .throwStatement (part .argument b.expr value)
  | .attempt body caught finalizer =>
    node e .tryStatement do
      return (← part .block b.stmt body) ++ (← part? .handler b.stmt caught) ++
        (← part? .finalizer b.stmt finalizer)
  | .handler target body =>
    node e .catchClause do return (← part? .caught b.pattern target) ++ (← part .body b.stmt body)
  | .whileLoop test body =>
    node e .whileStatement do return (← part .test b.expr test) ++ (← part .body b.stmt body)
  | .doLoop body test =>
    node e .doWhileStatement do return (← part .body b.stmt body) ++ (← part .test b.expr test)
  | .forLoop init test step body =>
    node e .forStatement do
      return (← part? .init (forInit b) init) ++ (← part? .test b.expr test) ++
        (← part? .update b.expr step) ++ (← part .body b.stmt body)
  | .forIn target object body =>
    node e .forInStatement do
      return (← part .left (forTarget b) target) ++ (← part .right b.expr object) ++
        (← part .body b.stmt body)
  | .forOf target items body =>
    node e .forOfStatement do
      return (← part .left (forTarget b) target) ++ (← part .right b.expr items) ++
        (← part .body b.stmt body)
  | .declare kind bindings => declaration b e kind bindings
  | .function f => function b true f
  | .classDeclaration c => classOf b true c
  | .bad => fail e .badStatement

def upTo : Nat → Inner
  | 0 =>
    { expr := fun x => fail x.extent .unsupportedExpression
      pattern := fun x => fail x.extent .unsupportedExpression
      stmt := fun s => fail s.extent .unsupportedStatement }
  | depth + 1 =>
    { expr := fun x => expr (upTo depth) x
      pattern := fun x => pattern (upTo depth) x
      stmt := fun s => stmt (upTo depth) s }

end Build

def tree (size : Nat) (body : List Stmt) : Except PhraseError (Node × Nat) :=
  let build : Build Node :=
    Build.node ⟨some 0, size⟩ .program (Build.parts .item (Build.upTo (4 * size + 16)).stmt body)
  build.run 0

end ScriptC.Surface
