import ScriptC.Lower.Exit
import ScriptC.Lower.Expression

/-!
Statements. Loops are endless loops that jumps leave; labels of the script become targets of such
jumps.
-/

namespace ScriptC.Lower

def noteLine (n : Node) : Lower Unit := do
  let plan ← read
  if plan.settings.lineDirectives then
    let (line, _) := plan.source.lineAndColumn n.start
    emit [.comment s!"line {line}"]

def openTarget (isLoop isPlain : Bool) : Lower Target := do
  let id ← freshName
  let w ← get
  let t : Target := { id, labels := w.labels, isLoop, isPlain, depth := w.exits.length }
  set { w with labels := [], targets := t :: w.targets }
  return t

def closeTarget : Lower Unit :=
  modify fun w => { w with targets := w.targets.drop 1 }

def breakLabel (t : Target) : Lower Unit := do
  if (← get).breaks.contains t.id then emit [.label t.breakLabel]

def continueLabel (t : Target) : Lower Unit := do
  if (← get).continues.contains t.id then emit [.label t.continueLabel]

def leaveUnless (test : C.Expr) (t : Target) : Lower Unit := do
  match test with
  | .raw "1" true => return
  | _ => emit [.branch (.not test) (← jumpToEnd t) .missing]

def targetFor (n : Node) (name : String) (continues : Bool) : List Target → Lower Target
  | [] =>
    failLowering n
      (if !name.isEmpty then .noLabel name
      else if continues then .continueOutside
      else .breakOutside)
  | t :: rest =>
    if name.isEmpty then
      if (continues && t.isLoop) || (!continues && t.isPlain) then return t
      else targetFor n name continues rest
    else if t.labels.contains name then
      if continues && !t.isLoop then failLowering n (.notLoop name) else return t
    else targetFor n name continues rest

def jumpStatement (n : Node) (name : String) (continues : Bool) : Lower Unit := do
  let t ← targetFor n name continues (← get).targets
  jump t continues

abbrev Below := Node → Lower Unit

def belowOption (below : Below) : Option Node → Lower Unit
  | none => return
  | some n => below n

def statements (below : Below) : List Node → Lower Unit
  | [] => return
  | n :: rest => do
    below n
    statements below rest

def blockOf (below : Below) (n : Node) : Lower C.Stmt :=
  block do
    if n.kind == .block then
      declareOpened n
      statements below n.items
    else below n

def blockOption (below : Below) : Option Node → Lower C.Stmt
  | none => return .missing
  | some n => blockOf below n

def declaratorCode (E : Eval) (binds : BindingKind) (d : Node) : Lower C.Expr := do
  let target := d.part? .name
  match d.part? .init with
  | some init =>
    if target.any fun t => t.kind == .identifier then
      let v ← E.expr (some init)
      E.destructureOption target v .init
    else
      let t ← temp
      let v ← E.expr (some init)
      return .comma [.set t v, ← E.destructureOption target t .init]
  | none =>
    if binds != .var then E.destructureOption target .undefined .init else return .missing

def declarators (E : Eval) (binds : BindingKind) : List Node → Lower Unit
  | [] => return
  | d :: rest => do
    effect (← declaratorCode E binds d)
    declarators E binds rest

def storeCode (site : Node) (d : Nat) : Lower C.Expr := do
  match (← bindings).sites.get? site.id with
  | none => failLowering site .functionSite
  | some child =>
    let place ← storage d
    return .set place (← newFunction child)

def aliasCode (site : Node) (d : Nat) : Lower C.Expr := do
  let b ← bindings
  match b.aliases.get? site.id with
  | none => return .missing
  | some outerName =>
    let outer ← storage ((b.resolved? outerName).getD 0)
    return .set outer (← storage d)

def storeFunction (site : Node) : Lower Unit := do
  let d := ((site.part? .name).bind (← bindings).resolved?).getD 0
  effect (← storeCode site d)
  effect (← aliasCode site d)

def classCode (E : Eval) (site : Node) : Lower C.Expr := do
  let place ← storage (((site.part? .name).bind (← bindings).resolved?).getD 0)
  return .set place (← classValue E site)

def ifElse (E : Eval) (below : Below) (n : Node) : Lower Unit := do
  let test ← E.test (n.part? .test)
  let consequent ← blockOption below (n.part? .consequent)
  emit [.branch test consequent (← blockOption below (n.part? .alternate))]

def whileLoop (E : Eval) (below : Below) (n : Node) : Lower Unit := do
  let t ← openTarget true true
  let body ← loop do
    leaveUnless (← E.test (n.part? .test)) t
    belowOption below (n.part? .body)
    continueLabel t
  emit [body]
  closeTarget
  breakLabel t

def doLoop (E : Eval) (below : Below) (n : Node) : Lower Unit := do
  let t ← openTarget true true
  let body ← loop do
    belowOption below (n.part? .body)
    continueLabel t
    leaveUnless (← E.test (n.part? .test)) t
  emit [body]
  closeTarget
  breakLabel t

def renewCells : List Nat → Lower (List C.Stmt)
  | [] => return []
  | d :: rest => do
    if ((← bindings).decl d).isCaptured then
      let name ← nameOf d
      return .expr (.set (.var name) (.callEnv Engine.newCell [.var ("*" ++ name)])) ::
        (← renewCells rest)
    else renewCells rest

def waitingLabels : Lower (List String) := do
  let labels := (← get).labels
  modify fun w => { w with labels := [] }
  return labels

def giveLabels (labels : List String) : Lower Unit :=
  modify fun w => { w with labels }

def headCopies (n : Node) : Lower (List C.Stmt) := do
  match (← bindings).opened? n with
  | none => return []
  | some sc =>
    declareNames sc
    renewCells (← scopeDecls sc)

def forInit (E : Eval) : Option Node → Lower Unit
  | none => return
  | some init =>
    match init.label with
    | .variableDeclaration binds => declarators E binds init.items
    | _ => do effect (← E.discard init)

def leaveUnlessOption (E : Eval) (t : Target) : Option Node → Lower Unit
  | none => return
  | some test => do leaveUnless (← E.test (some test)) t

def discardOption (E : Eval) : Option Node → Lower Unit
  | none => return
  | some n => do effect (← E.discard n)

/--
A `for`. Captured names of its head get a new cell for every pass, so functions made in different
passes see different names.
-/
def forLoop (E : Eval) (below : Below) (n : Node) : Lower Unit := do
  let labels ← waitingLabels
  let whole ← block do
    let copies ← headCopies n
    forInit E (n.part? .init)
    emit copies
    giveLabels labels
    let t ← openTarget true true
    let body ← loop do
      leaveUnlessOption E t (n.part? .test)
      belowOption below (n.part? .body)
      continueLabel t
      emit copies
      discardOption E (n.part? .update)
    emit [body]
    closeTarget
    breakLabel t
  emit [whole]

def currentCode (E : Eval) (left : Option Node) (current : C.Expr) : Lower C.Expr :=
  match left with
  | none => return .missing
  | some l =>
    match l.label with
    | .variableDeclaration _ =>
      E.destructureOption (l.items.head?.bind (·.part? .name)) current .init
    | _ => E.destructure l current .assign

def iterationPasses (E : Eval) (below : Below) (n : Node) (it : C.Expr) (labels : List String) :
    Lower (String × Target) := do
  let id ← freshName
  let done := s!"done_{id}"
  giveLabels labels
  let t ← openTarget true true
  let body ← loop do
    declareOpened n
    emit [.branch (.not (.callEnv Engine.nextIterator [it])) (.goto done) .missing]
    effect (← currentCode E (n.part? .left) (.var (it.render ++ "[2]")))
    belowOption below (n.part? .body)
    continueLabel t
  emit [body]
  closeTarget
  return (done, t)

def iterationEnd (isOf : Bool) (it : C.Expr) (t : Target) : Lower Unit := do
  if (← get).breaks.contains t.id then
    emit [.label t.breakLabel]
    if isOf then effect (.callEnv Engine.closeIterator [it])

/--
A `for` over the keys or the values of an object. Its names are declared inside the body, so each
pass has its own. Leaving a loop over values early closes the iterator.
-/
def iterationLoop (E : Eval) (below : Below) (n : Node) : Lower Unit := do
  let labels ← waitingLabels
  let isOf := n.kind == .forOfStatement
  let whole ← block do
    let it ← tempIterator
    let src ← E.expr (n.part? .right)
    effect (.callEnv (if isOf then Engine.getIterator else Engine.getKeys) [src, it])
    let (done, t) ←
      if isOf then withExit (.iterator it.render) (iterationPasses E below n it labels)
      else iterationPasses E below n it labels
    iterationEnd isOf it t
    emit [.label done]
  emit [whole]

def caseFunctions : List Node → Lower Unit
  | [] => return
  | n :: rest => do
    if n.kind == .functionDeclaration then storeFunction n
    caseFunctions rest

def caseLabel (id index : Nat) : String := s!"case_{id}_{index}"

def caseTests (E : Eval) (id : Nat) (d : C.Expr) :
    Nat → List Node → Option String → Lower (Option String)
  | _, [], dflt => return dflt
  | i, c :: rest, dflt => do
    match c.part? .test with
    | none => caseTests E id d (i + 1) rest (some (caseLabel id i))
    | some test =>
      let test ← equal Engine.strictEq d (← E.expr (some test))
      emit [.branch test (.goto (caseLabel id i)) .missing]
      caseTests E id d (i + 1) rest dflt

def caseBodies (below : Below) (id : Nat) : Nat → List Node → Lower Unit
  | _, [] => return
  | i, c :: rest => do
    emit [.label (caseLabel id i)]
    statements below (c.items.filter fun s => s.kind != .functionDeclaration)
    caseBodies below id (i + 1) rest

def switchCases (E : Eval) (below : Below) (n : Node) : Lower Unit := do
  let labels ← waitingLabels
  let cases := n.items
  let whole ← block do
    let d ← temp
    effect (.set d (← E.expr (n.part? .discriminant)))
    declareOpened n
    caseFunctions (cases.flatMap (·.items))
    giveLabels labels
    let t ← openTarget false true
    let id ← freshName
    match ← caseTests E id d 0 cases none with
    | some label => emit [.goto label]
    | none => emit [← jumpToEnd t]
    caseBodies below id 0 cases
    closeTarget
    breakLabel t
  emit [whole]

def takesLabels (n : Node) : Bool :=
  n.kind == .labeled || n.kind.isLoop || n.kind == .switchStatement

def labelled (below : Below) (n : Node) : Lower Unit := do
  modify fun w => { w with labels := w.labels ++ [n.name] }
  let body := (n.part? .body).getD default
  if takesLabels body then below body
  else
    let t ← openTarget false false
    below body
    closeTarget
    breakLabel t

def withBlock (E : Eval) (below : Below) (n : Node) : Lower Unit := do
  effect (.callEnv Engine.pushWith [← E.expr (n.part? .object)])
  let body ← withExit .withBody (blockOption below (n.part? .body))
  emit [body]
  effect (.callEnv Engine.popWith [])

def caughtCode (E : Eval) (h : Node) (caught : C.Expr) : Lower C.Expr := do
  match h.part? .caught with
  | none => return caught
  | some param =>
    if param.kind == .identifier then E.destructure param caught .init
    else
      let t ← temp
      return .comma [.set t caught, ← E.destructure param t .init]

def handlerBlock (E : Eval) (below : Below) (h : Node) (caught : C.Expr) : Lower C.Stmt :=
  block do
    declareOpened h
    effect (← caughtCode E h caught)
    statements below (((h.part? .body).map (·.items)).getD [])

def catching (E : Eval) (below : Below) (n : Node) : Lower Unit := do
  match n.part? .handler with
  | none => belowOption below (n.part? .block)
  | some h =>
    let whole ← block do
      let handler := (← tempOf Engine.typeTry "try").render
      let body ← withExit (.handler handler) do
        block do
          belowOption below (n.part? .block)
          emit [unregister handler]
      let caught := .callEnv Engine.caught [.var ("&" ++ handler)]
      emit [.branch (.not (register handler)) body (← handlerBlock E below h caught)]
    emit [whole]

def isLeft (f : Finalizer) (code : Nat) : C.Expr := .binary "==" (.var f.code) (.nat code)

def catchFor (f : Finalizer) : C.Stmt :=
  .block []
    [.expr (.set (.var f.value) (.callEnv Engine.caught [.var ("&" ++ f.handler)])),
      .expr (.set (.var f.code) (.nat Pending.throwCode))]

def resumeReturn (f : Finalizer) (p : Pending) : Lower Unit := do
  if p.returns then
    let body ← block (returnFrom (.var f.value))
    emit [.branch (isLeft f Pending.returnCode) body .missing]

def resumeJumps (f : Finalizer) : Nat → List (Target × Bool) → Lower Unit
  | _, [] => return
  | i, (t, continues) :: rest => do
    let body ← block (jump t continues)
    emit [.branch (isLeft f (Pending.jumpCode i)) body .missing]
    resumeJumps f (i + 1) rest

def resume (f : Finalizer) : Lower Unit := do
  emit [.branch (isLeft f Pending.throwCode)
    (.expr (.callEnv Engine.throwValue [.var f.value])) .missing]
  let pending ← pendingOf f
  resumeReturn f pending
  resumeJumps f 0 pending.jumps

def finalizing (E : Eval) (below : Below) (n finalBlock : Node) : Lower Unit := do
  let id ← freshName
  let whole ← block do
    let handler := (← tempOf Engine.typeTry "try").render
    let f : Finalizer := { id, handler }
    declareC { type := "int", name := f.code, init := .lit "0", isVolatile := true }
    declareC { type := Engine.typeValue, name := f.value, isVolatile := true }
    let isProtected ← withExit (.finalizer f) do
      block do
        catching E below n
        emit [unregister handler]
    emit [.branch (.not (register handler)) isProtected (catchFor f), .label f.label]
    emit [← blockOf below finalBlock]
    resume f
  emit [whole]

def tryBlock (E : Eval) (below : Below) (n : Node) : Lower Unit :=
  match n.part? .finalizer with
  | none => catching E below n
  | some finalBlock => finalizing E below n finalBlock

def statementOf (E : Eval) (below : Below) (n : Node) : Lower Unit := do
  match n.label with
  | .empty | .debuggerStatement => return
  | .expressionStatement =>
    noteLine n
    match n.part? .expression with
    | some e => effect (← E.discard e)
    | none => return
  | .variableDeclaration binds =>
    noteLine n
    declarators E binds n.items
  | .functionDeclaration _ => storeFunction n
  | .classDeclaration =>
    noteLine n
    effect (← classCode E n)
  | .block => emit [← blockOf below n]
  | .ifStatement =>
    noteLine n
    ifElse E below n
  | .whileStatement =>
    noteLine n
    whileLoop E below n
  | .doWhileStatement =>
    noteLine n
    doLoop E below n
  | .forStatement =>
    noteLine n
    forLoop E below n
  | .forInStatement | .forOfStatement =>
    noteLine n
    iterationLoop E below n
  | .switchStatement =>
    noteLine n
    switchCases E below n
  | .labeled _ => labelled below n
  | .breakStatement name =>
    noteLine n
    jumpStatement n name false
  | .continueStatement name =>
    noteLine n
    jumpStatement n name true
  | .returnStatement =>
    noteLine n
    returnFrom (← E.expr (n.part? .argument))
  | .throwStatement =>
    noteLine n
    effect (.callEnv Engine.throwValue [← E.expr (n.part? .argument)])
  | .tryStatement =>
    noteLine n
    tryBlock E below n
  | .withStatement =>
    noteLine n
    withBlock E below n
  | _ => failLowering n (.statement n.kind)

def statementStep (E : Eval) (below : Below) (n : Node) : Lower Unit := do
  if takesLabels n then statementOf E below n
  else
    giveLabels []
    statementOf E below n

def statement (E : Eval) (n : Node) : Lower Unit :=
  Node.fix (statementStep E) (fun _ => pure ()) n

end ScriptC.Lower
