import ScriptC.Grammar.Expression

/-!
Statements.
-/

namespace ScriptC.Grammar

open Surface

def inParentheses (x : Parse Expr) : Parse (Expr × Nat) := do
  let _ ← expect (.punct "(")
  let value ← x
  return (value, ← expect (.punct ")"))

def single (g : Rules) : Parse Stmt := do
  allowLet false
  g.statement

def blockOrSingle (g : Rules) : Parse Stmt := do
  if ← isPunct "\x7b" then block g else single g

def badStmt (start stop : Nat) : Stmt := .mk (.of start stop) .bad

def badStmtFrom (start : Nat) : Parse Stmt := do
  resume
  return badStmt start (← here)

def ifStatement (g : Rules) : Parse Stmt := do
  let _ ← expect (.reserved "if")
  let (test, _) ← inParentheses (expression g)
  let consequent ← blockOrSingle g
  let alternate ← if ← accept (.reserved "else") then some <$> single g else pure none
  let stop := (alternate.getD consequent).stop
  return .mk ⟨none, stop⟩ (.branch test consequent alternate)

def doStatement (g : Rules) : Parse Stmt :=
  insideLoop do
    let start ← expect (.reserved "do")
    let body ← blockOrSingle g
    let _ ← expect (.reserved "while")
    let (test, close) ← inParentheses (expression g)
    let _ ← accept (.punct ";")
    return .mk (.of start (close + 1)) (.doLoop body test)

def loopBody (g : Rules) : Parse Stmt := insideLoop (single g)

def whileStatement (g : Rules) : Parse Stmt := do
  let start ← expect (.reserved "while")
  let (test, _) ← inParentheses (expression g)
  let body ← loopBody g
  return .mk (.of start body.stop) (.whileLoop test body)

def withStatement (g : Rules) : Parse Stmt := do
  let start ← expect (.reserved "with")
  let (object, _) ← inParentheses (expression g)
  let body ← single g
  return .mk (.of start body.stop) (.inside object body)

structure ForHead where
  init : Stmt
  word : Option String := none

def overWord? : Parse (Option String) := do
  if ← accept (.reserved "in") then return some "in"
  let l := (← get).lexeme
  if l.token == .identifier && l.text == "of" then
    advance
    return some "of"
  return none

/-- A declaration in the head of a loop. One with `var` is placed at its first target, and one that
takes values in turn ends with its target. -/
def forDeclaration (g : Rules) (kind : BindingKind) : Parse ForHead := do
  let start ← here
  advance
  let list ← bindings g
  let first := list.headD default
  let (target, init) := first.binding
  let begins := if kind == .var then first.extent.start else some start
  let declaration (stop : Nat) (list : List Expr) : Stmt := .mk ⟨begins, stop⟩ (.declare kind list)
  match ← if list.length == 1 then overWord? else pure none with
  | some word =>
    match init with
    | some value => report value.extent.start .loopInitializer
    | none => pure ()
    return { init := declaration target.stop [target], word := some word }
  | none =>
    requireValues list
    return { init := declaration (list.getLastD first).stop list }

def forExpression (g : Rules) (start : Nat) : Parse (Option ForHead) := do
  let x ← expression g
  let head (x : Expr) (word : Option String) : Option ForHead :=
    some { init := .mk x.extent (.expression x), word }
  match ← overWord? with
  | none => return head x none
  | some word =>
    match x.form with
    | .array _ | .object _ => return head (← asAssignTarget x) (some word)
    | _ =>
      if x.isTarget then return head x (some word)
      report (some start) .loopTarget
      return none

def forKind? : Parse (Option BindingKind) := do
  match ← token with
  | .reserved "var" => return some .var
  | .reserved "const" => return some .const
  | .contextual "let" =>
    match ← peek with
    | .identifier | .punct "[" | .punct "\x7b" => return some .let
    | _ => return none
  | _ => return none

def forRest (g : Rules) (start : Nat) (init : Option Stmt) : Parse Stmt := do
  let test ← if ← isPunct ";" then pure none else some <$> expression g
  let _ ← expect (.punct ";")
  let step ← if ← isPunct ")" then pure none else some <$> expression g
  let _ ← expect (.punct ")")
  let body ← loopBody g
  return .mk (.of start body.stop) (.forLoop init test step body)

def forOf (g : Rules) (start : Nat) (head : ForHead) : Parse Stmt := do
  match head.word with
  | some word =>
    let values ← if word == "in" then expression g else g.assignment
    let _ ← expect (.punct ")")
    let body ← loopBody g
    return .mk (.of start body.stop)
      (if word == "in" then .forIn head.init values body else .forOf head.init values body)
  | none =>
    let _ ← expect (.punct ";")
    forRest g start (some head.init)

def forStatement (g : Rules) : Parse Stmt := do
  let start ← expect (.reserved "for")
  let _ ← expect (.punct "(")
  if ← accept (.punct ";") then return ← forRest g start none
  let allowed := (← context).allowIn
  allowIn false
  let head ←
    match ← forKind? with
    | some kind => some <$> forDeclaration g kind
    | none => forExpression g start
  match head with
  | none => badStmtFrom start
  | some head =>
    allowIn allowed
    forOf g start head

structure Jump where
  word : String
  fault : TextFault
  form : Option String → StmtForm
  allowed : Context → Bool
  labelAllowed : Context → Bool

def Jump.breakOff : Jump :=
  { word := "break", fault := .illegalBreak, form := .breakOff
    allowed := fun c => c.inLoop || c.inSwitch, labelAllowed := fun _ => true }

def Jump.continueOn : Jump :=
  { word := "continue", fault := .illegalContinue, form := .continueOn
    allowed := (·.inLoop), labelAllowed := (·.inLoop) }

def jumpStatement (j : Jump) : Parse Stmt := do
  let start ← expect (.reserved j.word)
  let illegal : Parse Stmt := do
    report (some start) j.fault
    badStmtFrom start
  let ended ← lineEnded
  let ended := (← accept (.punct ";")) || ended
  if ended || (← isPunct "\x7d") then
    forgetLineEnd
    if !j.allowed (← context) then return ← illegal
    return .mk (.of start (start + j.word.length)) (j.form none)
  takeAsName
  if !(← isAt .identifier) then
    let _ ← expect .identifier
    return ← illegal
  let label ← name
  let c ← context
  if !c.labels.contains label.text then
    report (some start) (.labelUndefined label.text)
    return badStmt start label.extent.stop
  if !j.labelAllowed c then return ← illegal
  semicolon
  return .mk (.of start label.extent.stop) (j.form (some label.text))

def debuggerStatement : Parse Stmt := do
  let start ← expect (.reserved "debugger")
  semicolon
  return .mk (.of start (start + 8)) .debugger

def declarationOf (g : Rules) (kind : BindingKind) (start : Nat) : Parse Stmt := do
  let list ← bindings g
  requireValues list
  semicolon
  return .mk (.of start (list.getLastD default).stop) (.declare kind list)

def variableStatement (g : Rules) : Parse Stmt := do
  let start ← expect (.reserved "var")
  declarationOf g .var start

def lexicalDeclaration (g : Rules) (kind : BindingKind) : Parse Stmt := do
  let start ← here
  advance
  if !(← context).allowLet then report (some start) .lexicalDeclaration
  declarationOf g kind start

def switchCase (g : Rules) : Parse Stmt := do
  let start ← here
  let test ←
    if ← accept (.reserved "default") then pure none
    else do
      let _ ← expect (.reserved "case")
      some <$> expression g
  let _ ← expect (.punct ":")
  let more : Parse Bool := do
    let t ← token
    return t != .eof && t != .punct "\x7d" && t != .reserved "case" && t != .reserved "default"
  let body ← many more (do allowLet true; g.statement)
  let stop := match body.getLast?, test with
    | some s, _ => s.stop
    | none, some x => x.stop + 1
    | none, none => start + 8
  return .mk (.of start stop) (.switchCase test body)

def isDefault (s : Stmt) : Bool :=
  match s.form with
  | .switchCase none _ => true
  | _ => false

def switchStatement (g : Rules) : Parse Stmt := do
  let start ← expect (.reserved "switch")
  let (discriminant, _) ← inParentheses (expression g)
  let _ ← expect (.punct "\x7b")
  insideSwitch do
    let cases ← iterate (fun cases => do
      if !(← before "\x7d") then return none
      let c ← switchCase g
      if isDefault c && cases.any isDefault then report c.extent.start .twoDefaults
      return some (c :: cases)) ([] : List Stmt)
    let close ← here
    let closed ← accept (.punct "\x7d")
    return .mk (.of start (if closed then close + 1 else 0)) (.switch discriminant cases.reverse)

def returnStatement (g : Rules) : Parse Stmt := do
  let start ← expect (.reserved "return")
  if !(← context).inFunction then
    report (some start) .illegalReturn
    return ← badStmtFrom start
  let value ← if ← yieldsValue then some <$> expression g else pure none
  semicolon
  return .mk (.of start ((value.map (·.stop)).getD (start + 6))) (.returnValue value)

def throwStatement (g : Rules) : Parse Stmt := do
  let start ← expect (.reserved "throw")
  if ← lineEnded then
    report (some start) (if (← get).lexer.cursor.atEnd then .unexpectedEnd else .throwNewline)
    return ← badStmtFrom start
  let value ← expression g
  semicolon
  return .mk (.of start value.stop) (.throw value)

def handler (g : Rules) : Parse Stmt := do
  let start ← expect (.reserved "catch")
  let param ←
    if ← accept (.punct "(") then do
      let target ← declared g
      let _ ← expect (.punct ")")
      pure (some target)
    else pure none
  let body ← block g
  return .mk (.of start body.stop) (.handler param body)

def tryStatement (g : Rules) : Parse Stmt := do
  let start ← expect (.reserved "try")
  let body ← block g
  let caught ← if ← isWord "catch" then some <$> handler g else pure none
  let finalizer ← if ← accept (.reserved "finally") then some <$> block g else pure none
  if caught.isNone && finalizer.isNone then
    report (some start) .missingCatch
    return badStmt start body.stop
  let stop := ((finalizer <|> caught).getD body).stop
  return .mk (.of start stop) (.attempt body caught finalizer)

def labelled (g : Rules) (label : Expr) (text : String) : Parse Stmt := do
  advance
  if (← context).labels.contains text then report label.extent.start (.labelExists text)
  modifyContext fun c => { c with labels := text :: c.labels }
  let body ← single g
  modifyContext fun c => { c with labels := c.labels.drop 1 }
  return .mk (label.extent.to body.extent) (.labelled text body)

def expressionStatement (g : Rules) : Parse Stmt := do
  let x ← expression g
  let plain : Parse Stmt := do
    statementEnd
    return .mk x.extent (.expression x)
  match x.form with
  | .identifier text => if ← isPunct ":" then labelled g x text else plain
  | _ => plain

def startsLet : Parse Bool := do
  let t ← peek
  return t == .punct "[" || ((← context).allowLet && (t.isName || t == .punct "\x7b"))

def statement (g : Rules) : Parse Stmt := do
  let start ← here
  match ← token with
  | .eof =>
    unexpected .eof
    return badStmt start (start + 1)
  | .punct ";" =>
    advance
    return .mk (.of start (start + 1)) .empty
  | .punct "\x7b" => block g
  | .reserved "if" => ifStatement g
  | .reserved "do" => doStatement g
  | .reserved "while" => whileStatement g
  | .reserved "for" => forStatement g
  | .reserved "break" => jumpStatement .breakOff
  | .reserved "continue" => jumpStatement .continueOn
  | .reserved "debugger" => debuggerStatement
  | .reserved "with" => withStatement g
  | .reserved "var" => variableStatement g
  | .reserved "const" => lexicalDeclaration g .const
  | .contextual "let" =>
    if ← startsLet then lexicalDeclaration g .let
    else
      modify fun s => { s with lexer := { s.lexer with closes := true } }
      expressionStatement g
  | .contextual "async" =>
    match ← asyncFunction? g true with
    | some f => return .mk f.extent (.function f)
    | none => expressionStatement g
  | .reserved "function" =>
    let f ← function g true false start
    return .mk f.extent (.function f)
  | .reserved "class" =>
    let c ← classLiteral g true
    return .mk c.extent (.classDeclaration c)
  | .reserved "switch" => switchStatement g
  | .reserved "return" => returnStatement g
  | .reserved "throw" => throwStatement g
  | .reserved "try" => tryStatement g
  | _ => expressionStatement g

end ScriptC.Grammar
