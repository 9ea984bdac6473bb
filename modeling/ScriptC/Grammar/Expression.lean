import ScriptC.Grammar.Operand

/-!
Operators and assignments.
-/

namespace ScriptC.Grammar

open Surface

def binaryOf (op : String) (left right : Expr) : Expr :=
  .mk (left.extent.to right.extent) (.binary op left right)

def updateOf (operand : Expr) (operator : Nat) (update : Expr) : Parse Expr := do
  if operand.isTarget then return update
  report (some operator) .assignmentTarget
  badFrom (some operator)

def update (g : Rules) : Parse Expr := do
  let start ← here
  match ← token with
  | .punct "++" | .punct "--" =>
    let op := if ← isPunct "++" then "++" else "--"
    advance
    let operand ← g.unary
    updateOf operand start (.mk (.of start operand.stop) (.update op true operand))
  | _ =>
    let operand ← callable g
    match ← token with
    | .punct "++" | .punct "--" =>
      if ← lineEnded then return operand
      let op := if ← isPunct "++" then "++" else "--"
      let operator ← here
      advance
      updateOf operand operator
        (.mk ⟨operand.extent.start, operand.stop + 2⟩ (.update op false operand))
    | _ => return operand

def unaryOf (g : Rules) (op : String) : Parse Expr := do
  let start ← here
  advance
  let operand ← g.unary
  return .mk (.of start operand.stop) (.unary op operand)

def awaitOf (g : Rules) : Parse Expr := do
  let start ← here
  advance
  let c ← context
  if !c.inAsync then
    unexpected (.contextual "await")
    return badExpr (.of start (← here))
  if c.inParams then report (some start) .awaitInParams
  let argument ← g.unary
  return .mk (.of start argument.stop) (.await argument)

def unary (g : Rules) : Parse Expr := do
  match ← token with
  | .punct p => if ["+", "-", "!", "~"].contains p then unaryOf g p else update g
  | .reserved w => if ["delete", "void", "typeof"].contains w then unaryOf g w else update g
  | .contextual "await" => if (← context).allowAwait then awaitOf g else update g
  | _ => update g

def power (g : Rules) : Parse Expr := do
  let parenthesis ← isPunct "("
  let left ← unary g
  if !(← isPunct "**") then return left
  match left.form with
  | .unary .. => if !parenthesis then report (some (← here)) .unaryPower
  | _ => pure ()
  iterate (fun left => do
    if ← accept (.punct "**") then return some (binaryOf "**" left (← g.power))
    else return none) left

def grouped (ops : List String) (operand : Parse Expr) : Parse Expr := do
  let left ← operand
  iterate (fun left => do
    match ← token with
    | .punct p =>
      if ops.contains p then
        advance
        return some (binaryOf p left (← operand))
      else return none
    | _ => return none) left

def product (g : Rules) : Parse Expr := grouped ["*", "/", "%"] (power g)

def sum (g : Rules) : Parse Expr := grouped ["+", "-"] (product g)

def shift (g : Rules) : Parse Expr := grouped ["<<", ">>", ">>>"] (sum g)

def relationOperator? (allowIn : Bool) : Parse (Option String) := do
  match ← token with
  | .punct p => return if ["<", "<=", ">", ">="].contains p then some p else none
  | .reserved "instanceof" => return some "instanceof"
  | .reserved "in" => return if allowIn then some "in" else none
  | _ => return none

def relation (g : Rules) : Parse Expr := do
  let allowIn := (← context).allowIn
  if allowIn && (← isAt .privateName) then
    let n ← name
    let left : Expr := .mk n.extent (.privateName n.text)
    if ← accept (.reserved "in") then return binaryOf "in" left (← shift g) else return left
  let left ← shift g
  match ← relationOperator? allowIn with
  | some op =>
    advance
    return binaryOf op left (← allowingIn true g.relation)
  | none => return left

def equality (g : Rules) : Parse Expr := grouped ["==", "!=", "===", "!=="] (relation g)

def bitAnd (g : Rules) : Parse Expr := grouped ["&"] (equality g)

def bitXor (g : Rules) : Parse Expr := grouped ["^"] (bitAnd g)

def bitOr (g : Rules) : Parse Expr := grouped ["|"] (bitXor g)

def conjunction (g : Rules) : Parse Expr := grouped ["&&"] (bitOr g)

def isOpenConjunction (parenthesis : Bool) (x : Expr) : Bool :=
  match x.form with
  | .binary op _ _ => op == "&&" && !parenthesis
  | _ => false

def disjunctionRest (g : Rules) (left : Expr) : Parse Expr :=
  iterate (fun left => do
    if ← accept (.punct "||") then return some (binaryOf "||" left (← conjunction g))
    else return none) left

def coalesceRest (g : Rules) (left : Expr) : Parse Expr := do
  let (left, _) ← iterate (fun (left, goOn) => do
    if !goOn || !(← isPunct "??") then return none
    let operator ← here
    advance
    let parenthesis ← isPunct "("
    let right ← conjunction g
    if isOpenConjunction parenthesis right then
      report (some operator) .mixedCoalesce
      return some (left, false)
    return some (binaryOf "??" left right, true)) (left, true)
  return left

def disjunction (g : Rules) : Parse Expr := do
  let parenthesis ← isPunct "("
  let left ← conjunction g
  if (← isPunct "||") || isOpenConjunction parenthesis left then
    let left ← disjunctionRest g left
    if ← isPunct "??" then report (some (← here)) .mixedCoalesce
    return left
  else
    let left ← coalesceRest g left
    if ← isPunct "||" then report (some (← here)) .mixedCoalesce
    return left

def conditional (g : Rules) : Parse Expr := do
  let test ← disjunction g
  if !(← accept (.punct "?")) then return test
  let consequent ← allowingIn true g.assignment
  let _ ← expect (.punct ":")
  let alternate ← g.assignment
  return .mk (test.extent.to alternate.extent) (.conditional test consequent alternate)

def assignOperators : List String :=
  ["=", "+=", "-=", "*=", "**=", "/=", "%=", "&=", "|=", "^=", "<<=", ">>=", ">>>=", "&&=", "||=",
    "??="]

def yieldsValue : Parse Bool := do
  let t ← token
  return !(← lineEnded) && t != .punct ";" && t != .punct "\x7d" && t != .eof

def yieldArgument (g : Rules) : Parse (Option Expr) := do
  let mark ← get
  let x ← g.assignment
  if x.isBad then
    rewind mark
    return none
  else return some x

def yieldOf (g : Rules) : Parse Expr := do
  let start ← here
  advance
  if (← context).inParams then report (some start) .yieldInParams
  let delegate ← if ← lineEnded then pure false else accept (.punct "*")
  let argument ← if ← yieldsValue then yieldArgument g else pure none
  return .mk (.of start ((argument.map (·.stop)).getD (start + 5))) (.yield delegate argument)

def asyncArrow (g : Rules) (start : Nat) : Parse Expr :=
  allowingAwait true do
    takeAsName
    if !(← isAt .identifier) then
      unexpected (← token)
      advance
      return badExpr (.of start (← here))
    let n ← name
    arrow g start { list := [.ofName n] } true

inductive ArrowStart where
  | plain
  | parenthesis
  | async
  deriving DecidableEq

def arrowParams (g : Rules) (kind : ArrowStart) (mark : State) (left : Expr) :
    Parse (Option Params) := do
  match kind, left.form with
  | _, .identifier _ => return some { list := [left] }
  | .parenthesis, .sequence items =>
    if (← get).error.isNone then return some { list := ← items.mapM asBinding }
    else
      rewind mark
      return some (← params g)
  | .parenthesis, _ =>
    rewind mark
    return some (← params g)
  | .async, .call .. =>
    rewind mark
    advance
    return some (← params g)
  | _, _ => return none

def arrowOf (g : Rules) (kind : ArrowStart) (start : Nat) (mark : State) (left : Expr) :
    Parse Expr := do
  let whole : Parse Expr := do
    match ← arrowParams g kind mark left with
    | some ps => arrow g start ps (kind == .async)
    | none =>
      report left.extent.start .arrowParams
      return badExpr left.extent
  if kind == .async then allowingAwait true whole else whole

def assignmentOf (g : Rules) (op : String) (parenthesis : Bool) (start : Nat) (left : Expr) :
    Parse Expr := do
  advance
  let target ←
    match left.form with
    | .array _ | .object _ =>
      if !parenthesis && op == "=" then some <$> asAssignTarget left else pure none
    | _ => pure (if left.isTarget then some left else none)
  match target with
  | some target =>
    let right ← g.assignment
    return .mk (target.extent.to right.extent) (.assign op target right)
  | none =>
    report left.extent.start .assignmentTarget
    badFrom (some start)

def assignmentRest (g : Rules) (kind : ArrowStart) (start : Nat) (mark : State) : Parse Expr := do
  let left ← conditional g
  match ← token with
  | .punct p =>
    if p == "=>" then arrowOf g kind start mark left
    else if assignOperators.contains p then assignmentOf g p (kind == .parenthesis) start left
    else return left
  | _ => return left

def assignment (g : Rules) : Parse Expr := do
  let start ← here
  let mark ← get
  let plain : Parse Expr := do
    takeAsName
    assignmentRest g .plain start mark
  match ← token with
  | .punct "(" => assignmentRest g .parenthesis start mark
  | .contextual "async" =>
    let t ← peek
    if ← isBindingName t then
      advance
      asyncArrow g start
    else assignmentRest g (if t == .punct "(" then .async else .plain) start mark
  | .contextual "yield" => if (← context).allowYield then yieldOf g else plain
  | _ => plain

end ScriptC.Grammar
