import ScriptC.Grammar.Binding

/-!
Functions, methods and blocks.
-/

namespace ScriptC.Grammar

open Surface

def statements (g : Rules) : Parse (List Stmt) :=
  many (before "\x7d") (do allowLet true; g.statement)

def block (g : Rules) : Parse Stmt := do
  let start ← expect (.punct "\x7b")
  let body ← statements g
  let stop ← expect (.punct "\x7d")
  return .mk (.of start (stop + 1)) (.block body)

def functionBody (g : Rules) (isAsync allowAwait allowYield : Bool) : Parse Stmt :=
  insideFunction isAsync allowAwait allowYield (block g)

def functionRest (g : Rules) (isAsync isGenerator : Bool) : Parse (Params × Stmt) := do
  let ps ← params g
  return (ps, ← functionBody g isAsync isAsync isGenerator)

/-- A function, from its keyword on. The name of a declaration is read with what is allowed around
it, that of an expression with what is allowed inside. -/
def function (g : Rules) (isDeclaration isAsync : Bool) (start : Nat) : Parse Expr := do
  let _ ← expect (.reserved "function")
  let isGenerator ← accept (.punct "*")
  let inside {α : Type} (x : Parse α) : Parse α :=
    allowingAwait isAsync (allowingYield isGenerator x)
  let nameOf : Parse (Option Name) := do
    takeAsName
    if ← isAt .identifier then return some (← name)
    if isDeclaration then
      let _ ← expect .identifier
    return none
  let (name, ps, body) ←
    if isDeclaration then do
      let name ← nameOf
      let (ps, body) ← inside (functionRest g isAsync isGenerator)
      pure (name, ps, body)
    else inside do
      let name ← nameOf
      let (ps, body) ← functionRest g isAsync isGenerator
      return (name, ps, body)
  return .mk (.of start body.stop) (.function name isAsync isGenerator ps.list ps.rest body)

def asyncFunction? (g : Rules) (isDeclaration : Bool) : Parse (Option Expr) := do
  if (← peek) == .reserved "function" then
    let start ← here
    advance
    return some (← function g isDeclaration true start)
  else return none

def method (g : Rules) (start : Nat) (kind : PropertyKind) (isGenerator isAsync : Bool) :
    Parse Expr := do
  let paren ← here
  allowingYield isGenerator <| allowingAwait isAsync do
    let ps ← params g
    match kind with
    | .get => if !ps.list.isEmpty || ps.rest.isSome then report (some paren) .getterParams
    | .set => if ps.list.length != 1 || ps.rest.isSome then report (some paren) .setterParams
    | _ => pure ()
    let body ← functionBody g isAsync isAsync isGenerator
    return .mk (.of start body.stop) (.function none isAsync isGenerator ps.list ps.rest body)

def arrow (g : Rules) (start : Nat) (ps : Params) (isAsync : Bool) : Parse Expr := do
  let _ ← expect (.punct "=>")
  let body ←
    if ← isPunct "\x7b" then functionBody g isAsync isAsync false
    else do
      let c ← context
      let short : Parse Expr :=
        if isAsync != c.inAsync || isAsync != c.allowAwait then
          insideAsync isAsync (allowingAwait isAsync (allowingYield false g.assignment))
        else g.assignment
      let value ← short
      pure (.mk value.extent (.expression value))
  return .mk (.of start body.stop) (.arrow isAsync ps.list ps.rest body)

end ScriptC.Grammar
