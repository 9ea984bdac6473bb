import ScriptC.Grammar.Object

/-!
Classes.
-/

namespace ScriptC.Grammar

open Surface

def checkMember (isStatic isMethod isAsync isGenerator : Bool) (kind : PropertyKind) (k : KeyRead)
    (key : Expr) : Parse Unit := do
  let isPrivate := k.lexeme.token == .privateName
  let name := if k.computed then "" else k.lexeme.value
  let start := key.extent.start
  if isStatic && !isPrivate && name == "prototype" then report start .staticPrototype
  if name == "constructor" then
    if isMethod then
      if !isStatic then
        if kind != .method then report start .constructorAccessor
        else if isAsync then report start .constructorAsync
        else if isGenerator then report start .constructorGenerator
      else if isPrivate then report start .constructorPrivate
    else report start .constructorField

def isMark (others : List String) : Parse Bool := do
  match ← peek with
  | .punct p => return !others.contains p
  | _ => return true

/-- A class member after `static`, if that stands before it. Fields end where a statement may end;
the second component is false after one that does not. -/
def member (g : Rules) (start : Nat) (isStatic : Bool) : Parse (Option Expr × Bool) := do
  let functionStart ← here
  let text := (← get).lexeme.text
  let mut kind : Option PropertyKind := none
  let mut isAsync := false
  if text == "get" || text == "set" then
    if ← isMark [";", "("] then
      kind := some (if text == "get" then .get else .set)
      advance
  else if ← isAt (.contextual "async") then
    if ← isMark [";", "("] then
      kind := some .method
      isAsync := true
      advance
  let mut isGenerator := false
  if (← isPunct "*") && (kind == none || kind == some .method) then
    isGenerator := true
    kind := some .method
    advance
  let k ← key g
  match k.key with
  | none => return (none, true)
  | some key =>
    let isMethod := kind.isSome || (← isPunct "(")
    let methodKind := kind.getD .method
    checkMember isStatic isMethod isAsync isGenerator methodKind k key
    if isMethod then
      let body ← method g functionStart methodKind isGenerator isAsync
      let made := .method isStatic methodKind k.computed key body
      return (some (.mk (.of start body.stop) made), true)
    let init ← if ← accept (.punct "=") then some <$> expression g else pure none
    let t ← token
    if !(← lineEnded) && t != .punct ";" && t != .punct "\x7d" then
      unexpected t
      return (none, false)
    let stop := (init.getD key).stop
    return (some (.mk (.of start stop) (.field isStatic k.computed key init)), true)

def element (g : Rules) : Parse (Option Expr × Bool) := do
  let start ← here
  if ← isAt (.contextual "static") then
    if ← isMark ["=", ";", "\x7d", "("] then
      advance
      if ← isPunct "\x7b" then
        let body ← functionBody g false true false
        return (some (.mk (.of start body.stop) .staticBlock), true)
      return ← member g start true
  member g start false

def elements (g : Rules) : Parse (List Expr) := do
  let (found, _) ← iterate (fun (found, goOn) => do
    if !goOn || !(← before "\x7d") then return none
    if ← accept (.punct ";") then return some (found, true)
    let (e, goOn) ← element g
    return some (e.toList ++ found, goOn)) (([] : List Expr), true)
  return found.reverse

def classLiteral (g : Rules) (isDeclaration : Bool) : Parse Expr := do
  if isDeclaration && !(← context).allowLet then unexpected (.reserved "class")
  let start ← expect (.reserved "class")
  takeAsName
  let className ←
    if ← isAt .identifier then some <$> name
    else do
      if isDeclaration then
        let _ ← expect .identifier
      pure none
  let superclass ←
    if ← isPunct "\x7b" then pure none
    else do
      let _ ← expect (.reserved "extends")
      some <$> g.callable
  let _ ← expect (.punct "\x7b")
  let members ← elements g
  let stop ← expect (.punct "\x7d")
  return .mk (.of start (stop + 1)) (.classLiteral className superclass members)

end ScriptC.Grammar
