import ScriptC.Grammar.Class
import ScriptC.Grammar.Literal

/-!
Operands: literals, names, members and calls.
-/

namespace ScriptC.Grammar

open Surface

def dotMember (left : Expr) (optional : Bool) : Parse Expr := do
  advance
  let l := (← get).lexeme
  let n := Name.at l.start l.value
  if l.token == .privateName then
    advance
    return .mk (left.extent.to n.extent) (.privateMember left l.value)
  if !l.token.isName then
    let _ ← expect .identifier
    return ← badFrom left.extent.start
  advance
  return .mk (left.extent.to n.extent) (.member optional left n)

def bracketMember (g : Rules) (left : Expr) (optional : Bool) : Parse Expr := do
  let _ ← expect (.punct "[")
  let key ← expression g
  let stop ← expect (.punct "]")
  return .mk ⟨left.extent.start, stop + 1⟩ (.index optional left key)

def arguments (g : Rules) : Parse (List Expr × Nat) := do
  let _ ← expect (.punct "(")
  let (args, _) ← iterate (fun (args, goOn) => do
    if !goOn || (← isPunct ")") then return none
    let arg ← spreadable g
    return some (arg :: args, ← accept (.punct ","))) (([] : List Expr), true)
  let stop ← expect (.punct ")")
  return (args.reverse, stop + 1)

def callOf (g : Rules) (callee : Expr) (optional : Bool) : Parse Expr := do
  let (args, stop) ← arguments g
  return .mk ⟨callee.extent.start, stop⟩ (.call optional callee args)

def superMember (g : Rules) : Parse Expr := do
  let start ← here
  advance
  let target : Expr := .mk (.of start (start + 5)) .super
  match ← token with
  | .punct "." =>
    advance
    let l := (← get).lexeme
    if !l.token.isName then
      let _ ← expect .identifier
      return ← badFrom (some start)
    advance
    let n := Name.at l.start l.value
    return .mk (target.extent.to n.extent) (.member false target n)
  | .punct "[" => bracketMember g target false
  | .punct "(" => callOf g target false
  | _ =>
    report (some start) .superKeyword
    badFrom (some start)

/-- Expressions in parentheses. More than one expression, none, or a rest are read too, in case they
turn out to be parameters. -/
def parenthesized (g : Rules) : Parse Expr := do
  let start ← expect (.punct "(")
  let (list, _) ← iterate (fun (list, goOn) => do
    if !goOn || (list.isEmpty && (← isPunct ")")) then return none
    let item ←
      if ← isPunct "..." then do
        let dots ← here
        unexpected (.punct "...")
        advance
        let x ← g.assignment
        pure (badExpr (.of dots x.stop))
      else g.assignment
    let list := item :: list
    if ← accept (.punct ",") then
      if ← isPunct ")" then
        unexpected (.punct ")")
        return some (list, false)
      return some (list, true)
    return some (list, false)) (([] : List Expr), true)
  let _ ← expect (.punct ")")
  match list with
  | [] =>
    unexpected (.punct ")")
    return badExpr (.of start (← here))
  | [x] => if (← get).error.isNone then return x else return .mk x.extent (.sequence [x])
  | last :: others =>
    let first := others.getLastD last
    return .mk (first.extent.to last.extent) (.sequence list.reverse)

def primary (g : Rules) : Parse Expr := do
  let l := (← get).lexeme
  let start := l.start
  let word (form : Form) : Parse Expr := do
    advance
    return .mk (.of start (start + l.text.utf8ByteSize)) form
  let other : Parse Expr := do
    if ← isBindingName l.token then return .ofName (← name)
    unexpected l.token
    badFrom (some start)
  match l.token with
  | .identifier => return .ofName (← name)
  | .reserved "null" => word (.literal .null "null")
  | .reserved "true" => word (.literal (.boolean true) l.text)
  | .reserved "false" => word (.literal (.boolean false) l.text)
  | .reserved "this" => word .this
  | .string => word (.literal (.string l.value) l.text)
  | .number => number
  | .punct "/" | .punct "/=" => regexp
  | .punct "\x7b" => g.object
  | .punct "[" => arrayLiteral g
  | .punct "(" => parenthesized g
  | .punct "`" => template g none
  | .reserved "super" => superMember g
  | .contextual "async" =>
    match ← asyncFunction? g false with
    | some f => return f
    | none => other
  | .reserved "function" => function g false false start
  | .reserved "class" => classLiteral g false
  | _ => other

def newExpression (g : Rules) : Parse Expr := do
  let start ← expect (.reserved "new")
  if ← accept (.punct ".") then
    if (← get).lexeme.text == "target" then
      let n ← name
      return .mk ⟨none, n.extent.stop⟩ .newTarget
    unexpected .identifier
  let callee ← g.operand
  if callee.isBad then return badExpr ⟨some start, callee.stop⟩
  if ← isPunct "(" then
    let (args, stop) ← arguments g
    return .mk (.of start (if args.isEmpty then callee.stop else stop)) (.new callee args)
  else return .mk (.of start callee.stop) (.new callee [])

def operandStart (g : Rules) : Parse Expr := do
  if ← isWord "new" then newExpression g else primary g

def operand (g : Rules) : Parse Expr := do
  let left ← operandStart g
  iterate (fun left => do
    match ← token with
    | .punct "." => return some (← dotMember left false)
    | .punct "[" => return some (← bracketMember g left false)
    | .punct "`" => return some (← template g (some left))
    | _ => return none) left

structure Links where
  left : Expr
  chain : Bool := false
  optional : Bool := false

def link (g : Rules) (start : Nat) (l : Links) : Parse (Option Links) := do
  let done (left : Expr) : Option Links := some { l with left, optional := false }
  match ← token with
  | .punct "." => return done (← dotMember l.left l.optional)
  | .punct "[" => return done (← bracketMember g l.left l.optional)
  | .punct "(" => return done (← callOf g l.left l.optional)
  | .punct "`" =>
    if l.chain then
      report (some (← here)) .templateOnChain
      return some { left := ← badFrom (some start) }
    return done (← template g (some l.left))
  | .punct "?." =>
    match ← peek with
    | .punct "[" | .punct "(" | .punct "`" =>
      advance
      return some { l with chain := true, optional := true }
    | _ => return some { left := ← dotMember l.left true, chain := true }
  | _ => return none

def callable (g : Rules) : Parse Expr :=
  allowingIn true do
    let start ← here
    let l ← iterate (link g start) { left := ← operandStart g }
    if l.chain then return .mk l.left.extent (.chain l.left) else return l.left

end ScriptC.Grammar
