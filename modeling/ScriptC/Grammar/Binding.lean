import ScriptC.Grammar.Pattern

/-!
Array literals, and the bindings of declarations and parameters.
-/

namespace ScriptC.Grammar

open Surface

def spreadable (g : Rules) : Parse Expr := do
  if ← accept (.punct "...") then
    let argument ← g.assignment
    return .mk argument.extent (.spread argument)
  else g.assignment

def arrayLiteral (g : Rules) : Parse Expr := do
  let start ← expect (.punct "[")
  let items ← many (before "]") do
    if ← accept (.punct ",") then return none
    let item ← spreadable g
    if !(← isPunct "]") then
      let _ ← expect (.punct ",")
    return some item
  let stop ← expect (.punct "]")
  return .mk (.of start (stop + 1)) (.array items)

def declared (g : Rules) : Parse Expr := do
  takeAsName
  match ← token with
  | .identifier => return .ofName (← name)
  | .punct "[" => asBindingTarget (← arrayLiteral g)
  | .punct "\x7b" => asBindingTarget (← g.object)
  | _ =>
    let start ← expect .identifier
    badFrom (some start)

def binding (g : Rules) : Parse Expr := do
  let target ← declared g
  if ← accept (.punct "=") then return target.withDefault (some (← g.assignment))
  else return target

def bindings (g : Rules) : Parse (List Expr) := do
  let first ← binding g
  return first :: (← many (isPunct ",") (do advance; binding g))

def requireValues : List Expr → Parse Unit
  | [] => return
  | b :: bs => do
    match b.form with
    | .arrayPattern .. | .objectPattern .. => report (some b.stop) .missingInitializer
    | _ => requireValues bs

structure Params where
  list : List Expr := []
  rest : Option Expr := none

def params (g : Rules) : Parse Params := do
  let _ ← expect (.punct "(")
  let (list, rest) ← insideParams do
    let list ← many (do return (← before ")") && !(← isPunct "...")) do
      let b ← binding g
      if !(← isPunct ")") then
        let _ ← expect (.punct ",")
      return b
    if ← accept (.punct "...") then
      let rest ← asBindingTarget (← g.assignment)
      let _ ← expect (.punct ")")
      return (list, some rest)
    else
      let _ ← expect (.punct ")")
      return (list, none)
  return { list, rest }

end ScriptC.Grammar
