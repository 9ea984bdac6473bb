import ScriptC.Double.Text
import ScriptC.Grammar.Function

/-!
Object literals.
-/

namespace ScriptC.Grammar

open Surface

structure KeyRead where
  key : Option Expr
  computed : Bool := false
  lexeme : Lexeme := {}

def numberKey (value : Literal) (text : String) : String :=
  match value with
  | .number x => x.propertyName
  | _ => text

def key (g : Rules) : Parse KeyRead := do
  if ← accept (.punct "[") then
    let x ← g.assignment
    let _ ← expect (.punct "]")
    return { key := some x, computed := true }
  let l := (← get).lexeme
  advance
  let extent := Extent.of l.start (l.start + l.text.utf8ByteSize)
  let named (name : String) : KeyRead :=
    { key := some (.mk extent (.literal (.string name) name)), lexeme := l }
  match l.token with
  | .identifier | .string | .future | .escaped => return named l.value
  | .number =>
    match Token.numberValue? l.text with
    | some value => return named (numberKey value l.text)
    | none =>
      report (some l.start) .illegalNumber
      return { key := none }
  | .privateName =>
    let extent := (Name.at l.start l.value).extent
    return { key := some (.mk extent (.privateName l.value)), lexeme := l }
  | t =>
    if t.isName then return named l.text
    unexpected t
    return { key := none }

def methodProperty (g : Rules) (start : Nat) (kind : PropertyKind) (isGenerator isAsync : Bool)
    (k : KeyRead) (key : Expr) : Parse Expr := do
  let body ← method g start kind isGenerator isAsync
  return .mk (key.extent.to body.extent) (.keyed kind k.computed key body)

def valueProperty (g : Rules) (k : KeyRead) (key : Expr) : Parse Expr := do
  let _ ← expect (.punct ":")
  let value ← g.assignment
  return .mk (key.extent.to value.extent) (.keyed .value k.computed key value)

/-- A property that is named like the variable it takes its value from. A default may stand behind
it, in case the literal turns out to be a pattern. -/
def shortProperty (g : Rules) (l : Lexeme) : Parse Expr := do
  let n := Name.at l.start l.value
  if ← accept (.punct "=") then
    let value ← g.assignment
    return .mk (n.extent.to value.extent) (.short n (some value))
  else return .mk n.extent (.short n none)

def accessor? (l : Lexeme) : Option (PropertyKind × Bool) :=
  if l.token == .contextual "async" then some (.method, true)
  else if l.text == "get" then some (.get, false)
  else if l.text == "set" then some (.set, false)
  else none

def property (g : Rules) : Parse (Option Expr) := do
  if ← isPunct "..." then return some (← spreadable g)
  let start ← here
  let isGenerator ← accept (.punct "*")
  let k ← key g
  match k.key with
  | none => return none
  | some key =>
    if k.lexeme.token == .privateName then return some (← valueProperty g k key)
    if isGenerator then return some (← methodProperty g start .method true false k key)
    match ← token with
    | .punct "(" => return some (← methodProperty g start .method false false k key)
    | .punct "," | .punct "\x7d" | .punct "=" =>
      if !k.computed && (← isBindingName k.lexeme.token) then
        return some (← shortProperty g k.lexeme)
      unexpected (← token)
      return some (← valueProperty g k key)
    | .punct ":" => return some (← valueProperty g k key)
    | _ =>
      match accessor? k.lexeme with
      | none => return some (← valueProperty g k key)
      | some (kind, isAsync) =>
        let k ← Grammar.key g
        match k.key with
        | none => return none
        | some key => return some (← methodProperty g start kind false isAsync k key)

def objectLiteral (g : Rules) : Parse Expr := do
  let start ← expect (.punct "\x7b")
  let properties ← many (before "\x7d") do
    let p ← property g
    if !(← isPunct "\x7d") then
      let _ ← expect (.punct ",")
    return p
  let stop ← expect (.punct "\x7d")
  return .mk (.of start (stop + 1)) (.object (properties.filterMap id))

end ScriptC.Grammar
