import ScriptC.Grammar.Basic

/-!
Regular expressions, templates and numbers.
-/

namespace ScriptC.Grammar

open Surface

def moveTo (c : Cursor) (closes : Bool) : Parse Unit :=
  modify fun s => { s with lexer := { s.lexer with cursor := c, closes } }

/-- The bytes of the text from one offset to another, as characters. Each byte of a character that
does not end before the second one is replaced. -/
def textFrom (start stop : Nat) : Parse String := do
  let rec go : List (Option Char) → Nat → List Char
    | [], _ => []
    | x :: rest, offset =>
      let after := offset + Text.width x
      if offset < start then go rest after
      else if after > stop then List.replicate (stop - offset) Text.replacement
      else x.getD Text.replacement :: go rest after
  return String.ofList (go (← get).text.rest 0)

def partsFlags (c : Char) : Bool :=
  Token.isLineEnd c || (Lexer.isBlank c && c != '\u0085')

/-- The flags behind a regular expression, and the offset at which its text ends. Flags stand right
behind the slash; the text then reaches up to the last byte of the token behind them. -/
def regexpFlags (stop : Cursor) : Parse (String × Nat) := do
  advance
  if stop.test partsFlags then return ("", stop.offset)
  if ← isAt .identifier then
    let flags := (← get).lexeme.text
    advance
    return (flags, (← get).lexer.cursor.offset - 1)
  else return ("", stop.offset)

def regexp : Parse Expr := do
  let start ← here
  let c := (← get).lexer.cursor
  let (finish, stop) := Token.regexpEnd false c.rest c.offset
  if finish == .missing then report (some start) .missingSlash
  moveTo stop true
  let pattern ← if finish == .closed then textFrom (start + 1) (stop.offset - 1) else pure ""
  let (flags, textStop) ← regexpFlags stop
  let raw ← textFrom start textStop
  return .mk (.of start textStop) (.literal (.regexp pattern flags) raw)

structure TemplateRead where
  text : TemplateText := {}
  values : List Expr := []
  stop : Option Nat := none

def addStretch (t : TemplateText) (s : Token.Stretch) : TemplateText :=
  { cooked := t.cooked ++ [s.value.toOption.getD ""]
    raws := t.raws ++ [s.raw]
    invalid := t.invalid ++ [s.value.toOption.isNone] }

/-- Read a stretch of a template and the substitution behind it. A bad escape is reported unless the
template is tagged. -/
def templateStep (g : Rules) (tagged : Bool) (t : TemplateRead) : Parse (Option TemplateRead) := do
  if t.stop.isSome then return none
  let s := Token.stretchAt (← get).lexer.cursor
  moveTo s.stop true
  if s.finish == .missing then report (some s.stop.offset) .unexpectedEnd
  match s.value with
  | .error (.miscount m) => throw m
  | .error (.escape f) => if !tagged then report (some s.stop.next.offset) (.escape f)
  | .ok _ => pure ()
  let text := addStretch t.text s
  advance
  if s.finish != .substitution then return some { t with text, stop := some s.stop.offset }
  let value ← expression g
  if !(← isPunct "\x7d") then unexpected (← token)
  return some { t with text, values := t.values ++ [value] }

def template (g : Rules) (tag : Option Expr) : Parse Expr := do
  let start ← here
  let t ← iterate (templateStep g tag.isSome) {}
  return .mk (.of start (t.stop.getD start)) (.template tag t.text t.values)

def number : Parse Expr := do
  let l := (← get).lexeme
  advance
  let extent := Extent.of l.start (l.start + l.text.utf8ByteSize)
  match Token.numberValue? l.text with
  | some value => return .mk extent (.literal value l.text)
  | none =>
    report (some l.start) .illegalNumber
    return .mk extent (.literal (.number .zero) l.text)

end ScriptC.Grammar
