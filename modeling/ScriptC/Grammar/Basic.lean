import ScriptC.Surface.Basic
import ScriptC.Token.Scan

/-!
Reading phrases from tokens. An error does not end the reading: it is kept, a phrase that cannot be
read is passed over up to where a statement may start, and reading goes on there. What was read may
yet be forgotten, with its errors, when it turns out to be something else. The first error that is
left at the end is the one reported.
-/

namespace ScriptC.Grammar

open Surface

structure Context where
  allowIn : Bool := true
  allowLet : Bool := false
  inLoop : Bool := false
  inSwitch : Bool := false
  inParams : Bool := false
  inFunction : Bool := false
  inAsync : Bool := false
  allowAwait : Bool := false
  allowYield : Bool := false
  labels : List String := []
  deriving Inhabited

structure Resumption where
  offset : Option Nat := none
  repeats : Nat := 0
  deriving Inhabited

structure State where
  text : Cursor
  size : Nat
  lexer : Lexer
  lexeme : Lexeme := {}
  error : Option TextError := none
  context : Context := {}
  resumption : Resumption := {}
  deriving Inhabited

abbrev Parse := StateT State (Except Miscount)

/-! Tokens. -/

def token : Parse Token := return (← get).lexeme.token

def here : Parse Nat := return (← get).lexeme.start

def keep (errors : List TextError) : Parse Unit :=
  modify fun s => { s with error := s.error <|> errors.head? }

def report (offset : Option Nat) (fault : TextFault) : Parse Unit := do
  keep [⟨fault, offset.getD (← get).lexer.cursor.offset⟩]

def Context.judge (c : Context) (l : Lexeme) : Lexeme :=
  if l.token == .identifier &&
      ((c.allowAwait && l.value == "await") || (c.allowYield && l.value == "yield")) then
    { l with token := .escaped }
  else l

def scanNext : Parse Lexer.Scan := do
  let scan := (← get).lexer.scan
  keep scan.errors
  match scan.miscount with
  | some m => throw m
  | none => return scan

def advance : Parse Unit := do
  let scan ← scanNext
  modify fun s => { s with lexeme := s.context.judge scan.lexeme, lexer := scan.lexer }

def peek : Parse Token := do
  let scan ← scanNext
  return ((← get).context.judge scan.lexeme).token

def unexpected (t : Token) : Parse Unit := do
  let at_ := some (← here)
  match t with
  | .eof => report none .unexpectedEnd
  | .identifier => report at_ .unexpectedIdentifier
  | .future => report at_ .unexpectedReserved
  | .escaped => report at_ .escapedWord
  | .number => report at_ .unexpectedNumber
  | .string => report at_ .unexpectedString
  | .illegal => report at_ (.unexpectedToken "ILLEGAL")
  | .privateName => report at_ (.unexpectedToken "PRIVATE_IDENTIFIER")
  | .punct text | .reserved text | .contextual text => report at_ (.unexpectedToken text)

def expect (t : Token) : Parse Nat := do
  let start ← here
  let found ← token
  if found != t then unexpected found
  advance
  return start

def isAt (t : Token) : Parse Bool := return (← token) == t

def isPunct (text : String) : Parse Bool := isAt (.punct text)

def isWord (word : String) : Parse Bool := isAt (.reserved word)

def accept (t : Token) : Parse Bool := do
  if ← isAt t then
    advance
    return true
  else return false

def rewind (mark : State) : Parse Unit :=
  modify fun s => { mark with context := s.context, resumption := s.resumption }

def resumeWords : List String :=
  ["break", "continue", "for", "if", "return", "switch", "var", "do", "try", "with", "while",
    "throw", "catch", "finally"]

def resumeLimit : Nat := 10

/-- Whether reading may go on at an offset, and what is remembered of it then. It may as long as
there is progress, and a number of times without. -/
def Resumption.at? (r : Resumption) (offset : Nat) : Option Resumption :=
  if r.offset == some offset && r.repeats < resumeLimit then
    some { r with repeats := r.repeats + 1 }
  else if r.offset.all (· < offset) then some { offset := some offset }
  else none

def resume : Parse Unit := do
  go ((← get).size + 1)
where
  go : Nat → Parse Unit
    | 0 => return
    | fuel + 1 => do
      let s ← get
      match s.lexeme.token with
      | .eof => return
      | .reserved word =>
        match if resumeWords.contains word then s.resumption.at? s.lexeme.start else none with
        | some resumption => set { s with resumption }
        | none =>
          advance
          go fuel
      | _ =>
        advance
        go fuel

/-! Statements' ends. -/

def lineEnded : Parse Bool := return (← get).lexer.closed

def forgetLineEnd : Parse Unit :=
  modify fun s => { s with lexer := { s.lexer with closed := false } }

def semicolon : Parse Unit := do
  let t ← token
  if t != .punct ")" && t != .punct "\x7d" then
    if ← lineEnded then forgetLineEnd
    else
      let _ ← expect (.punct ";")

def statementEnd : Parse Unit := do
  if ← accept (.punct ";") then return
  if ← lineEnded then forgetLineEnd
  else
    let t ← token
    if t != .eof && t != .punct "\x7d" then
      let _ ← expect (.punct ";")

/-! What is allowed. -/

def context : Parse Context := return (← get).context

def modifyContext (f : Context → Context) : Parse Unit :=
  modify fun s => { s with context := f s.context }

def during {α β : Type} (read : Context → β) (write : β → Context → Context) (value : β)
    (x : Parse α) : Parse α := do
  let old := read (← context)
  modifyContext (write value)
  let a ← x
  modifyContext (write old)
  return a

def allowingIn {α : Type} : Bool → Parse α → Parse α :=
  during (·.allowIn) fun b c => { c with allowIn := b }

def allowingAwait {α : Type} : Bool → Parse α → Parse α :=
  during (·.allowAwait) fun b c => { c with allowAwait := b }

def allowingYield {α : Type} : Bool → Parse α → Parse α :=
  during (·.allowYield) fun b c => { c with allowYield := b }

def insideAsync {α : Type} : Bool → Parse α → Parse α :=
  during (·.inAsync) fun b c => { c with inAsync := b }

def insideLoop {α : Type} : Parse α → Parse α :=
  during (·.inLoop) (fun b c => { c with inLoop := b }) true

def insideSwitch {α : Type} : Parse α → Parse α :=
  during (·.inSwitch) (fun b c => { c with inSwitch := b }) true

def insideParams {α : Type} : Parse α → Parse α :=
  during (·.inParams) (fun b c => { c with inParams := b }) true

def insideFunction {α : Type} (isAsync allowAwait allowYield : Bool) : Parse α → Parse α :=
  during id (fun new _ => new)
    { inFunction := true, inAsync := isAsync, allowAwait, allowYield }

def allowLet (b : Bool) : Parse Unit :=
  modifyContext fun c => { c with allowLet := b }

def allowIn (b : Bool) : Parse Unit :=
  modifyContext fun c => { c with allowIn := b }

def isBindingName (t : Token) : Parse Bool := do
  let c ← context
  match t with
  | .identifier => return true
  | .contextual "await" => return !c.allowAwait
  | .contextual "yield" => return !c.allowYield
  | .contextual _ => return true
  | _ => return false

def takeAsName : Parse Unit := do
  if ← isBindingName (← token) then
    modify fun s => { s with lexeme := { s.lexeme with token := .identifier } }

def name : Parse Name := do
  let l := (← get).lexeme
  advance
  return .at l.start l.value

/-! Phrases. -/

structure Rules where
  assignment : Parse Expr
  unary : Parse Expr
  power : Parse Expr
  relation : Parse Expr
  operand : Parse Expr
  callable : Parse Expr
  object : Parse Expr
  statement : Parse Stmt

/-- Read items as long as there are more. Each takes at least one token, unless reading goes on at
one place, so their number is bounded. -/
def many {α : Type} (more : Parse Bool) (item : Parse α) : Parse (List α) := do
  go ((resumeLimit + 2) * ((← get).size + 1))
where
  go : Nat → Parse (List α)
    | 0 => return []
    | fuel + 1 => do
      if ← more then
        let a ← item
        return a :: (← go fuel)
      else return []

def iterate {α : Type} (step : α → Parse (Option α)) (a : α) : Parse α := do
  go ((← get).size + 1) a
where
  go : Nat → α → Parse α
    | 0, a => return a
    | fuel + 1, a => do
      match ← step a with
      | some b => go fuel b
      | none => return a

def before (close : String) : Parse Bool := do
  let t ← token
  return t != .punct close && t != .eof

def badExpr (extent : Extent) : Expr := .mk extent .bad

def badFrom (start : Option Nat) : Parse Expr := do
  resume
  return badExpr ⟨start, ← here⟩

def expression (g : Rules) : Parse Expr := do
  let first ← g.assignment
  if ← isPunct "," then
    let others ← many (isPunct ",") (do advance; g.assignment)
    let last := others.getLastD first
    return .mk (first.extent.to last.extent) (.sequence (first :: others))
  else return first

end ScriptC.Grammar
