import ScriptC.Token.Basic
import ScriptC.Token.Name
import ScriptC.Token.Number
import ScriptC.Token.Quoted

/-!
Reading tokens. Whether a line end may end a statement depends on the token before it, so the lexer
remembers that, and tells for each token whether such a line end stands before it.
-/

namespace ScriptC

structure Lexeme where
  token : Token := .eof
  text : String := ""
  value : String := ""
  start : Nat := 0
  deriving Inhabited

structure Lexer where
  cursor : Cursor
  closes : Bool := false
  closed : Bool := false
  deriving Inhabited

namespace Lexer

def isBlank (c : Char) : Bool :=
  " \t\x0b\x0c\u0085\u00a0\u1680\u202f\u205f\u3000\ufeff".toList.contains c ||
    ('\u2000' ≤ c && c ≤ '\u200a')

inductive Blank where
  | code
  | line
  | block (lineEnd : Bool)

def lineEnd (closes closed : Bool) : Bool × Bool :=
  (false, closes || closed)

/-- Move over blanks, line ends and comments. The last component tells whether a comment is open at
the end of the text. -/
def skipBlanks : Blank → Bool → Bool → List (Option Char) → Nat → Lexer × Bool
  | state, closes, closed, [], offset =>
    let lexer : Lexer := ⟨⟨[], offset⟩, closes, closed⟩
    match state with
    | .block ended =>
      (if ended then { lexer with closes := false, closed := true } else lexer, true)
    | _ => (lexer, false)
  | .block ended, closes, closed, some '*' :: some '/' :: rest, offset =>
    if ended then skipBlanks .code false true rest (offset + 2)
    else skipBlanks .code closes closed rest (offset + 2)
  | .code, closes, closed, some '/' :: some '/' :: rest, offset =>
    skipBlanks .line closes closed rest (offset + 2)
  | .code, closes, closed, some '/' :: some '*' :: rest, offset =>
    skipBlanks (.block false) closes closed rest (offset + 2)
  | .code, closes, closed, some '#' :: some '!' :: rest, 0 =>
    skipBlanks .line closes closed rest 2
  | state, closes, closed, x :: rest, offset =>
    let ended := x.any Token.isLineEnd
    let after := offset + Text.width x
    match state with
    | .block seen => skipBlanks (.block (seen || ended)) closes closed rest after
    | .line =>
      if ended then
        let (closes, closed) := lineEnd closes closed
        skipBlanks .code closes closed rest after
      else skipBlanks .line closes closed rest after
    | .code =>
      if ended then
        let (closes, closed) := lineEnd closes closed
        skipBlanks .code closes closed rest after
      else if x.any isBlank then skipBlanks .code closes closed rest after
      else (⟨⟨x :: rest, offset⟩, closes, closed⟩, false)

structure Scan where
  lexeme : Lexeme
  lexer : Lexer
  errors : List TextError := []
  miscount : Option Miscount := none

/-- Move over the blanks up to the end of a line, or up to what follows on it. The first half of a
line end in two halves is passed too. -/
def skipLine (c : Cursor) : Cursor :=
  let c := c.skipWhile isBlank
  if c.has '\r' && c.second? == some '\n' then c.next else c

/-- Read a word. The one that makes a function asynchronous does so only on the line of the
function, so what follows it on its line is looked for at once; at the end of a line it is a
name. -/
def scanWord (l : Lexer) : Scan :=
  let start := l.cursor
  let scan := Token.nameAt start
  let illegal : Scan :=
    { lexeme := { token := .illegal, start := start.offset }
      lexer := ⟨scan.stop, false, l.closed⟩ }
  match scan.value with
  | none => illegal
  | some chars =>
    let value := String.ofList chars
    let token := if scan.escaped then Token.ofEscapedWord value else Token.ofWord value
    let isAsync := token == .contextual "async"
    let stop := if isAsync then skipLine scan.stop else scan.stop
    let token := if isAsync && stop.test Token.isLineEnd then .identifier else token
    let closes := token.endsStatement || (l.closes && token.isName)
    { lexeme :=
        { token, text := start.textTo scan.stop.offset, value, start := start.offset }
      lexer := ⟨stop, closes, l.closed⟩ }

def scanPrivate (l : Lexer) : Scan :=
  let start := l.cursor
  let scan := Token.nameAt start.next
  match scan.value with
  | some (c :: chars) =>
    { lexeme :=
        { token := .privateName, text := start.next.textTo scan.stop.offset
          value := String.ofList (c :: chars), start := start.offset }
      lexer := ⟨scan.stop, true, l.closed⟩ }
  | _ =>
    { lexeme := { token := .illegal, start := start.offset }
      lexer := ⟨scan.stop, false, l.closed⟩ }

def scanNumber (l : Lexer) : Scan :=
  let start := l.cursor
  let scan := Token.scanNumber start
  { lexeme :=
      { token := if scan.wellFormed then .number else .illegal
        text := start.textTo scan.stop.offset, start := start.offset }
    lexer := ⟨scan.stop, true, l.closed⟩
    errors := scan.separator.toList.map fun offset => ⟨.numericSeparator, offset⟩ }

def scanString (l : Lexer) (quote : Char) : Scan :=
  let start := l.cursor
  let illegal (stop : Cursor) : Scan :=
    { lexeme := { token := .illegal, start := start.offset }, lexer := ⟨stop, true, l.closed⟩ }
  match Token.stringEnd quote start.next.rest start.next.offset with
  | .error stop => illegal stop
  | .ok stop =>
    match Token.textValue false (start.next.charsTo (stop.offset - 1)) with
    | .ok value =>
      { lexeme :=
          { token := .string, text := start.textTo stop.offset, value, start := start.offset }
        lexer := ⟨stop, true, l.closed⟩ }
    | .error (.escape _) => illegal stop
    | .error (.miscount m) => { illegal stop with miscount := some m }

def punctAt? (c : Cursor) : Option (String × Cursor) :=
  Token.punctuators.findSome? fun p =>
    match c.skipText? p.toList with
    | some stop => if p == "?." && stop.test Char.isDigit then none else some (p, stop)
    | none => none

def scanPunct (l : Lexer) : Scan :=
  let start := l.cursor.offset
  let illegal (stop : Cursor) (errors : List TextError) : Scan :=
    { lexeme := { token := .illegal, start }, lexer := ⟨stop, false, l.closed⟩, errors }
  match punctAt? l.cursor with
  | none => illegal l.cursor.next [⟨.unexpectedToken "ILLEGAL", start⟩]
  | some (p, stop) =>
    if p == "." && stop.has '.' then illegal stop.next []
    else if p == "=>" && l.closed then illegal stop []
    else
      { lexeme := { token := .punct p, start }
        lexer := ⟨stop, Token.closers.contains p, l.closed⟩ }

def scanToken (l : Lexer) : Scan :=
  match l.cursor.char? with
  | none =>
    { lexeme := { token := .eof, start := l.cursor.offset }
      lexer := { l with closes := false, closed := l.closes || l.closed } }
  | some c =>
    if c == '\\' || Text.isNameStart c then l.scanWord
    else if c.isDigit || (c == '.' && l.cursor.second?.any Char.isDigit) then l.scanNumber
    else if c == '"' || c == '\'' then l.scanString c
    else if c == '#' then l.scanPrivate
    else l.scanPunct

def badBytes (l : Lexer) (stop : Nat) : List Nat :=
  go l.cursor.rest l.cursor.offset
where
  go : List (Option Char) → Nat → List Nat
    | [], _ => []
    | x :: rest, offset =>
      if offset > stop then []
      else if x.isNone then offset :: go rest (offset + 1)
      else go rest (offset + Text.width x)

def scan (l : Lexer) : Scan :=
  let (behind, unclosed) := skipBlanks .code l.closes false l.cursor.rest l.cursor.offset
  let scan := behind.scanToken
  let comment := if unclosed then [⟨.unexpectedEnd, behind.cursor.offset⟩] else []
  let bad := (l.badBytes scan.lexer.cursor.offset).map fun offset => ⟨.badByte, offset⟩
  { scan with errors := bad ++ comment ++ scan.errors }

end Lexer
end ScriptC
