import ScriptC.Token.Cursor
import ScriptC.Token.Escape

/-!
How far strings, regular expressions and stretches of templates reach.
-/

namespace ScriptC.Token

def isLineEnd (c : Char) : Bool :=
  c == '\n' || c == '\r' || c == '\u2028' || c == '\u2029'

def behindLineEnd (end_ : Option Char) (rest : List (Option Char)) (offset : Nat) : Cursor :=
  match end_, rest with
  | some '\r', some '\n' :: rest => ⟨rest, offset + 2⟩
  | _, _ => ⟨rest, offset + Text.width end_⟩

/-- The end of a string, behind its opening quote. A line end or the end of the text before the
closing quote is an error; the place behind it is returned. -/
def stringEnd (quote : Char) : List (Option Char) → Nat → Except Cursor Cursor
  | [], offset => .error ⟨[], offset⟩
  | some '\\' :: some '\r' :: some '\n' :: rest, offset => stringEnd quote rest (offset + 3)
  | some '\\' :: x :: rest, offset => stringEnd quote rest (offset + 1 + Text.width x)
  | x :: rest, offset =>
    if x == some quote then .ok ⟨rest, offset + 1⟩
    else if x == some '\n' || x == some '\r' then .error (behindLineEnd x rest offset)
    else stringEnd quote rest (offset + Text.width x)

inductive RegExpEnd where
  | closed
  | missing
  | broken
  deriving DecidableEq

/-- The end of a regular expression, behind its opening slash. In a set a slash stands for itself,
and the end of the text closes the expression. -/
def regexpEnd : Bool → List (Option Char) → Nat → RegExpEnd × Cursor
  | inSet, [], offset => (if inSet then .closed else .missing, ⟨[], offset⟩)
  | true, some '\\' :: some '\r' :: some '\n' :: rest, offset => regexpEnd true rest (offset + 3)
  | inSet, some '\\' :: x :: rest, offset =>
    if !inSet && x.any isLineEnd then (.missing, behindLineEnd x rest (offset + 1))
    else regexpEnd inSet rest (offset + 1 + Text.width x)
  | inSet, x :: rest, offset =>
    let after := offset + Text.width x
    if !inSet && x == some '/' then (.closed, ⟨rest, after⟩)
    else if x == some '\n' || x == some '\r' then
      (if inSet then .broken else .missing, behindLineEnd x rest offset)
    else if !inSet && x.any isLineEnd then (.missing, behindLineEnd x rest offset)
    else regexpEnd (if inSet then x != some ']' else x == some '[') rest after

inductive StretchEnd where
  | closed
  | substitution
  | missing
  deriving DecidableEq

/-- The end of a stretch of a template and the place where its text ends. `decimal` tells whether an
eight or a nine stands behind a backslash. -/
def stretchEnd : Bool → List (Option Char) → Nat → StretchEnd × Bool × Nat × Cursor
  | decimal, [], offset => (.missing, decimal, offset, ⟨[], offset⟩)
  | decimal, some '\\' :: x :: rest, offset =>
    stretchEnd (decimal || x == some '8' || x == some '9') rest (offset + 1 + Text.width x)
  | decimal, some '$' :: some '\x7b' :: rest, offset =>
    (.substitution, decimal, offset, ⟨rest, offset + 2⟩)
  | decimal, x :: rest, offset =>
    if x == some '`' then (.closed, decimal, offset, ⟨rest, offset + 1⟩)
    else stretchEnd decimal rest (offset + Text.width x)

def unifyLineEnds : List Char → List Char
  | '\r' :: '\n' :: rest => '\n' :: unifyLineEnds rest
  | c :: rest => (if c == '\r' then '\n' else c) :: unifyLineEnds rest
  | [] => []

structure Stretch where
  finish : StretchEnd
  stop : Cursor
  raw : String
  value : Except LiteralFault String

def stretchAt (c : Cursor) : Stretch :=
  let (finish, decimal, textStop, stop) := stretchEnd false c.rest c.offset
  if finish == .missing then ⟨finish, stop, "", .ok ""⟩
  else
    let text := unifyLineEnds (c.charsTo textStop)
    { finish, stop, raw := String.ofList text
      value := if decimal then .error (.escape .decimal) else textValue true text }

end ScriptC.Token
