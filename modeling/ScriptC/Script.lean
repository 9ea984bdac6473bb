import ScriptC.Diagnostic
import ScriptC.Grammar.Script
import ScriptC.Surface.Tree

/-!
Reading scripts. What the grammar refuses is placed by lines that end as in the grammar and by
columns that count bytes; a line that looks like a declaration of a module is reported as one.
-/

namespace ScriptC

def lineStart (stop : Nat) : Nat → Nat → List (Option Char) → Nat → Nat × Nat
  | lines, start, [], _ => (lines, start)
  | lines, start, some '\r' :: some '\n' :: rest, offset =>
    if offset + 2 ≤ stop then lineStart stop (lines + 1) (offset + 2) rest (offset + 2)
    else (lines, start)
  | lines, start, x :: rest, offset =>
    let after := offset + Text.width x
    if after > stop then (lines, start)
    else if x.any Token.isLineEnd then lineStart stop (lines + 1) after rest after
    else lineStart stop lines start rest after

def Source.textPosition (s : Source) (offset : Nat) : Position :=
  let (lines, start) := lineStart offset 0 0 (Text.decode s.content) 0
  { line := lines + 1, column := offset - start + 1 }

def isWordChar (c : Char) : Bool := c.isAlphanum || c == '_'

def moduleWord? (line : List Char) : Option (Nat × String) :=
  let isBlank (c : Char) : Bool := c == ' ' || c == '\t'
  let blanks := (line.takeWhile isBlank).length
  let rest := line.drop blanks
  let after (word : String) : Option (List Char) :=
    if word.toList.isPrefixOf rest then some (rest.drop word.length) else none
  let opens (others : List Char) (c : Char) : Bool := isWordChar c || others.contains c
  match after "import", after "export" with
  | some more, _ =>
    if (more.dropWhile isBlank).head?.any (opens ['\x7b', '*', '\'', '"']) then
      some (blanks, "import")
    else none
  | _, some more =>
    if more.head?.any isBlank && (more.dropWhile isBlank).head?.any (opens ['\x7b', '*']) then
      some (blanks, "export")
    else none
  | none, none => none

def TextError.diagnostic (source : Source) (e : TextError) : Diagnostic :=
  let position := source.textPosition e.offset
  let line := source.lines[(position.line - 1).toNat]?
  let cause := some e.fault.message
  match line.bind fun l => moduleWord? l.toList with
  | some (blanks, word) =>
    { kind := .malformed, position := { position with column := blanks + 1 }, cause
      message := s!"module {word} declarations are not supported" }
  | none => { kind := .malformed, position, message := e.fault.message, cause }

def Surface.PhraseError.diagnostic (source : Source) (e : PhraseError) : Diagnostic :=
  { kind := .malformed, position := source.position e.extent.span.start e.extent.span.stop
    message := e.fault.message }

inductive Failure where
  | diagnostic (diagnostic : Diagnostic)
  | miscount (miscount : Miscount)
  deriving DecidableEq, Repr

def Refusal.failure (source : Source) : Refusal → Failure
  | .error e => .diagnostic (e.diagnostic source)
  | .miscount m => .miscount m

def Source.tree (s : Source) : Except Failure (Node × Nat) :=
  match Grammar.parse s.content with
  | .error r => .error (r.failure s)
  | .ok body =>
    match Surface.tree s.content.length body with
    | .error e => .error (.diagnostic (e.diagnostic s))
    | .ok t => .ok t

end ScriptC
