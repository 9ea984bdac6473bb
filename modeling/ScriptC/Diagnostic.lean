import ScriptC.Source

/-!
What a compilation reports: the first thing that is wrong with a script, with its place.
-/

namespace ScriptC

inductive ProblemKind where
  | malformed
  | scope
  | compile
  | limit
  deriving DecidableEq, Repr

def ProblemKind.name : ProblemKind → String
  | .malformed => "Syntax"
  | .scope => "Scope"
  | .compile => "Compile"
  | .limit => "Limit"

structure Position where
  line : Int
  column : Int
  start : Int := 0
  stop : Int := 0
  deriving DecidableEq, Repr

def Source.position (s : Source) (start stop : Int) : Position :=
  let (line, column) := s.lineAndColumn start
  ⟨line, column, start, stop⟩

structure Diagnostic where
  kind : ProblemKind
  position : Position
  message : String
  cause : Option String := none
  limit : Int := 0
  deriving DecidableEq, Repr

namespace Diagnostic

def text (d : Diagnostic) : String :=
  s!"{d.kind.name} Error at {d.position.line}:{d.position.column}: {d.message}"

def firstLine (path : String) (source : Source) (d : Diagnostic) : String :=
  let path := if path.isEmpty then source.shownPath else path
  s!"===> error in {path}:{d.position.line}:{d.position.column}: {d.message}"

def trimEnd (line : String) : String :=
  let blank (c : Char) := c == '\r' || c == '\n' || c == '\t' || c == ' '
  String.ofList (line.toList.reverse.dropWhile blank).reverse

def display (lines : List String) (d : Diagnostic) : String :=
  let index := d.position.line - 1
  let shown := if index < 0 then none else lines[index.toNat]?
  match shown with
  | none => d.kind.name ++ " Error: " ++ d.message ++ "\n"
  | some line =>
    let marker := String.ofList (List.replicate (d.position.column - 1).toNat ' ')
    d.text ++ "\n  " ++ trimEnd line ++ "\n  " ++ marker ++ "^\n\n"

def displayAll (script : String) (ds : List Diagnostic) : String :=
  let lines := script.splitOn "\n"
  String.join (ds.map (display lines))

end Diagnostic
end ScriptC
