import ScriptC.Command.Options
import ScriptC.Files.Basic
import ScriptC.Session

/-!
The compiler as a command: what it answers to a command line, an environment and files.
-/

namespace ScriptC

namespace Session

def refused (path what cause : String) : Source × Session :=
  let problem : Diagnostic :=
    { kind := .compile, position := { line := 1, column := 1 }
      message := what ++ ": " ++ cause, cause := some cause }
  (Source.ofText path path "", { log := "", result := .error (.diagnostic problem) })

def ofFile (path : String) (raw : Except FileError (List UInt8)) (settings : Settings) :
    Source × Session :=
  match raw with
  | .error e => refused path "cannot read file" e.message
  | .ok raw =>
    match Source.readFile .standard path raw with
    | .error e => refused path "cannot decode file" e
    | .ok source => (source, ofSource source settings)

end Session

namespace Command

structure Report where
  exit : UInt8 := 0
  stdout : String := ""
  stderr : String := ""
  deriving DecidableEq, Repr

def programName : String := "compiler"

def failureCode : UInt8 := 1

def breakCode : UInt8 := 2

def optionCode : UInt8 := 2

def usageCode : UInt8 := 64

def refuse (fault : OptionFault) : Report :=
  let usage := s!"Usage of {programName}:\n" ++ optionList
  match fault.message? with
  | none => { stderr := usage }
  | some message => { exit := optionCode, stderr := message ++ "\n" ++ usage }

def usage : Report :=
  { exit := usageCode
    stderr := s!"Usage: {programName} [options] <script.js>\n" ++ optionList }

def settings (env : Settings.Environment) (o : Options) : Settings :=
  let s := Settings.ofEnvironment env
  { s with cacheStats := s.cacheStats || o.showStats, dumpTree := s.dumpTree || o.showTree }

def statsText (s : Settings) (c : Compiled) : String :=
  if s.cacheStats then c.analysis.stats.report else ""

def compile {m : Type → Type} [Monad m] (files : FileSystem m) (s : Settings)
    (output path : String) : m Report := do
  let (source, session) := Session.ofFile path (← files.read path) s
  match session.result with
  | .error (.diagnostic d) =>
    return { exit := failureCode, stderr := session.log ++ d.firstLine path source ++ "\n" }
  | .error (.miscount m) => return { exit := breakCode, stderr := m.message ++ "\n" }
  | .ok c =>
    if output.isEmpty then
      return { stdout := c.code, stderr := session.log ++ statsText s c }
    else
      match ← files.write output c.code with
      | .ok () => return { stderr := session.log ++ statsText s c }
      | .error e =>
        return { exit := failureCode
                 stderr := session.log ++ s!"===> error writing {output}: {e.message}\n" }

def run {m : Type → Type} [Monad m] (files : FileSystem m) (env : Settings.Environment)
    (words : List String) : m Report :=
  match Options.read {} words with
  | .error fault => return refuse fault
  | .ok (o, [path]) => compile files (settings env o) o.output path
  | .ok _ => return usage

end Command
end ScriptC
