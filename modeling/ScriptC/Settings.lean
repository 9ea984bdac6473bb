/-!
Options of a compilation that are no part of the script, and how the environment sets them.
-/

namespace ScriptC

structure Settings where
  runtimeHeader : String := "runtime.h"
  entry : String := "main"
  stackHeadroom : Int := 4
  lineDirectives : Bool := false
  debug : Bool := false
  cacheStats : Bool := false
  dumpTree : Bool := false
  deriving DecidableEq, Repr

namespace Settings

abbrev Environment := String → Option String

def affirmatives : List String :=
  ["1", "ABSOLUTELY", "Absolutely", "absolutely", "AFFIRMATIVE", "Affirmative", "affirmative",
    "ENABLE", "Enable", "enable", "ENABLED", "Enabled", "enabled", "POSITIVE", "Positive",
    "positive", "T", "t", "TRUE", "True", "true", "Y", "y", "YES", "Yes", "yes"]

def textOr (env : Environment) (name default : String) : String :=
  match env name with
  | some "" | none => default
  | some s => s

def digits? (cs : List Char) : Option Nat :=
  if cs.isEmpty || !cs.all Char.isDigit then none
  else some (cs.foldl (fun n c => 10 * n + (c.toNat - '0'.toNat)) 0)

def integer? (s : String) : Option Int :=
  let signed : Option Int :=
    match s.toList with
    | '-' :: cs => (digits? cs).map fun n => -(n : Int)
    | '+' :: cs => (digits? cs).map Int.ofNat
    | cs => (digits? cs).map Int.ofNat
  signed.filter fun n => -0x8000000000000000 ≤ n && n < 0x8000000000000000

def integerOr (env : Environment) (name : String) (default : Int) : Int :=
  ((env name).bind integer?).getD default

def flag (env : Environment) (name : String) : Bool :=
  match env name with
  | some s => affirmatives.contains s
  | none => false

def variableNames : List String :=
  ["DELPHINIUM_RUNTIME_HEADER", "DELPHINIUM_ENTRY", "DELPHINIUM_STACK_HEADROOM",
    "DELPHINIUM_LINE_DIRECTIVES", "DELPHINIUM_DEBUG"]

def ofEnvironment (env : Environment) : Settings :=
  let default : Settings := {}
  { runtimeHeader := textOr env "DELPHINIUM_RUNTIME_HEADER" default.runtimeHeader
    entry := textOr env "DELPHINIUM_ENTRY" default.entry
    stackHeadroom := max 0 (integerOr env "DELPHINIUM_STACK_HEADROOM" default.stackHeadroom)
    lineDirectives := flag env "DELPHINIUM_LINE_DIRECTIVES"
    debug := flag env "DELPHINIUM_DEBUG" }

end Settings
end ScriptC
