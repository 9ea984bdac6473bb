import ScriptC.Text.Quoted

/-!
The words of a command line. Options come first, each behind one dash or two, with a value behind an
equals sign or, for an option that needs one, in the next word. The first other word, a dash alone
or what follows two dashes ends them.
-/

namespace ScriptC.Command

inductive OptionFault where
  | help
  | malformed (word : String)
  | unknown (name : String)
  | notBoolean (name value : String)
  | noValue (name : String)
  deriving DecidableEq, Repr

def OptionFault.message? : OptionFault → Option String
  | .help => none
  | .malformed word => some s!"bad flag syntax: {word}"
  | .unknown name => some s!"flag provided but not defined: -{name}"
  | .notBoolean name value =>
    some s!"invalid boolean value {Text.quote value} for -{name}: parse error"
  | .noValue name => some s!"flag needs an argument: -{name}"

structure Options where
  showTree : Bool := false
  showStats : Bool := false
  output : String := ""
  deriving DecidableEq, Repr

inductive OptionKind where
  | showTree
  | showStats
  | output
  deriving DecidableEq, Repr

def OptionKind.ofName? : String → Option OptionKind
  | "ast" => some .showTree
  | "cache-stats" => some .showStats
  | "o" => some .output
  | _ => none

def optionList : String :=
  "  -ast\n    \tShow AST dump before compiling\n" ++
  "  -cache-stats\n    \tShow shape cache statistics after compiling\n" ++
  "  -o string\n    \tWrite generated C to this file instead of standard output\n"

inductive Word where
  | operand
  | stop
  | malformed
  | option (name : String) (value : Option String)
  deriving DecidableEq, Repr

def splitValue (cs : List Char) : String × Option String :=
  let name := cs.takeWhile (· != '=')
  match cs.drop name.length with
  | [] => (String.ofList name, none)
  | _ :: value => (String.ofList name, some (String.ofList value))

def Word.ofName (cs : List Char) : Word :=
  match cs with
  | [] | '-' :: _ | '=' :: _ => .malformed
  | cs =>
    let (name, value) := splitValue cs
    .option name value

def Word.ofText (word : String) : Word :=
  match word.toList with
  | ['-', '-'] => .stop
  | ['-'] => .operand
  | '-' :: '-' :: cs => .ofName cs
  | '-' :: cs => .ofName cs
  | _ => .operand

def boolean? : String → Option Bool
  | "1" | "t" | "T" | "true" | "TRUE" | "True" => some true
  | "0" | "f" | "F" | "false" | "FALSE" | "False" => some false
  | _ => none

def switch (name : String) (value : Option String) : Except OptionFault Bool :=
  match value with
  | none => .ok true
  | some v =>
    match boolean? v with
    | some b => .ok b
    | none => .error (.notBoolean name v)

def Options.read (o : Options) : List String → Except OptionFault (Options × List String)
  | [] => .ok (o, [])
  | word :: rest =>
    match Word.ofText word with
    | .operand => .ok (o, word :: rest)
    | .stop => .ok (o, rest)
    | .malformed => .error (.malformed word)
    | .option name value =>
      match OptionKind.ofName? name with
      | none => .error (if name == "help" || name == "h" then .help else .unknown name)
      | some .showTree => do Options.read { o with showTree := ← switch name value } rest
      | some .showStats => do Options.read { o with showStats := ← switch name value } rest
      | some .output =>
        match value, rest with
        | some v, rest => Options.read { o with output := v } rest
        | none, v :: rest => Options.read { o with output := v } rest
        | none, [] => .error (.noValue name)

end ScriptC.Command
