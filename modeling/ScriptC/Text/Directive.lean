import ScriptC.Text.Utf8

/-!
Percent signs in messages. Such a sign announces a value: flags, a place among the values, a width
and a precision may follow it, and then a letter for how the value is shown. A message that quotes
what stands in a script is read in the same way although no values come with it, and says of each
one announced that it is missing.
-/

namespace ScriptC.Text

def isDirectiveFlag (c : Char) : Bool :=
  c == '#' || c == '0' || c == '+' || c == '-' || c == ' '

def isHuge (digits : List Char) : Bool :=
  digits.dropLast.foldl (fun n c => 10 * n + (c.toNat - '0'.toNat)) 0 > 1000000

def afterNumber (cs : List Char) : List Char :=
  if isHuge (cs.takeWhile Char.isDigit) then [] else cs.dropWhile Char.isDigit

structure Directive where
  rest : List Char
  shown : String := ""
  misplaced : Bool := false
  afterPlace : Bool := false

namespace Directive

/-- Read a place among the values, a number in brackets. Without a closing bracket only the opening
one is passed. -/
def place (d : Directive) : Directive :=
  match d.rest with
  | '[' :: more =>
    let digits := more.takeWhile (· != ']')
    if (encode d.rest).length < 3 || digits.length == more.length then
      { d with rest := more, misplaced := true, afterPlace := false }
    else
      { d with
        rest := more.drop (digits.length + 1), misplaced := true
        afterPlace := !digits.isEmpty && digits.all Char.isDigit && !isHuge digits }
  | _ => { d with afterPlace := false }

def size (complaint : String) (d : Directive) : Directive :=
  match d.rest with
  | '*' :: more => { d with rest := more, shown := d.shown ++ complaint, afterPlace := false }
  | cs => { d with rest := afterNumber cs }

def precision (d : Directive) : Directive :=
  match d.rest with
  | '.' :: more => size "%!(BADPREC)" (place { d with rest := more })
  | _ => d

def read (cs : List Char) : Directive :=
  let d := place { rest := cs.dropWhile isDirectiveFlag }
  let d := precision (size "%!(BADWIDTH)" d)
  if d.afterPlace then d else place d

def finish (d : Directive) : String × List Char :=
  match d.rest with
  | [] => (d.shown ++ "%!(NOVERB)", [])
  | letter :: rest =>
    if letter == '%' then (d.shown ++ "%", rest)
    else
      let why := if d.misplaced then "(BADINDEX)" else "(MISSING)"
      (d.shown ++ "%!" ++ letter.toString ++ why, rest)

end Directive

/-- A message with its directives resolved. The first argument bounds their number. -/
def resolveDirectives : Nat → List Char → String
  | 0, cs => String.ofList cs
  | fuel + 1, cs =>
    let plain := cs.takeWhile (· != '%')
    match cs.drop plain.length with
    | [] => String.ofList plain
    | _ :: directive =>
      let (shown, rest) := (Directive.read directive).finish
      String.ofList plain ++ shown ++ resolveDirectives fuel rest

def withoutValues (message : String) : String :=
  resolveDirectives message.length message.toList

end ScriptC.Text
