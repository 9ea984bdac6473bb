import ScriptC.Analysis.Basic
import ScriptC.RegExp.Check

/-!
The strings and bigints that a function uses. They get their slots in the order in which they stand
in the script; regular expressions are checked on the way.
-/

namespace ScriptC.Analyze

def isKeyPlace (place : Option Place) : Bool :=
  match place with
  | none => false
  | some p =>
    match p.parent.label with
    | .property _ | .methodDefinition _ | .propertyDefinition _ => p.role == .key
    | .member .. => p.role == .property
    | .binary op => op == "in" && p.role == .left
    | _ => false

def areFlags : List Char → Bool
  | [] => true
  | f :: rest => "dgimsuyv".toList.contains f && !rest.contains f && areFlags rest

def checkRegExp (n : Node) (pattern flags : String) : Except Fault Unit :=
  let fs := flags.toList
  let has (c : Char) : Bool := fs.contains c
  if !areFlags fs || (has 'u' && has 'v') then .error (n.regexpFault (.flags flags))
  else if has 'u' || has 'v' then .ok ()
  else
    match RegExp.check pattern with
    | some reason => .error (n.regexpFault (.pattern pattern reason))
    | none => .ok ()

def collectAt (place : Option Place) (n : Node) : Analyze Unit := do
  let add (isKey : Bool) (value : String) : Analyze Unit := do
    let _ ← string value isKey
  match n.label with
  | .literal (.string value) _ => add (isKeyPlace place) value
  | .literal (.bigint digits) _ =>
    let _ ← bigint digits
  | .literal (.regexp pattern flags) _ =>
    checkRegExp n pattern flags
    add false pattern
    add false flags
  | .member false _ => (n.part? .property).forM fun p => add true p.name
  | .identifier name =>
    match (← get).bindings.use? n with
    | some (.viaWith _) | some .global => add true name
    | _ => return
  | .template text =>
    for (cooked, invalid) in text.cooked.zip text.invalid do
      if !invalid then add false cooked
    if place.any fun p => p.parent.kind == .taggedTemplate then
      for raw in text.raws do add false raw
  | .unary "typeof" => add false "undefined"
  | _ => return

def collectStrings (fn : Nat) : Analyze Unit := do
  let f ← function fn
  let _ ← string f.name false
  for (place, n) in f.walkParams ++ f.walkBody do collectAt place n
  modify fun a => { a with stats := { a.stats with literals := a.literals.size } }

end ScriptC.Analyze
