import ScriptC.Analysis.Basic

/-!
The shapes of object literals and of the objects that constructors make.
-/

namespace ScriptC.Analyze

def shapeName? (p : Node) : Option String :=
  match p.label with
  | .property m =>
    match (p.part? .key).bind (·.string?) with
    | none => none
    | some name =>
      if m.kind != .init || m.computed || m.method then none
      else if name == "__proto__" && !m.shorthand then none
      else if (arrayIndex? name).isSome then none
      else if (p.part? .value).any fun v => v.kind == .assignmentPattern then none
      else some name
  | _ => none

def literalNames : List Node → List String → List String
  | [], seen => seen
  | p :: rest, seen =>
    match shapeName? p with
    | none => seen
    | some name => if seen.contains name then seen else literalNames rest (seen ++ [name])

def literalShape (n : Node) : Analyze Bool := do
  if n.kind != .object then return false
  match literalNames n.items [] with
  | [] => return false
  | names =>
    let s ← shape names
    modify fun a => { a with shapes := a.shapes.insert n.id s }
    return s.wellKnown.isSome

def laysOutObjects (f : Function) : Bool :=
  f.isStrict && !f.isArrow && !f.isMethod && !f.isProgram && !f.isDerived && !f.isAsync &&
    !f.isGenerator

def assignedProperty? (n : Node) : Option String :=
  match n.label with
  | .assignment "=" =>
    match n.part? .left with
    | some left =>
      if left.kind == .member && (left.part? .object).any fun o => o.kind == .this then
        left.memberName?.filter (· != "__proto__")
      else none
    | none => none
  | _ => none

def constructorNames (f : Function) : List String :=
  (f.walkBody.filterMap fun (_, n) => assignedProperty? n).foldl
    (fun names name => if names.contains name then names else names ++ [name]) []

def findShapes (fn : Nat) : Analyze Unit := do
  let f ← function fn
  for (_, n) in f.walkBody do
    if ← literalShape n then
      modifyStats fun s => { s with wellKnownShapes := s.wellKnownShapes + 1 }
  for (_, n) in f.walkParams do
    let _ ← literalShape n
  if laysOutObjects f then
    match constructorNames f with
    | [] => pure ()
    | names =>
      let s ← shape names
      modifyFunction fn fun f => { f with newShape := some s }
      modifyStats fun s => { s with constructorShapes := s.constructorShapes + 1 }
  modify fun a => { a with stats := { a.stats with shapes := a.literals.shapeCount } }

end ScriptC.Analyze
