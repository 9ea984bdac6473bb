import ScriptC.Lower.Literal

/-!
Classes. The constructor is linked to its parent, which also creates the prototype; the members are
then defined on the prototype, or on the constructor if they are static.
-/

namespace ScriptC.Lower

def memberHome (c : C.Expr) (proto : Option C.Expr) (isStatic : Bool) :
    Lower (List C.Expr × C.Expr × Option C.Expr) := do
  if isStatic then return ([], c, proto)
  match proto with
  | some p => return ([], p, proto)
  | none =>
    let p ← temp
    let key := .lit ((Engine.stringField? "prototype").getD "")
    return ([.set p (.callEnv Engine.getProperty [c, key, .lit "NULL"])], p, some p)

def classMembers (E : Eval) (c : C.Expr) : Option C.Expr → List Node → Lower (List C.Expr)
  | _, [] => return []
  | proto, m :: rest => do
    let marks := m.memberMarks
    let (pre, target, proto) ← memberHome c proto marks.isStatic
    let (key, set) ← definedKey E m
    let made ← functionAt ((m.part? .value).getD default)
    let accessor (flag : String) : C.Expr :=
      .callEnv Engine.defineAccessor [target, key, made, .lit (Engine.propClass ++ "|" ++ flag)]
    let define :=
      match marks.kind with
      | .get => accessor Engine.propGetter
      | .set => accessor Engine.propSetter
      | _ => .callEnv Engine.defineMethod [target, key, made, .lit Engine.propClass]
    return pre ++ [set, define] ++ (← classMembers E c proto rest)

def heritage (E : Eval) (site : Node) : Lower (List C.Expr × C.Expr) :=
  match site.part? .heritage with
  | none => return ([], .deleted)
  | some h => do
    let s ← temp
    return ([.set s (← E.expr (some h))], s)

def storeOwnName (site : Node) (c : C.Expr) : Lower (List C.Expr) := do
  match site.kind == .classExpression, (site.part? .name).bind (← bindings).resolved? with
  | true, some d => return [.set (← storage d) c]
  | _, _ => return []

def constructorAt (site : Node) : Lower Nat := do
  match (← bindings).sites.get? site.id with
  | some ctor => return ctor
  | none => failLowering site .classSite

def classValue (E : Eval) (site : Node) : Lower C.Expr := do
  let ctor ← constructorAt site
  declareOpened site
  let (pre, parent) ← heritage E site
  let c ← temp
  let made ← newFunction ctor
  let members ← classMembers E c none (((site.part? .body).map (·.items)).getD [])
  let own ← storeOwnName site c
  return .comma (pre ++ [.set c made, .callEnv Engine.makeClass [c, parent]] ++ members ++
    own ++ [c])

end ScriptC.Lower
