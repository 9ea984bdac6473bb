import ScriptC.Lower.Assign

/-!
Patterns take a value apart and store the pieces.
-/

namespace ScriptC.Lower

def bindDefault (E : Eval) (n : Node) (v : C.Expr) (mode : TargetUse) : Lower C.Expr := do
  let t ← temp
  let value := .cond (bitsEqual v Value.undefined) (← E.expr (n.part? .right)) v
  return .comma [.set t value, ← E.destructureOption (n.part? .left) t mode]

def patternElements (E : Eval) (it : C.Expr) (mode : TargetUse) :
    List (Option Node) → Lower (List C.Expr)
  | [] => return []
  | none :: rest => do
    return .callEnv Engine.nextIterator [it] :: (← patternElements E it mode rest)
  | some el :: rest => do
    let t ← temp
    let (value, target) :=
      if el.kind == .rest then (.callEnv Engine.restIterator [it], el.part? .argument)
      else
        (.cond (.callEnv Engine.nextIterator [it]) (.index it (.lit "2")) .undefined, some el)
    let bind ← E.destructureOption target t mode
    return .set t value :: bind :: (← patternElements E it mode rest)

def arrayPattern (E : Eval) (n : Node) (v : C.Expr) (mode : TargetUse) : Lower C.Expr := do
  let it ← tempIterator
  let list ← patternElements E it mode (n.slots .item)
  return .comma (.callEnv Engine.getIterator [v, it] :: list ++
    [.callEnv Engine.closeIterator [it]])

def keyInPattern (E : Eval) (p : Node) : Lower (List C.Expr × C.Expr) := do
  let key := p.part? .key
  let key ←
    if p.computed then E.expr key
    else
      let key := key.getD default
      keySlot key key.carriedText
  if key.isConstant then return ([], key)
  else
    let k ← temp
    return ([.set k (.callEnv Engine.toPropertyKey [key])], k)

def patternProperties (E : Eval) (src : C.Expr) (mode : TargetUse) :
    List C.Expr → List Node → Lower (List C.Expr)
  | _, [] => return []
  | keys, p :: rest => do
    if p.kind == .rest then
      let t ← temp
      let copy := .callEnv Engine.restObject (src :: .nat keys.length :: keys)
      let bind ← E.destructureOption (p.part? .argument) t mode
      return .set t copy :: bind :: (← patternProperties E src mode keys rest)
    else
      let (pre, key) ← keyInPattern E p
      let t ← temp
      let value := .callEnv Engine.getProperty [src, key, .lit "NULL"]
      let bind ← E.destructureOption (p.part? .value) t mode
      return pre ++ .set t value :: bind ::
        (← patternProperties E src mode (keys ++ [key]) rest)

def objectPattern (E : Eval) (n : Node) (v : C.Expr) (mode : TargetUse) : Lower C.Expr := do
  let src ← temp
  let list ← patternProperties E src mode [] n.items
  return .comma (.set src (.callEnv Engine.requireObject [v]) :: list)

def destructureOf (E : Eval) (target : Node) (v : C.Expr) (mode : TargetUse) : Lower C.Expr :=
  match target.kind with
  | .identifier | .member => do
    let (pre, ref) ← reference E (some target) target mode
    return .comma (pre ++ [← ref.set v])
  | .assignmentPattern => bindDefault E target v mode
  | .arrayPattern => arrayPattern E target v mode
  | .objectPattern => objectPattern E target v mode
  | kind => failLowering target (.pattern kind)

end ScriptC.Lower
