import ScriptC.Lower.Literal

/-!
Calls. Arguments are passed on the value stack: a call whose area starts at slot `b` stores argument
`i` in slot `b + 1 + i` and hands the area to the callee. What is held while the arguments are
written, the function and its `this`, lives in temporaries.
-/

namespace ScriptC.Lower

def storeArgs (E : Eval) (slot : Nat) : List (Option Node) → Lower (List C.Expr)
  | [] => return []
  | arg :: rest => do
    let v ← withStack slot (E.expr arg)
    return .set (callSlot slot) v :: (← storeArgs E (slot + 1) rest)

def callInPlace (f this name : C.Expr) (area count : Nat) : C.Expr :=
  let direct := .callPtr (.call Engine.functionPointer [f])
    [.env, f, this, callArea area, .nat count]
  let slow := .callEnv Engine.callValue [f, this, callArea area, .nat count, name]
  .cond (.likely (.call Engine.isFunction [f]) false) direct slow

def reportedName (E : Eval) (callee : Node) : Lower C.Expr :=
  match callee.label with
  | .identifier name => string name true
  | .member false _ => propertyKey E callee
  | _ => return .undefined

/--
Evaluate a callee and the `this` that goes with it, and call it. A member passes its object, and so
does a name found in the object of a `with`. In a chain the `?.` of `n` itself tests the function.
-/
def callThrough (E : Eval) (n callee : Node) (call : C.Expr → C.Expr → Lower C.Expr) :
    Lower C.Expr := do
  let flag := (← get).chain
  if ← isWithName callee then
    let this ← temp
    let name ← string callee.name true
    let ref := .callEnv Engine.withRef [name, ← fallbackCell callee, .var ("&" ++ this.render)]
    return .comma [.set this .undefined, ← applyLink n ref true fun f => call f this]
  else if callee.kind != .member || callee.isGlobalProperty then
    applyLink n (← E.expr (some callee)) true fun f => call f .undefined
  else
    let object := callee.part? .object
    if object.any fun o => o.kind == .super then
      withChain none do
        let this ← temp
        let f ← temp
        let thisValue ← loadOption (← thisOwner).this
        let method ← readSuper E callee
        return .comma [.set this thisValue, .set f method, endEarly n flag f (← call f this)]
    else
      let base ← E.expr object
      applyLink callee base true fun o => do
        let f ← temp
        let method ← readMember E callee o
        return .comma [.set f method, endEarly n flag f (← call f o)]

def constructWith (E : Eval) (n : Node) (c newTarget : C.Expr) :
    Lower (List C.Expr × C.Expr) := do
  let args := n.slots .item
  if n.containsSpread then
    let (build, arr) ← spreadArray E args
    return (build, .callEnv Engine.constructArray [c, arr, newTarget])
  else
    let area := (← get).stack
    let stores ← storeArgs E (area + 1) args
    return (stores, .callEnv Engine.construct [c, callArea area, .nat args.length, newTarget])

def callSuper (E : Eval) (n : Node) : Lower C.Expr := do
  let owner ← thisOwner
  let c ← temp
  let home ← loadOption ((n.part? .callee).bind (← bindings).resolved?)
  let first : C.Expr := .set c (.callEnv Engine.superConstructor [home])
  let newTarget ← loadOption owner.newTarget
  let (pre, made) ← constructWith E n c newTarget
  let r ← temp
  let this ← storage (owner.this.getD 0)
  let again := .comma [.callEnv Engine.throwReference [← string "this" true], r]
  let bind := .cond (.likely (.isDeleted this) false) (.set this r) again
  return .comma (first :: pre ++ [.set r made, bind])

def call (E : Eval) (n : Node) : Lower C.Expr := do
  let callee := (n.part? .callee).getD default
  let args := n.slots .item
  if callee.kind == .super then callSuper E n
  else if !n.isOptional && !n.containsSpread && callee.isGlobalProperty then
    let area := (← get).stack
    let stores ← storeArgs E (area + 1) args
    return .comma (stores ++
      [.callEnv Engine.callGlobal [← globalName callee, callArea area, .nat args.length]])
  else if ← (pure (!n.isOptional && !n.containsSpread) <&&> isWithName callee) then
    let area := (← get).stack
    let stores ← storeArgs E (area + 1) args
    let name ← string callee.name true
    return .comma (stores ++
      [.callEnv Engine.callWith
        [name, ← fallbackCell callee, callArea area, .nat args.length]])
  else
    let name ← reportedName E callee
    callThrough E n callee fun f this => do
      if n.containsSpread then
        let (build, arr) ← spreadArray E args
        return .comma (build ++ [.callEnv Engine.apply [f, this, arr]])
      else
        let area := (← get).stack
        let stores ← storeArgs E (area + 1) args
        return .comma (stores ++ [callInPlace f this name area args.length])

def construct (E : Eval) (n : Node) : Lower C.Expr := do
  let c ← temp
  let first : C.Expr := .set c (← E.expr (n.part? .callee))
  let (pre, made) ← constructWith E n c c
  return .comma (first :: pre ++ [made])

def templateTexts : List String → List Bool → Lower (List C.Expr)
  | [], _ => return []
  | text :: texts, invalid => do
    let here ← if invalid.headD false then pure .undefined else string text false
    return here :: (← templateTexts texts (invalid.drop 1))

def taggedTemplate (E : Eval) (n : Node) : Lower C.Expr := do
  let quasi := (n.part? .argument).getD default
  let text : TemplateText :=
    match quasi.label with
    | .template text => text
    | _ => {}
  let id ← freshName
  let site := s!"tpl_{id}"
  modify fun w => { w with templates := w.templates ++ [site] }
  let cooked ← templateTexts text.cooked text.invalid
  let raws ← templateTexts text.raws []
  let strings : C.Expr := .callEnv Engine.template
    (.var ("&" ++ site) :: .nat text.cooked.length :: cooked ++ raws)
  let callee := (n.part? .callee).getD default
  let name ← reportedName E callee
  let subs := quasi.slots .item
  callThrough E n callee fun f this => do
    let area := (← get).stack
    let stores ← storeArgs E (area + 2) subs
    return .comma (.set (callSlot (area + 1)) strings :: stores ++
      [callInPlace f this name area (1 + subs.length)])

end ScriptC.Lower
