import ScriptC.Lower.Property

/-!
Literals, templates, arrays, objects and the creation of function objects.
-/

namespace ScriptC.Lower

def literal (value : Literal) : Lower C.Expr :=
  match value with
  | .string s => string s false
  | .bigint digits => bigint digits
  | .number x => return .number x
  | .boolean b => return .lit (if b then Engine.valTrue else Engine.valFalse)
  | .null => return .lit Engine.valNull
  | .undefined => return .undefined
  | .nan => return .lit Engine.valNaN
  | .regexp pattern flags => do
    let p ← string pattern false
    return .callEnv Engine.newRegExp [p, ← string flags false]

def templateText (text : String) : Lower (List C.Expr) :=
  if text.isEmpty then return [] else do return [← string text false]

def substitution (E : Eval) : List (Option Node) → Lower (List C.Expr × List (Option Node))
  | [] => return ([], [])
  | s :: rest => do return ([.callEnv Engine.toText [← E.expr s]], rest)

def templateParts (E : Eval) : List String → List (Option Node) → Lower (List C.Expr)
  | [], _ => return []
  | text :: texts, subs => do
    let here ← templateText text
    let (value, subs) ← substitution E subs
    return here ++ value ++ (← templateParts E texts subs)

def template (E : Eval) (n : Node) (text : TemplateText) : Lower C.Expr := do
  let parts ← templateParts E text.cooked (n.slots .item)
  let joined : Lower C.Expr := do
    let (pre, values) ← inOrder parts
    return .comma (pre ++ [.callEnv Engine.concat (.nat values.length :: values)])
  match parts with
  | [] => string "" false
  | [p] => if p.isConstant then return p else joined
  | _ => joined

def pushElement (E : Eval) (arr : C.Expr) : Option Node → Lower C.Expr
  | none => return .callEnv Engine.arrayPush [arr, .deleted]
  | some n => do
    if n.kind == .spread then
      return .callEnv Engine.arraySpread [arr, ← E.expr (n.part? .argument)]
    else return .callEnv Engine.arrayPush [arr, ← E.expr (some n)]

def pushElements (E : Eval) (arr : C.Expr) : List (Option Node) → Lower (List C.Expr)
  | [] => return []
  | el :: rest => do
    let here ← pushElement E arr el
    return here :: (← pushElements E arr rest)

def spreadArray (E : Eval) (list : List (Option Node)) : Lower (List C.Expr × C.Expr) := do
  let arr ← temp
  let pushes ← pushElements E arr list
  return (.set arr (.callEnv Engine.newArray [.lit "0"]) :: pushes, arr)

def elements (E : Eval) : List (Option Node) → Lower (List C.Expr)
  | [] => return []
  | none :: rest => return .deleted :: (← elements E rest)
  | some n :: rest => do
    let e ← E.expr (some n)
    return e :: (← elements E rest)

def array (E : Eval) (n : Node) : Lower C.Expr := do
  let list := n.slots .item
  if n.containsSpread then
    let (build, arr) ← spreadArray E list
    return .comma (build ++ [arr])
  else
    let (pre, values) ← inOrder (← elements E list)
    return .comma (pre ++ [.callEnv Engine.newArray (.nat values.length :: values)])

def arity (params : List Node) : Nat :=
  (params.takeWhile fun p => p.kind == .identifier).length

def isNotConstructor (f : Function) : Bool :=
  f.isArrow || (f.isMethod && !f.isConstructor) || f.coroutineKind != 0

def functionBits (f : Function) : Nat :=
  (if f.isStrict then 1 else 0) + (if f.isArrow then 2 else 0) +
    (if isNotConstructor f then 4 else 0) + (if f.isConstructor then 8 else 0) +
    (if f.isDerived then 16 else 0) + (if f.isMethod then 32 else 0)

def cells : List Nat → Lower (List C.Expr)
  | [] => return []
  | d :: rest => do
    let c ← cell d
    return c :: (← cells rest)

/--
Create the function object of a function: its code, the cells it captured, each taken from the
function that is being written, and the number of its cache slots.
-/
def newFunction (child : Nat) : Lower C.Expr := do
  let f := (← bindings).function child
  modify fun w => { w with made := child :: w.made }
  let name ← string f.name false
  let shape := (f.newShape.map fun s => C.Expr.lit s.cname).getD .undefined
  let captured ← cells f.captures.decls
  let made : C.Expr := .callEnv Engine.newFunction
    ([.var f.cname, name, .lit (Engine.functionFlags (functionBits f)),
      .nat (arity f.params), .nat f.cacheKeys.length, shape, .nat f.captures.size] ++
      captured)
  if f.coroutineKind == 0 then return made
  else return .callEnv Engine.newCoroutine [made, .nat f.coroutineKind]

def functionAt (site : Node) : Lower C.Expr := do
  match (← bindings).sites.get? site.id with
  | some f => newFunction f
  | none => failLowering site .functionSite

/--
The key of a property or class member, and what computes it. A computed key is converted once,
before the value is evaluated.
-/
def definedKey (E : Eval) (p : Node) : Lower (C.Expr × C.Expr) := do
  let key := p.part? .key
  if p.computed then
    let k ← temp
    return (k, .set k (.callEnv Engine.toPropertyKey [← E.expr key]))
  else
    let key := key.getD default
    return (← keySlot key key.carriedText, .missing)

def isPrototypeProperty (p : Node) : Bool :=
  let m := p.memberMarks
  !m.computed && !m.shorthand && !m.method && m.kind == .init &&
    (p.part? .key).any fun k => k.carriedText == "__proto__"

def defineProperty (E : Eval) (obj : C.Expr) (p : Node) : Lower (List C.Expr) := do
  if p.kind == .spread then
    return [.callEnv Engine.spreadObject [obj, ← E.expr (p.part? .argument)]]
  let value := p.part? .value
  if isPrototypeProperty p then
    return [.callEnv Engine.setPrototype [obj, ← E.expr value]]
  let (key, set) ← definedKey E p
  let made : Lower C.Expr := functionAt (value.getD default)
  let m := p.memberMarks
  match m.kind with
  | .get =>
    return [set, .callEnv Engine.defineAccessor [obj, key, ← made, .lit Engine.propGetter]]
  | .set =>
    return [set, .callEnv Engine.defineAccessor [obj, key, ← made, .lit Engine.propSetter]]
  | _ =>
    if m.method then
      return [set, .callEnv Engine.defineMethod [obj, key, ← made, .lit "0"]]
    else return [set, .callEnv Engine.defineProperty [obj, key, ← E.expr value]]

def defineProperties (E : Eval) (obj : C.Expr) : List Node → Lower (List C.Expr)
  | [] => return []
  | p :: rest => do
    let here ← defineProperty E obj p
    return here ++ (← defineProperties E obj rest)

/--
An object. The properties of its shape are passed in slot order when it is created; the others are
defined on it in order.
-/
def object (E : Eval) (n : Node) : Lower C.Expr := do
  let shape := (← read).analysis.shapes.get? n.id
  let count := (shape.map fun s => s.props.length).getD 0
  let values ← E.exprs ((n.items.take count).map (·.part? .value))
  let (pre, values) ← inOrder values
  let obj ← temp
  let args := (shape.map fun s => C.Expr.lit s.cname).getD .undefined :: .nat count :: values
  let defined ← defineProperties E obj (n.items.drop count)
  return .comma (pre ++ .set obj (.callEnv Engine.newObject args) :: defined ++ [obj])

end ScriptC.Lower
