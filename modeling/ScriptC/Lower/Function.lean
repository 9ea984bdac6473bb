import ScriptC.C.Printer
import ScriptC.Lower.Statement

/-!
Functions. The caller stores the arguments from slot one of the area on; the function puts its own
object into slot zero, which marks its frame.
-/

namespace ScriptC.Lower

def signatureParams : String :=
  "(js_environ *env, js_val func_val, js_val this_val, js_val *stk_args, uint32_t stk_argc)"

def signature (f : Function) : String := s!"static js_val {f.cname}{signatureParams}"

def reserveStack : Lower Unit := do
  let limit : Int := ((← function).stackDepth + 1 : Nat) + (← read).settings.stackHeadroom
  effect (.callEnv Engine.stackCheck [.var s!"stk_ptr + {limit}"])

def declareIf (d : Option Nat) (isNeeded : Declaration → Bool) (init : C.Expr) : Lower Unit := do
  match d with
  | none => return
  | some d => if isNeeded ((← bindings).decl d) then declare d init

def initialThis (f : Function) : C.Expr :=
  if f.isConstructor && f.isDerived then .deleted
  else if f.isStrict then .var "this_val"
  else .callEnv Engine.boxThis [.var "this_val"]

def declareVars : List Nat → Lower Unit
  | [] => return
  | d :: rest => do
    declare d .undefined
    declareVars rest

def argument (i : Nat) : C.Expr :=
  .var s!"(stk_argc > {i} ? stk_args[{i + 1}] : {Engine.valUndefined})"

/--
Bind a parameter. Names in a pattern are declared first and then bound in order, so a default value
sees the names to its left.
-/
def bindParam (E : Eval) (i : Nat) (p : Node) : Lower Unit := do
  if p.kind == .identifier then declare p.id (argument i)
  else
    declareVars (p.bound.map (·.id))
    if p.kind == .rest then
      let rest := .callEnv Engine.restArguments [.var "stk_args + 1", .var "stk_argc", .nat i]
      effect (← E.destructureOption (p.part? .argument) rest .init)
    else
      let t ← temp
      effect (.comma [.set t (argument i), ← E.destructure p t .init])

def bindParams (E : Eval) : Nat → List Node → Lower Unit
  | _, [] => return
  | i, p :: rest => do
    bindParam E i p
    bindParams E (i + 1) rest

def bindArguments (f : Function) : Lower Unit := do
  match f.arguments with
  | none => return
  | some d =>
    let strict : C.Expr := .lit (if f.isStrict then "1" else "0")
    if ((← bindings).decl d).isReferenced then
      declare d (.callEnv Engine.arguments
        [.var "func_val", .var "stk_args + 1", .var "stk_argc", strict])
    else if !f.isStrict then
      effect (.callEnv Engine.currentArguments [.var "stk_args + 1", .var "stk_argc"])

def setUp (E : Eval) (f : Function) : Lower Unit := do
  let value := Engine.typeValue
  if f.captures.size > 0 then
    declareC { type := value ++ " **", name := "closures",
               init := .call Engine.closures [.var "func_val"] }
  if f.cacheKeys.length > 0 then
    declareC { type := Engine.typeShapeCache ++ " *", name := "shape_cache",
               init := .call Engine.shapeCache [.var "func_val"] }
  emit [.raw "stk_args[0] = func_val;"]
  declareC { type := value ++ " *", name := "stk_ptr", init := .var "stk_args + 1 + stk_argc" }
  reserveStack
  declareIf f.this (fun d => d.isReferenced || f.isDerived) (initialThis f)
  declareIf f.newTarget (·.isReferenced) (.callEnv Engine.newTarget [])
  declareIf f.functionValue (·.isCaptured) (.var "func_val")
  declareIf f.self (·.isReferenced) (.var "func_val")
  declareVars f.vars
  declareNames f.scope
  bindParams E 0 f.params
  bindArguments f
  if f.injectYield then
    -- The first resumption starts the body on the stack of the coroutine.
    effect (.callEnv Engine.yieldValue [.undefined])
    emit [.raw s!"stk_ptr = {Engine.stackBase}(env);"]
    reserveStack

def endsByLeaving (body : List Node) : Bool :=
  body.getLast?.any fun n => n.kind == .returnStatement || n.kind == .throwStatement

def functionBlock (fn : Nat) : Lower C.Stmt := do
  modify fun w => { w with
    fn, frames := {}, body := [], stack := 0, chain := none, exits := [], targets := []
    labels := [], breaks := [], continues := [], pending := [] }
  let f ← function
  let E := Eval.upTo f.node.height
  block do
    setUp E f
    statements (statement E) f.body.items
    if !endsByLeaving f.body.items then returnFrom .undefined

def functionLines (f : Function) (body : C.Stmt) : List C.Line :=
  (if f.name.isEmpty then [] else [⟨0, "// " ++ f.name⟩]) ++ ⟨0, signature f⟩ :: body.lines

def functionBlocks : List Nat → Lower (List C.Stmt)
  | [] => return []
  | fn :: rest => do
    let b ← functionBlock fn
    return b :: (← functionBlocks rest)

def programFunction : Lower C.Expr := do
  modify fun w => { w with fn := 0, frames := Frames.push {} }
  newFunction 0

end ScriptC.Lower
