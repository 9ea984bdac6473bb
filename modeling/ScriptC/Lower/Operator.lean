import ScriptC.Lower.Property

/-!
Operators. Two numbers are worked on as doubles; everything else goes to the engine.
-/

namespace ScriptC.Lower

def shiftCount (x : C.Expr) : C.Expr :=
  .binary "&" (.call Engine.toUint32 [x]) (.lit "31")

def doubleArith? (op : String) (x y : C.Expr) : Option C.Expr :=
  let int32 (e : C.Expr) : C.Expr := .call Engine.toInt32 [e]
  match op with
  | "+" | "-" | "*" | "/" => some (numberValue (.binary op x y))
  | "%" => some (numberValue (.call "fmod" [x, y]))
  | "&" | "|" | "^" => some (numberValue (castDouble (.binary op (int32 x) (int32 y))))
  | "<<" =>
    let shifted := .binary "<<" (castUint32 (int32 x)) (shiftCount y)
    some (numberValue (castDouble (.cast "int32_t" shifted)))
  | ">>" => some (numberValue (castDouble (.binary ">>" (int32 x) (shiftCount y))))
  | ">>>" =>
    some (numberValue (castDouble (.binary ">>" (.call Engine.toUint32 [x]) (shiftCount y))))
  | _ => none

def engineArith (op : String) (x y : C.Expr) : C.Expr :=
  if op == "+" then .callEnv Engine.add [x, y]
  else .callEnv Engine.binaryOp [.lit ((Engine.binaryCode? op).getD ""), x, y]

def arith (n : Node) (op : String) (a b : C.Expr) : Lower C.Expr := do
  let (pre, x, y) ← readablePair a b
  let (xt, xn) := numberView x
  let (yt, yn) := numberView y
  match doubleArith? op xn yn with
  | some fast => return .comma (pre ++ [preferFast (.and xt yt) fast (engineArith op x y)])
  | none =>
    if op == "**" then return .comma (pre ++ [engineArith op x y])
    else failLowering n (.operator op)

def logical (E : Eval) (n : Node) : Lower C.Expr := do
  let t ← temp
  let first := .set t (← E.expr (n.part? .left))
  let second ← E.expr (n.part? .right)
  match n.operator with
  | "&&" => return .cond (.callEnv Engine.isTruthy [first]) second t
  | "||" => return .cond (.callEnv Engine.isTruthy [first]) t second
  | "??" => return .cond (.call Engine.isNullish [first]) second t
  | op => failLowering n (.logicalOperator op)

def typeOperand (E : Eval) (arg : Node) : Lower C.Expr := do
  if arg.isGlobalProperty then
    return .callEnv Engine.getGlobal [← globalName arg, .lit "0"]
  else E.expr (some arg)

def typeText (E : Eval) (arg : Node) : Lower C.Expr := do
  if ← isWithName arg then
    let name ← string arg.name true
    return .callEnv Engine.withTypeOf [name, ← fallbackCell arg]
  else return .callEnv Engine.typeOf [← typeOperand E arg]

def delete (E : Eval) (n arg : Node) : Lower C.Expr := do
  let isStrict := (← function).isStrict
  if arg.isGlobalProperty then
    if isStrict then failLowering n .strictDelete
    else return .boxed (.callEnv Engine.deleteGlobal [← globalName arg])
  else
    match arg.kind with
    | .member =>
      let object := arg.part? .object
      if object.any fun o => o.kind == .super then failLowering n .superDelete
      else
        let obj ← E.expr object
        let key ← propertyKey E arg
        let (pre, obj, key) ← pairInOrder obj key
        let strict := .lit (if isStrict then "1" else "0")
        return .comma (pre ++ [.boxed (.callEnv Engine.deleteProperty [obj, key, strict])])
    | .identifier =>
      if isStrict then failLowering n .strictDelete
      else if ← isWithName arg then
        let name ← string arg.name true
        return .callEnv Engine.withDelete [name, ← fallbackCell arg]
      else return .lit Engine.valFalse
    | _ => return .comma [← E.discard arg, .lit Engine.valTrue]

def unary (E : Eval) (n : Node) : Lower C.Expr := do
  let arg := n.part? .argument
  match n.operator with
  | "typeof" => typeText E (arg.getD default)
  | "void" => return .comma [← E.discard (arg.getD default), .undefined]
  | "delete" => delete E n (arg.getD default)
  | op =>
    let (set, v) ← readableForm (← E.expr arg)
    let (test, x) := numberView v
    let slow : C.Expr := .callEnv Engine.unaryOp [.lit ((Engine.unaryCode? op).getD ""), v]
    match op with
    | "-" => return .comma [set, preferFast test (numberValue (.unary "-" x)) slow]
    | "+" => return .comma [set, preferFast test v (.callEnv Engine.toNumber [v])]
    | "~" =>
      let fast := numberValue (castDouble (.unary "~" (.call Engine.toInt32 [x])))
      return .comma [set, preferFast test fast slow]
    | _ => failLowering n (.unaryOperator op)

end ScriptC.Lower
