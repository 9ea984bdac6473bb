import ScriptC.Lower.Basic

/-!
Operands. The order in which C evaluates the arguments of a call is open, so values with effects are
put into temporaries first; values that are read twice are too.
-/

namespace ScriptC.Lower

def isSimple : C.Expr → Bool
  | .raw .. => true
  | .call fn args => (C.Expr.call fn args).isConstant
  | _ => false

def isReadable : C.Expr → Bool
  | .raw .. => true
  | e => e.isConstant

def spill : List C.Expr → Lower (List C.Expr × List C.Expr)
  | [] => return ([], [])
  | [e] => return ([], [e])
  | e :: rest => do
    if e.isConstant then
      let (pre, values) ← spill rest
      return (pre, e :: values)
    else
      let t ← temp
      let (pre, values) ← spill rest
      return (.set t e :: pre, t :: values)

def inOrder (list : List C.Expr) : Lower (List C.Expr × List C.Expr) :=
  if list.all isSimple then return ([], list) else spill list

def settle : List C.Expr → Lower (List C.Expr × List C.Expr)
  | [] => return ([], [])
  | e :: rest => do
    if isReadable e then
      let (pre, values) ← settle rest
      return (pre, e :: values)
    else
      let t ← temp
      let (pre, values) ← settle rest
      return (.set t e :: pre, t :: values)

def readableInOrder (list : List C.Expr) : Lower (List C.Expr × List C.Expr) := do
  let (pre, values) ← inOrder list
  let (more, values) ← settle values
  return (pre ++ more, values)

def readablePair (x y : C.Expr) : Lower (List C.Expr × C.Expr × C.Expr) := do
  let (pre, values) ← readableInOrder [x, y]
  return (pre, values.getD 0 .missing, values.getD 1 .missing)

def pairInOrder (x y : C.Expr) : Lower (List C.Expr × C.Expr × C.Expr) := do
  let (pre, values) ← inOrder [x, y]
  return (pre, values.getD 0 .missing, values.getD 1 .missing)

def readableForm (v : C.Expr) : Lower (C.Expr × C.Expr) :=
  if isReadable v then return (.missing, v)
  else do
    let t ← temp
    return (.set t v, t)

def numberView (e : C.Expr) : C.Expr × C.Expr :=
  match e with
  | .call fn (x :: rest) =>
    if fn == Engine.makeNumber && (C.Expr.call fn (x :: rest)).isConstant then (.missing, x)
    else (.isNumber e, .numberOf e)
  | _ => (.isNumber e, .numberOf e)

def numberValue (x : C.Expr) : C.Expr := .call Engine.makeNumber [x]

def preferFast : C.Expr → C.Expr → C.Expr → C.Expr
  | .missing, fast, _ => fast
  | test, fast, slow => .cond (.likely test false) fast slow

def bitsEqual (v : C.Expr) (special : Value) : C.Expr :=
  .binary "==" (.bitsOf v) (.lit (Engine.bitsText special.bits))

end ScriptC.Lower
