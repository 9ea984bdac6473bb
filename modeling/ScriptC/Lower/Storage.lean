import ScriptC.Lower.Basic

/-!
Where the values of declarations live: in C variables, or in cells on the heap when another function
uses them. A function reaches the cells that it captured through its array of closures.
-/

namespace ScriptC.Lower

def newName (d : Nat) : Lower String := do
  let decl := (← bindings).decl d
  if decl.kind == .functionValue && !decl.isCaptured then return "func_val"
  else
    let stem :=
      match decl.kind with
      | .this => "this"
      | .newTarget => "newtarget"
      | .functionValue => "func"
      | _ => C.identText decl.name
    let id ← freshName
    return (if decl.isCaptured then "c_" else "j_") ++ stem ++ s!"_{id}"

def nameOf (d : Nat) : Lower String := do
  match (← get).names.name? d with
  | some name => return name
  | none =>
    let name ← newName d
    let (name, names) := (← get).names.assign d name
    modify fun w => { w with names }
    return name

def captureSlot (d : Nat) : Lower Nat := do
  let f ← function
  match f.captures.index? d with
  | some i => return i
  | none =>
    let decl := (← bindings).decl d
    throw ⟨.lowering (.notCaptured decl.name f.cname), decl.span⟩

def storage (d : Nat) : Lower C.Expr := do
  let decl := (← bindings).decl d
  if decl.owner == (← get).fn then
    let name ← nameOf d
    return .var (if decl.isCaptured then "(*" ++ name ++ ")" else name)
  else
    let slot ← captureSlot d
    return .var s!"(*closures[{slot}])"

def cell (d : Nat) : Lower C.Expr := do
  let decl := (← bindings).decl d
  if decl.owner == (← get).fn then
    let name ← nameOf d
    return .var (if decl.isCaptured then name else "&" ++ name)
  else
    let slot ← captureSlot d
    return .var s!"closures[{slot}]"

/--
Read a declaration. A lexical name of another function may not be initialized yet, and neither may
`this` of a derived constructor.
-/
def load (d : Nat) : Lower C.Expr := do
  let b ← bindings
  let decl := b.decl d
  let v ← storage d
  if decl.kind == .this && (b.function decl.owner).isDerived then
    return .callEnv Engine.checkThis [v]
  else if decl.owner != (← get).fn && decl.kind.isLexical then
    let t ← temp
    return .cond (.likely (.isDeleted (.set t v)) true)
      (.comma [.callEnv Engine.deadZone [← string decl.name true], t]) t
  else return v

def loadOption : Option Nat → Lower C.Expr
  | none => return .undefined
  | some d => load d

def declare (d : Nat) (init : C.Expr) : Lower Unit := do
  let decl := (← bindings).decl d
  let name ← nameOf d
  if decl.isCaptured then
    declareC
      { type := Engine.typeValue ++ " *", name, init := .callEnv Engine.newCell [init] }
  else
    declareC { type := Engine.typeValue, name, init, isVolatile := decl.isVolatile }
  if !decl.isReferenced then emit [.raw ("(void)" ++ name ++ ";")]

def scopeDecls (sc : Nat) : Lower (List Nat) := do
  let b ← bindings
  return (← function).lexicals.filter fun d => (b.decl d).scope == sc

def declareList : List Nat → Lower Unit
  | [] => return
  | d :: rest => do
    let decl := (← bindings).decl d
    declare d (if decl.isCaptured && decl.kind.isLexical then .deleted else .undefined)
    declareList rest

def declareNames (sc : Nat) : Lower Unit := do
  declareList (← scopeDecls sc)

def declareOpened (n : Node) : Lower Unit := do
  ((← bindings).opened? n).forM declareNames

def callSlot (k : Nat) : C.Expr := .index (.var "stk_ptr") (.nat k)

def callArea (k : Nat) : C.Expr :=
  if k == 0 then .var "stk_ptr" else .binary "+" (.var "stk_ptr") (.nat k)

end ScriptC.Lower
