import ScriptC.Lower.Storage

/-!
The ways to write an expression. Each writer of a kind of expression is a plain function that takes
the writers for the expressions below it.
-/

namespace ScriptC

inductive TargetUse where
  | assign
  | compound
  | init
  deriving DecidableEq, Repr

structure Eval where
  expr : Option Node → Lower C.Expr
  test : Option Node → Lower C.Expr
  discard : Node → Lower C.Expr
  destructure : Node → C.Expr → TargetUse → Lower C.Expr

namespace Eval

def idle : Eval where
  expr _ := return .undefined
  test _ := return .lit "0"
  discard _ := return .undefined
  destructure _ v _ := return v

def exprs (E : Eval) : List (Option Node) → Lower (List C.Expr)
  | [] => return []
  | n :: rest => do
    let e ← E.expr n
    return e :: (← E.exprs rest)

def discards (E : Eval) : List Node → Lower (List C.Expr)
  | [] => return []
  | n :: rest => do
    let e ← E.discard n
    return e :: (← E.discards rest)

def destructureOption (E : Eval) (n : Option Node) (v : C.Expr) (mode : TargetUse) : Lower C.Expr :=
  match n with
  | none => return v
  | some n => E.destructure n v mode

end Eval

namespace Lower

def keySlot (key : Node) (text : String) : Lower C.Expr :=
  match key.label with
  | .literal (.string s) _ => string s true
  | .literal (.bigint digits) _ => bigint digits
  | _ => string text true

def propertyKey (E : Eval) (n : Node) : Lower C.Expr := do
  let property := n.part? .property
  if n.computed then withChain none (E.expr property)
  else
    let p := property.getD default
    keySlot p p.name

def globalName (n : Node) : Lower C.Expr := do
  let p := (n.part? .property).getD default
  if n.computed then
    match p.label with
    | .literal (.string _) _ | .literal (.bigint _) _ => keySlot p ""
    | _ => return .lit ""
  else keySlot p p.name

def isWithName (n : Node) : Lower Bool := do
  if n.kind != .identifier then return false
  match (← bindings).use? n with
  | some .global | some (.viaWith _) => return true
  | _ => return false

def fallbackCell (n : Node) : Lower C.Expr := do
  match (← bindings).use? n with
  | some (.viaWith d) => cell d
  | _ => return .lit "NULL"

end Lower
end ScriptC
