import ScriptC.Analysis.Run
import ScriptC.CNames
import ScriptC.Frames
import ScriptC.Settings

/-!
The state in which code is written. Expressions become C trees; statements are added to the
innermost open block. Temporaries belong to the innermost block.
-/

namespace ScriptC

structure Plan where
  analysis : Analysis
  source : Source
  settings : Settings

structure Target where
  id : Nat
  labels : List String
  isLoop : Bool
  isPlain : Bool
  depth : Nat
  deriving DecidableEq, Repr, Inhabited

namespace Target

def breakLabel (t : Target) : String := s!"brk_{t.id}"

def continueLabel (t : Target) : String := s!"cont_{t.id}"

end Target

structure Finalizer where
  id : Nat
  handler : String
  deriving DecidableEq, Repr, Inhabited

namespace Finalizer

def label (f : Finalizer) : String := s!"fin_{f.id}"

def code (f : Finalizer) : String := s!"pend_{f.id}"

def value (f : Finalizer) : String := s!"pendv_{f.id}"

end Finalizer

inductive Exit where
  | handler (name : String)
  | withBody
  | iterator (name : String)
  | finalizer (f : Finalizer)
  deriving DecidableEq, Repr, Inhabited

structure Pending where
  returns : Bool := false
  jumps : List (Target × Bool) := []
  deriving Repr, Inhabited

def Pending.throwCode : Nat := 1

def Pending.returnCode : Nat := 2

def Pending.jumpCode (i : Nat) : Nat := 3 + i

structure Writer where
  literals : Literals
  lastName : Nat
  names : CNames := {}
  templates : List String := []
  made : List Nat := []
  temporaries : Nat := 0
  fn : Nat := 0
  frames : Frames := {}
  body : List C.Stmt := []
  stack : Nat := 0
  chain : Option C.Expr := none
  exits : List Exit := []
  targets : List Target := []
  labels : List String := []
  breaks : List Nat := []
  continues : List Nat := []
  pending : List (Nat × Pending) := []
  deriving Inhabited

abbrev Lower := ReaderT Plan (StateT Writer (Except Fault))

namespace Lower

def bindings : Lower Bindings := return (← read).analysis.bindings

def function : Lower Function := return (← bindings).function (← get).fn

def thisOwner : Lower Function := do
  let b ← bindings
  return b.function (b.thisOwner (← get).fn)

def freshName : Lower Nat := do
  let id := (← get).lastName + 1
  modify fun w => { w with lastName := id }
  return id

def withFrames {α : Type} (change : Frames → Except FrameFault (α × Frames)) : Lower α := do
  match change (← get).frames with
  | .ok (a, frames) =>
    modify fun w => { w with frames }
    return a
  | .error f => throw ((← function).node.loweringFault (.frame f.message))

def declareC (d : C.Decl) : Lower Unit :=
  withFrames fun f => return ((), ← f.declare d)

def allocate (d : String → C.Decl) (stem : String) : Lower C.Expr := do
  let name := temporaryName stem (← freshName)
  withFrames fun f => return ((), ← f.allocate (d name))
  modify fun w => { w with temporaries := w.temporaries + 1 }
  return .var name

def tempOf (type stem : String) : Lower C.Expr :=
  allocate (fun name => { type, name }) stem

def temp : Lower C.Expr := tempOf Engine.typeValue "tmp"

def tempIterator : Lower C.Expr :=
  allocate (fun name => { type := Engine.typeValue, name, length := 3 }) "it"

def emit (list : List C.Stmt) : Lower Unit :=
  modify fun w => { w with body := w.body ++ list }

def isIdle : C.Expr → Bool
  | .missing => true
  | .raw text isConstant => isConstant || !text.toList.contains '('
  | e => e.isConstant

def effect (e : C.Expr) : Lower Unit :=
  if isIdle e then pure () else emit [.expr e]

def inBlock (act : Lower Unit) : Lower (List C.Decl × List C.Stmt) := do
  let saved := (← get).body
  modify fun w => { w with frames := w.frames.push, body := [] }
  act
  let body := (← get).body
  let decls ← withFrames (·.pop)
  modify fun w => { w with body := saved }
  return (decls, body)

def block (act : Lower Unit) : Lower C.Stmt := do
  let (decls, body) ← inBlock act
  return .block decls body

def loop (act : Lower Unit) : Lower C.Stmt := do
  let (decls, body) ← inBlock act
  return .loop decls body

def string (value : String) (isKey : Bool) : Lower C.Expr := do
  let (name, literals) := (← get).literals.string value isKey
  modify fun w => { w with literals }
  return .lit name

def bigint (digits : String) : Lower C.Expr := do
  let (name, literals) := (← get).literals.bigint digits
  modify fun w => { w with literals }
  return .lit name

def withChain {α : Type} (chain : Option C.Expr) (act : Lower α) : Lower α := do
  let saved := (← get).chain
  modify fun w => { w with chain }
  let a ← act
  modify fun w => { w with chain := saved }
  return a

def withStack {α : Type} (stack : Nat) (act : Lower α) : Lower α := do
  let saved := (← get).stack
  modify fun w => { w with stack }
  let a ← act
  modify fun w => { w with stack := saved }
  return a

def withExit {α : Type} (exit : Exit) (act : Lower α) : Lower α := do
  let saved := (← get).exits
  modify fun w => { w with exits := exit :: saved }
  let a ← act
  modify fun w => { w with exits := saved }
  return a

def failLowering {α : Type} (n : Node) (f : LoweringFault) : Lower α :=
  throw (n.loweringFault f)

end Lower
end ScriptC
