import ScriptC.Node.Basic
import ScriptC.Shape

/-!
Functions of a script, each of which becomes one C function. Functions refer to each other by
number; a function comes after the one around it.
-/

namespace ScriptC

/--
The declarations of enclosing functions that a function uses, in slot order, each with the first use
that caused it to be captured.
-/
structure Captures where
  list : List (Nat × Nat) := []
  deriving Repr, Inhabited

namespace Captures

def index? (c : Captures) (decl : Nat) : Option Nat :=
  c.list.findIdx? fun p => p.1 == decl

def add (c : Captures) (decl use : Nat) : Nat × Bool × Captures :=
  match c.index? decl with
  | some i => (i, false, c)
  | none => (c.list.length, true, ⟨c.list ++ [(decl, use)]⟩)

def decls (c : Captures) : List Nat := c.list.map (·.1)

def size (c : Captures) : Nat := c.list.length

end Captures

structure Function where
  node : Node
  site : Option Node := none
  name : String := ""
  cname : String := ""
  parent : Option Nat := none
  children : List Nat := []
  isStrict : Bool := false
  isArrow : Bool := false
  isAsync : Bool := false
  isGenerator : Bool := false
  isProgram : Bool := false
  isConstructor : Bool := false
  isDerived : Bool := false
  isMethod : Bool := false
  scope : Nat := 0
  arguments : Option Nat := none
  this : Option Nat := none
  newTarget : Option Nat := none
  functionValue : Option Nat := none
  self : Option Nat := none
  vars : List Nat := []
  lexicals : List Nat := []
  captures : Captures := {}
  cacheKeys : List String := []
  newShape : Option Shape := none
  hasTry : Bool := false
  length : Nat := 0
  stackDepth : Nat := 0
  injectYield : Bool := false
  notConstructor : Bool := false
  coroutineKind : Nat := 0
  deriving Inhabited

namespace Function

def params (f : Function) : List Node := f.node.nodesAt .param

def body (f : Function) : Node := (f.node.part? .body).getD default

end Function

structure Lineage where
  parent : Option Nat
  isArrow : Bool
  deriving Repr, Inhabited

namespace Lineage

def chainFrom (functions : Array Lineage) : Nat → Option Nat → List (Nat × Lineage)
  | 0, _ | _, none => []
  | fuel + 1, some i =>
    match functions[i]? with
    | none => []
    | some f => (i, f) :: chainFrom functions fuel f.parent

def chain (functions : Array Lineage) (i : Nat) : List (Nat × Lineage) :=
  chainFrom functions (functions.size + 1) (some i)

def isAncestor (functions : Array Lineage) (f g : Nat) : Bool :=
  ((chain functions g).drop 1).any fun p => p.1 == f

def thisOwner? (functions : Array Lineage) (i : Nat) : Option Nat :=
  ((chain functions i).find? fun p => !p.2.isArrow).map (·.1)

end Lineage

def Function.lineage (f : Function) : Lineage := ⟨f.parent, f.isArrow⟩

end ScriptC
