import ScriptC.Function.Extract
import ScriptC.Scope

/-!
What the names of a script mean. A declaration is known by the number of the identifier that makes
it; every use of a name, `this`, `new.target` and `super` is bound to one.
-/

namespace ScriptC

structure Declaration where
  name : String
  kind : BindingKind
  owner : Nat
  span : Span
  stop : Int := 0
  scope : Nat := 0
  isCaptured : Bool := false
  isReferenced : Bool := false
  isVolatile : Bool := false
  deriving DecidableEq, Repr, Inhabited

inductive Binding where
  | direct (decl : Nat)
  | viaWith (decl : Nat)
  | global
  deriving DecidableEq, Repr, Inhabited

def Binding.decl? : Binding → Option Nat
  | .direct d | .viaWith d => some d
  | .global => none

structure Bindings where
  counters : Counters
  functions : Array Function
  sites : Std.TreeMap Nat Nat
  scopes : Scopes := #[]
  decls : Std.TreeMap Nat Declaration := {}
  uses : Std.TreeMap Nat Binding := {}
  scopeOf : Std.TreeMap Nat Nat := {}
  aliases : Std.TreeMap Nat Node := {}
  deriving Inhabited

namespace Bindings

def decl (b : Bindings) (d : Nat) : Declaration := b.decls.getD d default

def function (b : Bindings) (f : Nat) : Function := b.functions.getD f default

def lineage (b : Bindings) : Array Lineage := b.functions.map (·.lineage)

def thisOwner (b : Bindings) (f : Nat) : Nat :=
  (Lineage.thisOwner? b.lineage f).getD 0

def use? (b : Bindings) (n : Node) : Option Binding := b.uses.get? n.id

def resolved? (b : Bindings) (n : Node) : Option Nat := (b.use? n).bind (·.decl?)

def isInWith (b : Bindings) (n : Node) : Bool :=
  (b.scopeOf.get? n.id).any b.scopes.isInWith

def opened? (b : Bindings) (n : Node) : Option Nat :=
  (b.scopeOf.get? n.id).filter fun i => b.scopes[i]?.any fun s => s.opener == some n.id

end Bindings

abbrev Resolve := StateT Bindings (Except Fault)

namespace Resolve

def modifyFunction (f : Nat) (change : Function → Function) : Resolve Unit :=
  modify fun b => { b with functions := b.functions.modify f change }

def modifyDecl (d : Nat) (change : Declaration → Declaration) : Resolve Unit :=
  modify fun b => { b with decls := b.decls.modify d change }

def modifyScope (i : Nat) (change : Scope → Scope) : Resolve Unit :=
  modify fun b => { b with scopes := b.scopes.modify i change }

def freshNode : Resolve Nat := do
  let b ← get
  set { b with counters := { b.counters with node := b.counters.node + 1 } }
  return b.counters.node

def openScope (s : Scope) : Resolve Nat := do
  let i := (← get).scopes.size
  modify fun b => { b with scopes := b.scopes.push s }
  return i

def setScope (n : Node) (i : Nat) : Resolve Unit :=
  modify fun b => { b with scopeOf := b.scopeOf.insert n.id i }

def setUse (n : Node) (u : Binding) : Resolve Unit :=
  modify fun b => { b with uses := b.uses.insert n.id u }

def addDecl (id : Node) (d : Declaration) : Resolve Unit := do
  modify fun b => { b with decls := b.decls.insert id.id d }
  modifyScope d.scope fun s => s.declare d.name id.id

end Resolve
end ScriptC
