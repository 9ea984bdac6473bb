import ScriptC.Node.Basic

/-!
The phrases of a script as the grammar gives them. An expression is not told apart from a pattern
until it turns out to be assigned to; positions are kept as they are reported and shown.
-/

namespace ScriptC.Surface

structure Extent where
  start : Option Nat
  stop : Nat
  deriving DecidableEq, Repr, Inhabited

def Extent.of (start stop : Nat) : Extent := ⟨some start, stop⟩

def Extent.to (a b : Extent) : Extent := ⟨a.start, b.stop⟩

def Extent.span (e : Extent) : Span := ⟨e.start.getD 0, e.stop⟩

structure Name where
  extent : Extent
  text : String
  deriving DecidableEq, Repr, Inhabited

/-- How many bytes a name counts for: its own if all its characters are ASCII, else two for each of
its 16-bit units and two more. -/
def nameSize (name : String) : Nat :=
  if name.toList.all (·.toNat < 0x80) then name.length
  else name.toList.foldl (fun n c => n + if c.toNat < 0x10000 then 2 else 4) 2

def Name.at (start : Nat) (text : String) : Name := ⟨.of start (start + nameSize text), text⟩

inductive PropertyKind where
  | value
  | get
  | set
  | method
  deriving DecidableEq, Repr, Inhabited

mutual

inductive Expr where
  | mk (extent : Extent) (form : Form)

/-- What an expression is. A target with its default is written as an assignment; a property that is
not named by an expression in brackets has a string or a private name as its key. -/
inductive Form where
  | bad
  | identifier (name : String)
  | literal (value : Literal) (raw : String)
  | template (tag : Option Expr) (text : TemplateText) (values : List Expr)
  | this
  | super
  | array (items : List (Option Expr))
  | object (properties : List Expr)
  | short (name : Name) (default : Option Expr)
  | keyed (kind : PropertyKind) (computed : Bool) (key value : Expr)
  | function (name : Option Name) (isAsync isGenerator : Bool) (params : List Expr)
      (rest : Option Expr) (body : Stmt)
  | arrow (isAsync : Bool) (params : List Expr) (rest : Option Expr) (body : Stmt)
  | classLiteral (name : Option Name) (heritage : Option Expr) (elements : List Expr)
  | method (isStatic : Bool) (kind : PropertyKind) (computed : Bool) (key body : Expr)
  | field (isStatic computed : Bool) (key : Expr) (init : Option Expr)
  | staticBlock
  | unary (op : String) (operand : Expr)
  | update (op : String) (before : Bool) (operand : Expr)
  | binary (op : String) (left right : Expr)
  | assign (op : String) (left right : Expr)
  | conditional (test consequent alternate : Expr)
  | call (optional : Bool) (callee : Expr) (args : List Expr)
  | new (callee : Expr) (args : List Expr)
  | member (optional : Bool) (object : Expr) (name : Name)
  | index (optional : Bool) (object key : Expr)
  | privateMember (object : Expr) (name : String)
  | privateName (name : String)
  | chain (link : Expr)
  | sequence (items : List Expr)
  | spread (argument : Expr)
  | yield (delegate : Bool) (argument : Option Expr)
  | await (argument : Expr)
  | newTarget
  | arrayPattern (items : List (Option Expr)) (rest : Option Expr)
  | objectPattern (properties : List Expr) (rest : Option Expr)

inductive Stmt where
  | mk (extent : Extent) (form : StmtForm)

inductive StmtForm where
  | bad
  | block (body : List Stmt)
  | empty
  | debugger
  | expression (value : Expr)
  | branch (test : Expr) (consequent : Stmt) (alternate : Option Stmt)
  | labelled (name : String) (body : Stmt)
  | breakOff (label : Option String)
  | continueOn (label : Option String)
  | inside (object : Expr) (body : Stmt)
  | switch (discriminant : Expr) (cases : List Stmt)
  | switchCase (test : Option Expr) (body : List Stmt)
  | returnValue (value : Option Expr)
  | throw (value : Expr)
  | attempt (body : Stmt) (handler finalizer : Option Stmt)
  | handler (param : Option Expr) (body : Stmt)
  | whileLoop (test : Expr) (body : Stmt)
  | doLoop (body : Stmt) (test : Expr)
  | forLoop (init : Option Stmt) (test update : Option Expr) (body : Stmt)
  | forIn (target : Stmt) (object : Expr) (body : Stmt)
  | forOf (target : Stmt) (items : Expr) (body : Stmt)
  | declare (kind : BindingKind) (bindings : List Expr)
  | function (f : Expr)
  | classDeclaration (c : Expr)

end

namespace Expr

def extent : Expr → Extent
  | .mk e _ => e

def form : Expr → Form
  | .mk _ f => f

def stop (x : Expr) : Nat := x.extent.stop

instance : Inhabited Expr := ⟨.mk default .bad⟩

def ofName (n : Name) : Expr := .mk n.extent (.identifier n.text)

def isTarget (x : Expr) : Bool :=
  match x.form with
  | .identifier _ | .member .. | .privateMember .. | .index .. => true
  | _ => false

def isBad (x : Expr) : Bool :=
  match x.form with
  | .bad => true
  | _ => false

def withDefault (target : Expr) (default : Option Expr) : Expr :=
  match default with
  | some value => .mk (target.extent.to value.extent) (.assign "=" target value)
  | none => target

def binding (x : Expr) : Expr × Option Expr :=
  match x.form with
  | .assign "=" target value => (target, some value)
  | _ => (x, none)

end Expr

namespace Stmt

def extent : Stmt → Extent
  | .mk e _ => e

def form : Stmt → StmtForm
  | .mk _ f => f

def stop (s : Stmt) : Nat := s.extent.stop

instance : Inhabited Stmt := ⟨.mk default .empty⟩

end Stmt
end ScriptC.Surface
