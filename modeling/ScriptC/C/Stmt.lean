import ScriptC.C.Expr

/-!
C declarations and statements, and the lines they are written as.
-/

namespace ScriptC.C

structure Decl where
  type : String
  name : String
  init : Expr := .missing
  isStatic : Bool := false
  isVolatile : Bool := false
  length : Nat := 0
  deriving Inhabited, Repr

def Decl.typeText (d : Decl) : String :=
  if d.isVolatile then
    -- the variable is volatile, not what a pointer points to
    if d.type.endsWith "*" then d.type ++ " volatile " else "volatile " ++ d.type ++ " "
  else if d.type.endsWith "*" then d.type
  else d.type ++ " "

def Decl.render (d : Decl) : String :=
  (if d.isStatic then "static " else "") ++ d.typeText ++ d.name ++
    (if d.length > 0 then s!"[{d.length}]" else "") ++
    match d.init with
    | .missing => ""
    | init => " = " ++ init.render

inductive Stmt where
  | missing
  | expr (x : Expr)
  | block (decls : List Decl) (body : List Stmt)
  | branch (test : Expr) (thenS elseS : Stmt)
  | label (name : String)
  | goto (name : String)
  | ret (x : Expr)
  | loop (decls : List Decl) (body : List Stmt)
  | raw (text : String)
  | comment (text : String)
  | decl (d : Decl)
  deriving Inhabited, Repr

structure Line where
  depth : Nat
  text : String
  deriving DecidableEq, Repr

def Line.deeper (l : Line) : Line := { l with depth := l.depth + 1 }

namespace Stmt

def nest : Stmt → List Line → List Line
  | .block .., lines => lines
  | _, lines => lines.map Line.deeper

def braced (lines : List Line) : List Line :=
  ⟨0, "\x7b"⟩ :: lines.map Line.deeper ++ [⟨0, "\x7d"⟩]

def declLines (decls : List Decl) : List Line :=
  decls.map fun d => ⟨0, d.render ++ ";"⟩

mutual

def lines : Stmt → List Line
  | .missing => []
  | .expr x => [⟨0, x.statementText ++ ";"⟩]
  | .block decls body => braced (declLines decls ++ bodyLines body)
  | .branch test thenS elseS =>
    ⟨0, "if (" ++ test.testText ++ ")"⟩ :: nest thenS thenS.lines ++
      match elseS with
      | .missing => []
      | elseS => ⟨0, "else"⟩ :: nest elseS elseS.lines
  | .label name => [⟨0, name ++ ": ;"⟩]
  | .goto name => [⟨0, "goto " ++ name ++ ";"⟩]
  | .ret .missing => [⟨0, "return;"⟩]
  | .ret x => [⟨0, "return " ++ x.render ++ ";"⟩]
  | .loop decls body => ⟨0, "for (;;)"⟩ :: braced (declLines decls ++ bodyLines body)
  | .raw text => [⟨0, text⟩]
  | .comment text => [⟨0, "// " ++ text⟩]
  | .decl d => [⟨0, d.render ++ ";"⟩]

def bodyLines : List Stmt → List Line
  | [] => []
  | s :: rest => s.lines ++ bodyLines rest

end

end Stmt

def indentation (depth : Nat) : String :=
  String.ofList (List.replicate (4 * depth) ' ')

def textOf (lines : List Line) : String :=
  String.join (lines.map fun l => indentation l.depth ++ l.text ++ "\n")

def Stmt.render (s : Stmt) : String :=
  textOf s.lines

end ScriptC.C
