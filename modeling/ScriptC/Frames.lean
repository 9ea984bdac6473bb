import ScriptC.C.Stmt

/-!
The declarations of open C blocks. A temporary belongs to the innermost block and is declared at its
top when the block is closed, so it never outlives its block.
-/

namespace ScriptC

inductive FrameFault where
  | underflow
  | outside
  deriving DecidableEq, Repr

def FrameFault.message : FrameFault → String
  | .underflow => "Compiler Error: temp allocator block underflow"
  | .outside => "Compiler Error: declaration outside of any block"

structure Frames where
  blocks : List (List C.Decl) := []
  total : Nat := 0
  deriving Inhabited

namespace Frames

def push (f : Frames) : Frames := { f with blocks := [] :: f.blocks }

def pop (f : Frames) : Except FrameFault (List C.Decl × Frames) :=
  match f.blocks with
  | [] => .error .underflow
  | decls :: outer => .ok (decls, { f with blocks := outer })

def depth (f : Frames) : Nat := f.blocks.length

def declare (f : Frames) (d : C.Decl) : Except FrameFault Frames :=
  match f.blocks with
  | [] => .error .outside
  | decls :: outer => .ok { f with blocks := (decls ++ [d]) :: outer }

def allocate (f : Frames) (d : C.Decl) : Except FrameFault Frames := do
  let f ← f.declare d
  return { f with total := f.total + 1 }

end Frames

def temporaryName (stem : String) (id : Int) : String := s!"{stem}_{id}"

end ScriptC
