import ScriptC.C.Stmt

/-!
Text that is put together from lines, statements and finished pieces.
-/

namespace ScriptC.C

inductive PrinterFault where
  | negativeIndent
  deriving DecidableEq, Repr

def PrinterFault.message : PrinterFault → String
  | .negativeIndent => "strings: negative Repeat count"

structure Printer where
  text : String := ""
  indent : Int := 0

namespace Printer

def lines (p : Printer) (ls : List Line) : Except PrinterFault Printer :=
  if p.indent < 0 && !ls.isEmpty then .error .negativeIndent
  else .ok { p with
    text := p.text ++ textOf (ls.map fun l => { l with depth := p.indent.toNat + l.depth }) }

def line (p : Printer) (text : String) : Except PrinterFault Printer :=
  p.lines [⟨0, text⟩]

def stmt (p : Printer) (s : Stmt) : Except PrinterFault Printer :=
  p.lines s.lines

def contents (p : Printer) (decls : List Decl) (body : List Stmt) : Except PrinterFault Printer :=
  p.lines (Stmt.declLines decls ++ Stmt.bodyLines body)

def piece (p : Printer) (text : String) : Printer :=
  { p with text := p.text ++ text }

def shift (p : Printer) (delta : Int) : Printer :=
  { p with indent := p.indent + delta }

end Printer
end ScriptC.C
