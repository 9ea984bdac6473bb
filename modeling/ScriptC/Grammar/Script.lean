import ScriptC.Grammar.Statement

/-!
Whole scripts. The rules are unrolled as deep as the phrases of the text can be nested.
-/

namespace ScriptC.Grammar

open Surface

def noRules : Rules :=
  let bad : Parse Expr := return badExpr default
  { assignment := bad, unary := bad, power := bad, relation := bad, operand := bad, callable := bad
    object := bad, statement := return badStmt 0 0 }

def stepRules (inner : Unit → Rules) : Rules :=
  { assignment := fun s => assignment (inner ()) s
    unary := fun s => unary (inner ()) s
    power := fun s => power (inner ()) s
    relation := fun s => relation (inner ()) s
    operand := fun s => operand (inner ()) s
    callable := fun s => callable (inner ()) s
    object := fun s => objectLiteral (inner ()) s
    statement := fun s => statement (inner ()) s }

def rulesUpTo : Nat → Rules
  | 0 => noRules
  | depth + 1 => stepRules fun _ => rulesUpTo depth

def script (g : Rules) : Parse (List Stmt) := do
  advance
  many (do return (← token) != .eof) (do allowLet true; g.statement)

def parse (content : List UInt8) : Except Refusal (List Stmt) :=
  let text := Cursor.ofBytes content
  let size := text.rest.length
  let g := rulesUpTo (4 * size + 16)
  match (script g).run { text, size, lexer := { cursor := text } } with
  | .error m => .error (.miscount m)
  | .ok (body, s) =>
    match s.error with
    | some e => .error (.error e)
    | none => .ok body

end ScriptC.Grammar
