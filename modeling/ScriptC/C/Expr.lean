import ScriptC.Double.Text
import ScriptC.Engine.Entry
import ScriptC.Engine.Bits

/-!
C expressions. Sequencing and temporaries are explicit in the tree; writing it as text is the last
step and puts every compound expression in parentheses.
-/

namespace ScriptC.C

inductive Expr where
  | missing
  /--
  Text used as it is, a primary expression. A constant keeps its value while the function runs.
  -/
  | raw (text : String) (isConstant : Bool)
  | call (fn : String) (args : List Expr)
  | callPtr (fn : Expr) (args : List Expr)
  | seq (list : List Expr)
  | cond (test thenE elseE : Expr)
  | assign (target : Expr) (op : String) (value : Expr)
  | binary (op : String) (x y : Expr)
  | unary (op : String) (x : Expr)
  | index (x i : Expr)
  | field (x : Expr) (name : String) (arrow : Bool)
  | likely (x : Expr) (unlikely : Bool)
  | cast (type : String) (x : Expr)
  | bits (test : Engine.BitTest) (x : Expr)
  | pointer (type : String) (x : Expr)
  deriving Inhabited, Repr

namespace Expr

def joined : List String → String
  | [] => ""
  | [s] => s
  | s :: rest => s ++ ", " ++ joined rest

mutual

def render : Expr → String
  | .missing => "/*nil*/0"
  | .raw text _ => text
  | .call fn args => fn ++ "(" ++ joined (renderList args) ++ ")"
  | .callPtr fn args => "(" ++ fn.render ++ ")(" ++ joined (renderList args) ++ ")"
  | .seq list => "(" ++ joined (renderList list) ++ ")"
  | .cond test thenE elseE =>
    "(" ++ test.render ++ " ? " ++ thenE.render ++ " : " ++ elseE.render ++ ")"
  | .assign target op value => "(" ++ target.render ++ " " ++ op ++ " " ++ value.render ++ ")"
  | .binary op x y => "(" ++ x.render ++ " " ++ op ++ " " ++ y.render ++ ")"
  | .unary op x => "(" ++ op ++ x.render ++ ")"
  | .index x i => x.render ++ "[" ++ i.render ++ "]"
  | .field x name arrow => x.render ++ (if arrow then "->" else ".") ++ name
  | .likely x unlikely => (if unlikely then "unlikely(" else "likely(") ++ x.render ++ ")"
  | .cast type x => "((" ++ type ++ ")" ++ x.render ++ ")"
  | .bits test x => "(" ++ test.text x.render ++ ")"
  | .pointer type x => Engine.pointerText x.render type

def renderList : List Expr → List String
  | [] => []
  | e :: rest => e.render :: renderList rest

end

mutual

/--
Whether an expression has no effect and yields the same value wherever it is evaluated, so that it
may be moved and repeated.
-/
def isConstant : Expr → Bool
  | .raw _ isConstant => isConstant
  | .call fn args => fn == Engine.makeNumber && allConst args
  | .unary _ x => x.isConstant
  | .binary _ x y => x.isConstant && y.isConstant
  | .cast _ x => x.isConstant
  | _ => false

def allConst : List Expr → Bool
  | [] => true
  | e :: rest => e.isConstant && allConst rest

end

def var (text : String) : Expr := .raw text false

def lit (text : String) : Expr := .raw text true

def nat (n : Nat) : Expr := lit (toString n)

def env : Expr := var "env"

def callEnv (fn : String) (args : List Expr) : Expr := .call fn (env :: args)

def elements : Expr → List Expr
  | .missing => []
  | .seq list => list
  | e => [e]

def comma (list : List Expr) : Expr :=
  match list.flatMap elements with
  | [e] => e
  | flat => .seq flat

def set (target value : Expr) : Expr := .assign target "=" value

def and : Expr → Expr → Expr
  | .missing, y => y
  | x, .missing => x
  | x, y => .binary "&&" x y

def or (x y : Expr) : Expr := .binary "||" x y

def not (x : Expr) : Expr := .unary "!" x

def double (x : Double) : Expr := lit x.constant

def number (x : Double) : Expr := .call Engine.makeNumber [double x]

def numberOf (v : Expr) : Expr := .field v "number" false

def bitsOf (v : Expr) : Expr := .field v "raw" false

def isNumber (v : Expr) : Expr := .bits .number v

def isObject (v : Expr) : Expr := .bits .object v

def isDeleted (v : Expr) : Expr := .bits .deleted v

def isFlagged (v : Expr) : Expr := .bits .flagged v

def objectPtr (v : Expr) : Expr := .pointer Engine.typeObject v

def arrayPtr (v : Expr) : Expr := .pointer Engine.typeArray v

def boxed (test : Expr) : Expr := .cond test (lit Engine.valTrue) (lit Engine.valFalse)

def undefined : Expr := lit Engine.valUndefined

def deleted : Expr := lit Engine.valDeleted

def hasParens : Expr → Bool
  | .assign .. | .seq _ => true
  | _ => false

def hasTestParens : Expr → Bool
  | .binary .. | .seq _ | .assign .. | .cond .. | .unary .. => true
  | _ => false

def inner (s : String) : String :=
  String.ofList ((s.toList.drop 1).dropLast)

def statementText (e : Expr) : String :=
  if e.hasParens then inner e.render else e.render

def testText (e : Expr) : String :=
  if e.hasTestParens then inner e.render else e.render

end Expr
end ScriptC.C
