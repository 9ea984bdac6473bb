import ScriptC.Lower.Call
import ScriptC.Lower.Class
import ScriptC.Lower.Compare
import ScriptC.Lower.Pattern

/-!
Expressions of all kinds.
-/

namespace ScriptC.Lower

def identifier (n : Node) : Lower C.Expr := do
  match (← bindings).use? n with
  | some (.direct d) => load d
  | some _ =>
    let name ← string n.name true
    return .callEnv Engine.withGet [name, ← fallbackCell n]
  | none => failLowering n (.unresolvedName n.name)

def exprOf (E : Eval) (n : Node) : Lower C.Expr := do
  match n.label with
  | .literal value _ => literal value
  | .identifier _ => identifier n
  | .this | .metaProperty _ =>
    match (← bindings).resolved? n with
    | some d => load d
    | none => failLowering n (.unresolved n.kind)
  | .template text => template E n text
  | .taggedTemplate => taggedTemplate E n
  | .array => array E n
  | .object => object E n
  | .functionExpression _ | .arrowFunction _ => functionAt n
  | .classExpression => classValue E n
  | .unary "!" => return .boxed (.not (← E.test (n.part? .argument)))
  | .unary _ => unary E n
  | .update .. => update E n true
  | .binary _ => binary E n
  | .logical _ => logical E n
  | .assignment _ => assign E n
  | .conditional =>
    let test ← E.test (n.part? .test)
    let consequent ← E.expr (n.part? .consequent)
    return .cond test consequent (← E.expr (n.part? .alternate))
  | .call _ => call E n
  | .new => construct E n
  | .member .. => member E n
  | .chain => chainValue E n
  | .sequence =>
    let pre ← E.discards n.items.dropLast
    match n.items.getLast? with
    | none => return .comma pre
    | some last => return .comma (pre ++ [← E.expr (some last)])
  | .awaitExpression => return .callEnv Engine.await [← E.expr (n.part? .argument)]
  | .yieldExpression delegate =>
    let v ← E.expr (n.part? .argument)
    return .callEnv (if delegate then Engine.yieldAll else Engine.yieldValue) [v]
  | _ => failLowering n (.expression n.kind)

def linkOf (E : Eval) (n : Node) : Lower C.Expr :=
  match n.kind with
  | .member | .call => exprOf E n
  | _ => withChain none (exprOf E n)

def discardOf (E : Eval) (n : Node) : Lower C.Expr :=
  match n.kind with
  | .update => update E n false
  | .assignment => assign E n
  | _ => linkOf E n

end ScriptC.Lower

namespace ScriptC.Eval

def above (E : Eval) : Eval where
  expr
    | none => return .undefined
    | some n => Lower.linkOf E n
  test
    | none => return .lit "0"
    | some n => Lower.testOf E (Lower.linkOf E) n
  discard := Lower.discardOf E
  destructure := Lower.destructureOf E

def upTo : Nat → Eval
  | 0 => idle
  | height + 1 => (upTo height).above

end ScriptC.Eval
