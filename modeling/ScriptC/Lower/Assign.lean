import ScriptC.Lower.Operator

/-!
Assignments. The object and the key of a target are evaluated once, before the value.
-/

namespace ScriptC.Lower

inductive Reference where
  | withName (name fallback : C.Expr)
  | self (decl : Nat) (name : String)
  | variable (decl : Nat)
  | global (name : C.Expr)
  | super (home key : C.Expr)
  | named (n : Node) (object key : C.Expr)
  | element (object key : C.Expr)

def constantMessage (name : String) : String := s!"assignment to constant variable '{name}'"

def Reference.get (E : Eval) : Reference → Lower C.Expr
  | .withName name fallback => return .callEnv Engine.withGet [name, fallback]
  | .self d _ | .variable d => load d
  | .global name => return .callEnv Engine.getGlobal [name, .lit "1"]
  | .super home key => do
    return .callEnv Engine.getSuper [home, key, ← loadOption (← thisOwner).this]
  | .named n o _ => readMember E n o
  | .element o k => readElement o k

def Reference.set (v : C.Expr) : Reference → Lower C.Expr
  | .withName name fallback => return .callEnv Engine.withSet [name, fallback, v]
  | .self _ name => do
    if !(← function).isStrict then return v
    let message ← string (constantMessage name) false
    return .comma [.callEnv Engine.throwType [message], v]
  | .variable d => return .set (← storage d) v
  | .global name => do
    let strict := .lit (if (← function).isStrict then "1" else "0")
    return .callEnv Engine.setGlobal [name, v, strict]
  | .super home key => do
    let (keep, v) ← readableForm v
    return .comma [keep, .callEnv Engine.setSuper [home, key, v, ← loadOption (← thisOwner).this]]
  | .named n o key => do
    let (keep, v) ← readableForm v
    return .comma [keep, ← writeNamed n o key v]
  | .element o k => do
    let (keep, v) ← readableForm v
    return .comma [keep, writeElement o k v]

def keep (v : C.Expr) : Lower (List C.Expr × C.Expr) :=
  if v.isConstant then return ([], v)
  else do
    let t ← temp
    return ([.set t v], t)

def nameReference (id at_ : Node) (mode : TargetUse) : Lower Reference := do
  if ← isWithName id then
    let name ← string id.name true
    return .withName name (← fallbackCell id)
  let b ← bindings
  match b.use? id with
  | some (.direct d) =>
    let kind := (b.decl d).kind
    if mode != .init && kind == .const then failLowering at_ (.constant id.name)
    else if mode != .init && kind == .self then return .self d id.name
    else return .variable d
  | _ => failLowering id (.unresolvedName id.name)

def memberReference (E : Eval) (n : Node) (mode : TargetUse) : Lower (List C.Expr × Reference) := do
  if n.isGlobalProperty then return ([], .global (← globalName n))
  let object := n.part? .object
  if object.any fun o => o.kind == .super then
    let home ← loadOption (object.bind (← bindings).resolved?)
    let (pre, key) ← keep (← propertyKey E n)
    return (pre, .super home key)
  let (pre, o) ← keep (← E.expr object)
  if n.memberName?.isSome then return (pre, .named n o (← propertyKey E n))
  let k ← propertyKey E n
  -- The key is converted once for the read and the write.
  let k := if mode == .compound && !k.isConstant then .callEnv Engine.toPropertyKey [k] else k
  let (more, k) ← keep k
  return (pre ++ more, .element o k)

def reference (E : Eval) (target : Option Node) (at_ : Node) (mode : TargetUse) :
    Lower (List C.Expr × Reference) := do
  match target with
  | none => failLowering at_ .assignmentTarget
  | some t =>
    match t.kind with
    | .identifier => return ([], ← nameReference t at_ mode)
    | .member => memberReference E t mode
    | _ => failLowering at_ .assignmentTarget

def assign (E : Eval) (n : Node) : Lower C.Expr := do
  let left := n.part? .left
  let right := n.part? .right
  match n.operator with
  | "=" =>
    if left.any fun l => l.kind == .arrayPattern || l.kind == .objectPattern then
      let t ← temp
      let v ← E.expr right
      return .comma [.set t v, ← E.destructureOption left t .assign, t]
    else
      let (pre, ref) ← reference E left n .assign
      let v ← E.expr right
      return .comma (pre ++ [← ref.set v])
  | op =>
    let (pre, ref) ← reference E left n .compound
    let conditional (choose : C.Expr → C.Expr → C.Expr → C.Expr) : Lower C.Expr := do
      let t ← temp
      let current := .set t (← ref.get E)
      let v ← E.expr right
      let store ← ref.set v
      return .comma (pre ++ [choose current store t])
    match op with
    | "&&=" =>
      conditional fun current store t => .cond (.callEnv Engine.isTruthy [current]) store t
    | "||=" =>
      conditional fun current store t => .cond (.callEnv Engine.isTruthy [current]) t store
    | "??=" =>
      conditional fun current store t => .cond (.call Engine.isNullish [current]) store t
    | _ =>
      let old ← ref.get E
      let v ← E.expr right
      let result ← arith n (String.ofList op.toList.dropLast) old v
      return .comma (pre ++ [← ref.set result])

def updateMarks (n : Node) : String × Bool :=
  match n.label with
  | .update op before => (op, before)
  | _ => ("", true)

/--
An increment or decrement. The old value becomes numeric first; after a postfix operator that is the
value, if it is wanted.
-/
def update (E : Eval) (n : Node) (wanted : Bool) : Lower C.Expr := do
  let (pre, ref) ← reference E (n.part? .argument) n .compound
  let (op, isPrefix) := updateMarks n
  let old ← temp
  let next ← temp
  let fetch := .set old (← ref.get E)
  let delta := if op == "--" then "-" else "+"
  let fast := .set next (numberValue (.binary delta (.numberOf old) (.lit "1.0")))
  let slow := .comma
    [.set old (.callEnv Engine.toNumeric [old]),
      .set next (.callEnv Engine.unaryOp [.lit ((Engine.unaryCode? op).getD ""), old])]
  let compute := .cond (.likely (.isNumber fetch) false) fast slow
  let store ← ref.set next
  return .comma (pre ++ [compute, store, if wanted && !isPrefix then old else next])

end ScriptC.Lower
