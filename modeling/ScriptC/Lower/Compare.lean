import ScriptC.Lower.Operator

/-!
Comparisons and conditions as C truth values, so that a condition never makes a boolean only to test
it again.
-/

namespace ScriptC.Lower

def constantTruth? : Literal → Option Bool
  | .boolean b => some b
  | .null | .undefined | .nan => some false
  | .number x => some (!x.isZero && !x.isNaN)
  | .string s => some !s.isEmpty
  | .bigint _ | .regexp .. => none

def specialValue? (n : Node) : Option Value :=
  match n.literal? with
  | some .null => some Value.null
  | some .undefined => some Value.undefined
  | some (.boolean b) => some (Value.bool b)
  | _ => none

def nullish? (n : Node) : Option Literal :=
  match n.literal? with
  | some .null => some .null
  | some .undefined => some .undefined
  | _ => none

def nullishOperand? (op : String) (n : Node) : Option (Node × Literal) :=
  match n.label, n.part? .left, n.part? .right with
  | .binary o, some left, some right =>
    if o != op then none
    else
      match nullish? right, left.kind == .identifier with
      | some l, true => some (left, l)
      | _, _ =>
        match nullish? left, right.kind == .identifier with
        | some l, true => some (right, l)
        | _, _ => none
  | _, _, _ => none

def nullishJoin? : String → Option (String × Bool)
  | "||" => some ("===", false)
  | "&&" => some ("!==", true)
  | _ => none

/--
The variable that a logical operator compares with both null and undefined, and whether the test is
that it is neither.
-/
def bothNullish? (b : Bindings) (n : Node) : Option (Node × Bool) := do
  let (op, negated) ← nullishJoin? n.operator
  let (x, k) ← (n.part? .left).bind (nullishOperand? op)
  let (y, l) ← (n.part? .right).bind (nullishOperand? op)
  match b.use? x, b.use? y with
  | some (.direct d), some (.direct e) => if k != l && d == e then some (x, negated) else none
  | _, _ => none

def equal (fn : String) (a b : C.Expr) : Lower C.Expr := do
  let (pre, x, y) ← readablePair a b
  let (xt, xn) := numberView x
  let (yt, yn) := numberView y
  return .comma (pre ++ [preferFast (.and xt yt) (.binary "==" xn yn) (.callEnv fn [x, y])])

def typeofSides (left right : Node) : Option (Node × Node) :=
  let isTypeof (n : Node) : Bool :=
    match n.label with
    | .unary op => op == "typeof"
    | _ => false
  if isTypeof right then some (right, left)
  else if isTypeof left then some (left, right)
  else none

def typeComparison? (E : Eval) (left right : Node) : Lower (Option C.Expr) := do
  match typeofSides left right with
  | none => return none
  | some (operator, text) =>
    let arg := (operator.part? .argument).getD default
    match text.string? with
    | none => return none
    | some type =>
      if !Engine.isTypeName type then return none
      if ← isWithName arg then return none
      let v ← typeOperand E arg
      return some (.callEnv Engine.typeOfIs [v, ← string type false])

def equality (E : Eval) (isStrict : Bool) (left right : Node) : Lower C.Expr := do
  match ← typeComparison? E left right with
  | some e => return e
  | none =>
    if isStrict then
      match specialValue? right, specialValue? left with
      | some v, _ => return bitsEqual (← E.expr (some left)) v
      | none, some v => return bitsEqual (← E.expr (some right)) v
      | none, none =>
        let a ← E.expr (some left)
        equal Engine.strictEq a (← E.expr (some right))
    else if (nullish? right).isSome then
      return .call Engine.isNullish [← E.expr (some left)]
    else if (nullish? left).isSome then
      return .call Engine.isNullish [← E.expr (some right)]
    else
      let a ← E.expr (some left)
      equal Engine.looseEq a (← E.expr (some right))

def compare? (E : Eval) (n : Node) : Lower (Option C.Expr) := do
  let left := n.part? .left
  let right := n.part? .right
  let sides (isStrict : Bool) : Lower C.Expr :=
    equality E isStrict (left.getD default) (right.getD default)
  match n.operator with
  | "===" => some <$> sides true
  | "!==" => return some (.not (← sides true))
  | "==" => some <$> sides false
  | "!=" => return some (.not (← sides false))
  | "instanceof" =>
    let a ← E.expr left
    let (pre, x, y) ← pairInOrder a (← E.expr right)
    return some (.comma (pre ++ [.callEnv Engine.instanceOf [x, y]]))
  | "in" =>
    let a ← E.expr left
    let (pre, x, y) ← pairInOrder a (← E.expr right)
    return some (.comma (pre ++ [.callEnv Engine.hasProperty [y, x]]))
  | op =>
    match Engine.compareCode? op with
    | none => return none
    | some code =>
      let a ← E.expr left
      let (pre, x, y) ← readablePair a (← E.expr right)
      let (xt, xn) := numberView x
      let (yt, yn) := numberView y
      let slow := .callEnv Engine.compareOp [x, y, .lit code]
      return some (.comma (pre ++ [preferFast (.and xt yt) (.binary op xn yn) slow]))

def truthOf (v : C.Expr) : C.Expr :=
  match v with
  | .cond test (.raw yes true) (.raw no true) =>
    if yes == Engine.valTrue && no == Engine.valFalse then test
    else .callEnv Engine.isTruthy [v]
  | _ => .callEnv Engine.isTruthy [v]

def binary (E : Eval) (n : Node) : Lower C.Expr := do
  match ← compare? E n with
  | some test => return .boxed test
  | none =>
    let a ← E.expr (n.part? .left)
    arith n n.operator a (← E.expr (n.part? .right))

def testOf (E : Eval) (value : Node → Lower C.Expr) (n : Node) : Lower C.Expr := do
  match n.label with
  | .literal l _ =>
    match constantTruth? l with
    | some b => return .lit (if b then "1" else "0")
    | none => return truthOf (← value n)
  | .unary "!" => return .not (← E.test (n.part? .argument))
  | .logical op =>
    match bothNullish? (← bindings) n with
    | some (x, negated) =>
      let test := .call Engine.isNullish [← E.expr (some x)]
      return if negated then .not test else test
    | none =>
      if op == "&&" || op == "||" then
        let a ← E.test (n.part? .left)
        return .binary op a (← E.test (n.part? .right))
      else return truthOf (← value n)
  | .binary _ =>
    match ← compare? E n with
    | some test => return test
    | none => return truthOf (← value n)
  | .sequence =>
    let pre ← E.discards n.items.dropLast
    return .comma (pre ++ [← E.test n.items.getLast?])
  | _ => return truthOf (← value n)

end ScriptC.Lower
