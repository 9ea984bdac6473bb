import ScriptC.Lower.Eval
import ScriptC.Lower.Operands

/-!
Reading and writing properties. A property with a known name goes through the cache slot of its
access; elements of an array and its length are read and written in place.
-/

namespace ScriptC.Lower

def arrow (x : C.Expr) (name : String) : C.Expr := .field x name true

def castDouble (x : C.Expr) : C.Expr := .cast "double" x

def castUint32 (x : C.Expr) : C.Expr := .cast "uint32_t" x

def arrayTest (o : C.Expr) (protoUnchanged : Bool) : C.Expr :=
  let test := .and (.isObject o)
    (.binary "==" (arrow (.objectPtr o) "shape_id") (.var "env->array_shape_id"))
  if protoUnchanged then .and test (arrow (.arrayPtr o) "proto_unchanged") else test

/--
Whether a key is a whole number below the length of an array, and the key as an index. The range is
tested before the conversion, which negative numbers do not have.
-/
def elementIndex (o k : C.Expr) : C.Expr × C.Expr :=
  let (isNumber, x) := numberView k
  let bound := castDouble (arrow (.arrayPtr o) "length")
  let index := castUint32 x
  let test := .and isNumber (.binary ">=" x (.lit "0.0"))
  let test := .and test (.binary "<" x bound)
  (.and test (.binary "==" (castDouble index) x), index)

def cacheSlot? (n : Node) : Lower (Option Nat) :=
  return (← read).analysis.slots.get? n.id

def slotText (slot : Nat) : String := s!"shape_cache[{slot}]"

def cacheHit (o : C.Expr) (entry : String) : C.Expr :=
  .and (.isObject o)
    (.likely (.binary "==" (arrow (.objectPtr o) "shape_id") (.var (entry ++ ".shape_id"))) false)

def cachedValue (o : C.Expr) (entry : String) : C.Expr :=
  .index (arrow (.objectPtr o) "values") (.var (entry ++ ".index"))

def readNamed (n : Node) (o key : C.Expr) : Lower C.Expr := do
  match ← cacheSlot? n with
  | none => return .callEnv Engine.getProperty [o, key, .lit "NULL"]
  | some slot =>
    let entry := slotText slot
    let t ← temp
    let flagged := .isFlagged (.set t (cachedValue o entry))
    let value := .cond (.likely flagged true) (.callEnv Engine.getDescriptor [o, t]) t
    return .cond (cacheHit o entry) value
      (.callEnv Engine.getProperty [o, key, .var ("&" ++ entry)])

def readElement (o k : C.Expr) : Lower C.Expr := do
  let (test, index) := elementIndex o k
  let t ← temp
  let element := .set t (.index (arrow (.arrayPtr o) "values") index)
  let hit := .and (.likely (.and (arrayTest o true) test) false) (.not (.isDeleted element))
  return .cond hit t (.callEnv Engine.getIndex [o, k])

def readMember (E : Eval) (n : Node) (o : C.Expr) : Lower C.Expr := do
  match n.memberName? with
  | some name =>
    let key ← propertyKey E n
    if name == "length" then
      let fast := numberValue (castDouble (arrow (.arrayPtr o) "length"))
      return .cond (.likely (arrayTest o false) false) fast (← readNamed n o key)
    else readNamed n o key
  | none =>
    let (set, k) ← readableForm (← propertyKey E n)
    return .comma [set, ← readElement o k]

/--
Write the length of an array. It is set in place when it lies between the current length and the
capacity, where the elements are holes already.
-/
def writeLength (o v : C.Expr) : C.Expr :=
  let arr := .arrayPtr o
  let (isNumber, x) := numberView v
  let n32 := castUint32 x
  let test := .and (arrayTest o false) isNumber
  let test := .and test (.binary ">=" x (castDouble (arrow arr "length")))
  let test := .and test (.binary "<=" x (castDouble (arrow arr "capacity")))
  let test := .and test (.binary "==" (castDouble n32) x)
  .cond (.likely test false) (.comma [.set (arrow arr "length") n32, v])
    (.callEnv Engine.setLength [o, v])

def writeNamed (n : Node) (o key v : C.Expr) : Lower C.Expr := do
  if n.memberName? == some "length" then return writeLength o v
  match ← cacheSlot? n with
  | none => return .callEnv Engine.setProperty [o, key, v, .lit "NULL"]
  | some slot =>
    let entry := slotText slot
    let place := cachedValue o entry
    let hit := .and (cacheHit o entry) (.not (.isFlagged place))
    let hit := .and hit (.not (.isDeleted v))
    return .cond hit (.set place v)
      (.callEnv Engine.setProperty [o, key, v, .var ("&" ++ entry)])

def writeElement (o k v : C.Expr) : C.Expr :=
  let (test, index) := elementIndex o k
  let hit := .and (arrayTest o true) test
  let hit := .and hit (.not (.isDeleted v))
  .cond (.likely hit false) (.set (.index (arrow (.arrayPtr o) "values") index) v)
    (.callEnv Engine.setIndex [o, k, v])

def readSuper (E : Eval) (n : Node) : Lower C.Expr := do
  let b ← bindings
  let home ← loadOption ((n.part? .object).bind b.resolved?)
  let key ← propertyKey E n
  let this ← loadOption (← thisOwner).this
  let (pre, key, this) ← pairInOrder key this
  return .comma (pre ++ [.callEnv Engine.getSuper [home, key, this]])

def endEarly (n : Node) (flag : Option C.Expr) (v out : C.Expr) : C.Expr :=
  match flag with
  | some flag =>
    if n.isOptional then
      .cond (.likely (.call Engine.isNullish [v]) true)
        (.comma [.set flag (.lit "1"), .undefined]) out
    else out
  | none => out

/--
Apply an access to the base of a member or a call. In an optional chain it is skipped once the chain
has ended. A base that is pinned is copied even if it is a variable, because the access runs more of
the script before it uses the base.
-/
def applyLink (n : Node) (base : C.Expr) (pin : Bool) (access : C.Expr → Lower C.Expr) :
    Lower C.Expr := do
  let (set, o) ←
    if pin && isReadable base && !base.isConstant then
      let t ← temp
      pure (.set t base, t)
    else readableForm base
  match (← get).chain with
  | none => return .comma [set, ← access o]
  | some flag =>
    let out ← withChain none (access o)
    return .comma [set, .cond flag .undefined (endEarly n (some flag) o out)]

def member (E : Eval) (n : Node) : Lower C.Expr := do
  if n.isGlobalProperty then
    return .callEnv Engine.getGlobal [← globalName n, .lit "1"]
  let object := n.part? .object
  if object.any fun o => o.kind == .super then readSuper E n
  else
    let base ← E.expr object
    applyLink n base n.memberName?.isNone (readMember E n)

def chainValue (E : Eval) (n : Node) : Lower C.Expr := do
  let flag ← tempOf "int" "opt"
  let v ← withChain (some flag) (E.expr (n.part? .expression))
  return .comma [.set flag (.lit "0"), v]

end ScriptC.Lower
