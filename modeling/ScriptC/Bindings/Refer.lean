import ScriptC.Bindings.Basic

/-!
The uses of names in a function. A name that another function declares is captured by every function
on the way to it, so that each can hand its cell to the next.
-/

namespace ScriptC.Resolve

def captureIn (use : Node) (decl owner : Nat) : List (Nat × Lineage) → Resolve Unit
  | [] => return
  | (f, _) :: rest => do
    if f == owner then return
    let (slot, isNew, captures) := ((← get).function f).captures.add decl use.id
    if isNew && slot ≥ Engine.maxClosures then throw (use.limitFault .captures)
    modifyFunction f fun f => { f with captures }
    captureIn use decl owner rest

def capture (fn : Nat) (decl : Nat) (use : Node) : Resolve Unit := do
  modifyDecl decl fun d => { d with isReferenced := true }
  let b ← get
  let owner := (b.decl decl).owner
  if owner == fn then return
  modifyDecl decl fun d => { d with isCaptured := true }
  captureIn use decl owner (Lineage.chain b.lineage fn)

def isWritten (place : Option Place) : Bool :=
  match place with
  | none => false
  | some p =>
    match p.parent.kind with
    | .assignment | .forInStatement | .forOfStatement | .assignmentPattern => p.role == .left
    | .update | .rest | .arrayPattern => true
    | .property => p.role == .value && p.above == some .objectPattern
    | _ => false

def constantName? : String → Option Literal
  | "undefined" => some .undefined
  | "NaN" => some .nan
  | _ => none

def referName (fn : Nat) (place : Option Place) (id : Node) : Resolve Node := do
  let b ← get
  let found := ((b.scopeOf.get? id.id).map fun sc => b.scopes.resolve sc id.name).getD {}
  match found.decl with
  | none =>
    match if isWritten place then none else constantName? id.name with
    | some l => return .mk id.id id.span (.literal l "") []
    | none =>
      setUse id .global
      return id
  | some decl =>
    setUse id (if found.throughWith then .viaWith decl else .direct decl)
    let d := b.decl decl
    -- The object of a `with` may still supply the name.
    if !found.throughWith && (d.kind.isLexical || d.kind == .param) && d.owner == fn &&
        id.start < d.stop then
      throw (id.scopeFault (.beforeInitialization id.name))
    capture fn decl id
    return id

def referWord (fn : Nat) (n : Node) (decl : Option Nat) : Resolve Unit := do
  let d := decl.getD 0
  setUse n (.direct d)
  capture fn d n

def referSuper (fn : Nat) (place : Option Place) (n : Node) : Resolve Unit := do
  let b ← get
  let owner := b.function (b.thisOwner fn)
  let isCall := place.any fun p => p.parent.kind == .call && p.role == .callee
  let isAllowed :=
    if isCall then owner.isConstructor && owner.isDerived
    else owner.isMethod || owner.isConstructor
  if !isAllowed then throw (n.scopeFault .superOutside)
  referWord fn n owner.functionValue
  capture fn (owner.this.getD 0) n
  if isCall then capture fn (owner.newTarget.getD 0) n

mutual

def refer (fn : Nat) (place : Option Place) : Node → Resolve Node
  | .mk id span label parts => do
    let n := .mk id span label parts
    match label with
    | .identifier _ =>
      if n.isUse place && ((← get).use? n).isNone then referName fn place n else return n
    | .this =>
      let b ← get
      referWord fn n (b.function (b.thisOwner fn)).this
      return n
    | .metaProperty _ =>
      let b ← get
      let owner := b.function (b.thisOwner fn)
      if owner.isProgram then throw (n.scopeFault .newTargetOutside)
      referWord fn n owner.newTarget
      return n
    | .super =>
      referSuper fn place n
      return n
    | _ => return .mk id span label (← referParts fn place n parts)

def referParts (fn : Nat) (place : Option Place) (parent : Node) :
    List Part → Resolve (List Part)
  | [] => return []
  | .node role c :: rest => do
    let c ← refer fn (some (parent.placeIn place role)) c
    return .node role c :: (← referParts fn place parent rest)
  | .hole role :: rest => return .hole role :: (← referParts fn place parent rest)

end

def referAll (fn : Nat) : Resolve Unit := do
  let f := (← get).function fn
  let params ← referParts fn none f.node (f.node.parts.filter fun p => p.role == .param)
  let body ← referParts fn (some (f.node.placeIn none .body)) f.body f.body.parts
  let name := f.node.parts.filter fun p => p.role == .name
  let node := f.node.withParts (name ++ params ++ [.node .body (f.body.withParts body)])
  modifyFunction fn fun f => { f with node }

end ScriptC.Resolve
