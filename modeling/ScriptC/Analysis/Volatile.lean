import ScriptC.Analysis.Basic

/-!
Variables that must be volatile. An exception arrives in a handler by a jump, after which a variable
that was assigned inside the protected block could show an old value. It is enough to look at those
that are also used outside the block.
-/

namespace ScriptC.Analyze

def isCandidate (b : Bindings) (fn : Nat) (block : Node) (d : Nat) : Bool :=
  let decl := b.decl d
  decl.owner == fn && !decl.isCaptured && !decl.isVolatile && !decl.span.within block.span

def targets (n : Node) : List Node :=
  match n.label with
  | .assignment _ | .forInStatement | .forOfStatement =>
    match n.part? .left with
    | some left =>
      match left.label with
      | .variableDeclaration _ => left.items.flatMap fun d => (d.part? .name).toList
      | _ => [left]
    | none => []
  | .update .. => (n.part? .argument).toList
  | .declarator => if (n.part? .init).isSome then (n.part? .name).toList else []
  | _ => []

def assignedInside (b : Bindings) (fn : Nat) (block : Node) : List Nat :=
  block.preorder.flatMap fun n =>
    let names := (targets n).flatMap fun t => t.bound.filterMap b.resolved?
    let this :=
      match n.label with
      | .call _ =>
        if (n.part? .callee).any fun c => c.kind == .super then
          (b.function (b.thisOwner fn)).this.toList.filter fun d =>
            (b.decl d).owner == fn && !(b.decl d).isCaptured
        else []
      | _ => []
    names.filter (isCandidate b fn block) ++ this

def referenced? (b : Bindings) (n : Node) : Option Nat :=
  match n.label with
  | .identifier _ | .this => b.resolved? n
  | _ => none

def markVolatile (d : Nat) : Analyze Unit := do
  let b := (← get).bindings
  if (b.decl d).isVolatile then return
  modify fun a => { a with
    bindings := { a.bindings with
      decls := a.bindings.decls.modify d fun d => { d with isVolatile := true } } }
  modifyStats fun s => { s with volatiles := s.volatiles + 1 }

def markAround (fn : Nat) (block : Node) : Analyze Unit := do
  let f ← function fn
  let b := (← get).bindings
  let candidates := assignedInside b fn block
  if candidates.isEmpty then return
  let outside := f.node.parts.flatMap fun p =>
    match p with
    | .node .param n | .node .body n => n.walkWhere (fun n => !n.span.within block.span) none
    | _ => []
  for (_, n) in outside do
    if !n.span.within block.span then
      if let some d := referenced? b n then
        if candidates.contains d then markVolatile d

def findVolatiles (fn : Nat) : Analyze Unit := do
  let f ← function fn
  let tries := f.body.preorder.filter fun n => n.kind == .tryStatement
  if tries.isEmpty then return
  modifyFunction fn fun f => { f with hasTry := true }
  for t in tries do
    (t.part? .block).forM (markAround fn)

end ScriptC.Analyze
