import Std.Data.TreeMap
import ScriptC.C.Ident
import ScriptC.Fault
import ScriptC.Function
import ScriptC.Node.Fix
import ScriptC.Node.Walk

/-!
Taking the functions of a script apart. Every function and class is moved out of the tree around it
and leaves a site behind; the script itself becomes a function too. A declaration leaves its name at
the site, where it binds in the scope around it; the name of an expression moves along and binds
inside the function.
-/

namespace ScriptC

structure Counters where
  node : Nat
  name : Nat
  deriving Repr, Inhabited

structure Extraction where
  counters : Counters
  functions : Array Function := #[]
  sites : Std.TreeMap Nat Nat := {}
  finished : List Nat := []
  deriving Inhabited

namespace Extraction

def isFunctionNode (e : Extraction) (id : Nat) : Bool :=
  e.functions.any fun f => f.node.id == id

def isSite (e : Extraction) (id : Nat) : Bool :=
  !e.isFunctionNode id && e.sites.contains id

end Extraction

abbrev Extract := StateT Extraction (Except Fault)

namespace Extract

def freshNode : Extract Nat := do
  let s ← get
  set { s with counters := { s.counters with node := s.counters.node + 1 } }
  return s.counters.node

def freshName : Extract Nat := do
  let s ← get
  set { s with counters := { s.counters with name := s.counters.name + 1 } }
  return s.counters.name + 1

structure Circumstances where
  name : String := ""
  isMethod : Bool := false
  isStrict : Bool := false
  isConstructor : Bool := false
  isDerived : Bool := false

def keyText (n : Node) : String :=
  if n.computed then "" else (n.part? .key).elim "" (·.carriedText)

def targetName (target : Node) : String :=
  match target.label with
  | .identifier name => name
  | .member false _ => (target.part? .property).elim "" (·.name)
  | _ => ""

def nameFor (place : Option Place) (n : Node) : String :=
  match n.part? .name, place with
  | some id, _ => id.name
  | none, none => ""
  | none, some p =>
    match p.parent.label, p.role with
    | .declarator, .init =>
      match p.parent.part? .name with
      | some (.mk _ _ (.identifier name) _) => name
      | _ => ""
    | .assignment _, .right | .assignmentPattern, .right =>
      (p.parent.part? .left).elim "" targetName
    | .property _, _ | .methodDefinition _, _ => keyText p.parent
    | _, _ => ""

def hoisted (parts : List Part) : List Part :=
  let isFunction : Part → Bool
    | .node .item n => n.kind == .functionDeclaration
    | _ => false
  let isItem : Part → Bool := fun p => p.role == .item
  parts.filter (fun p => !isItem p) ++ parts.filter isFunction ++
    parts.filter fun p => isItem p && !isFunction p

def isUseStrict (statement : Node) : Bool :=
  match statement.part? .expression with
  | some (.mk _ _ (.literal (.string _) raw) _) => raw == "'use strict'" || raw == "\"use strict\""
  | _ => false

def isDirective (statement : Node) : Bool :=
  statement.kind == .expressionStatement && ((statement.part? .expression).bind (·.string?)).isSome

def stripDirective : List Part → List Part × Bool
  | [] => ([], false)
  | .node role n :: rest =>
    if !isDirective n then (.node role n :: rest, false)
    else if isUseStrict n then (rest, true)
    else
      let (rest, found) := stripDirective rest
      (.node role n :: rest, found)
  | .hole role :: rest => (.hole role :: rest, false)

abbrev Visit := Nat → Option Place → Node → Extract Node

def visitParts (visit : Visit) (fn : Nat) (place : Option Place) (parent : Node) :
    List Part → Extract (List Part)
  | [] => return []
  | .node role c :: rest => do
    let c ← visit fn (some (parent.placeIn place role)) c
    return .node role c :: (← visitParts visit fn place parent rest)
  | .hole role :: rest => return .hole role :: (← visitParts visit fn place parent rest)

def visitOption (visit : Visit) (fn : Nat) (place : Option Place) :
    Option Node → Extract (Option Node)
  | none => return none
  | some n => some <$> visit fn place n

def partsAt (n : Node) (role : Role) : List Part :=
  n.parts.filter fun p => p.role == role

def visitValueBody (visit : Visit) (fn : Nat) (body : Node) (ret block : Nat) : Extract Node := do
  let statement : Node := .mk ret body.span .returnStatement [.node .argument body]
  let value ← visit fn (some ⟨statement, .argument, some .block⟩) body
  return .mk block body.span .block [.node .item (statement.withParts [.node .argument value])]

def blockLabel : Label → Label
  | .arrowFunction m => .arrowFunction { m with exprBody := false }
  | .functionExpression m => .functionExpression { m with exprBody := false }
  | l => l

def visitFunction (visit : Visit) (index : Nat) (node : Node) : Extract Node := do
  let some body := node.part? .body
    | throw (node.loweringFault .malformedBody)
  let params := partsAt node .param
  let checkParams : Extract Unit :=
    if params.length > Engine.maxParams then throw (node.limitFault (.params params.length))
    else pure ()
  let (params, body) ←
    if node.functionMarks.exprBody then
      let ret ← freshNode
      let block ← freshNode
      checkParams
      let params ← visitParts visit index none node params
      pure (params, ← visitValueBody visit index body ret block)
    else if body.kind == .block then
      let (statements, directive) := stripDirective body.parts
      modify fun s => { s with
        functions := s.functions.modify index fun f =>
          { f with isStrict := f.isStrict || directive } }
      checkParams
      let params ← visitParts visit index none node params
      pure (params,
        ← visit index (some (node.placeIn none .body)) (body.withParts statements))
    else throw (node.loweringFault .malformedBody)
  return .mk node.id node.span (blockLabel node.label)
    (partsAt node .name ++ params ++ [.node .body body])

def enter (visit : Visit) (parent : Option Nat) (site : Option Node) (isProgram : Bool)
    (node : Node) (c : Circumstances) : Extract Unit := do
  let unique ← freshName
  let functions := (← get).functions
  let index := functions.size
  let outerStrict := parent.any fun p => functions[p]?.any (·.isStrict)
  let record : Function := {
    node, site, name := c.name, parent, isProgram
    cname := s!"func_{C.identText c.name}_{unique}"
    isArrow := node.kind == .arrowFunction
    isAsync := node.functionMarks.isAsync
    isGenerator := node.functionMarks.isGenerator
    isMethod := c.isMethod
    isConstructor := c.isConstructor
    isDerived := c.isDerived
    isStrict := c.isStrict || outerStrict }
  modify fun s => { s with
    functions :=
      let functions := s.functions.push record
      match parent with
      | some p => functions.modify p fun f => { f with children := f.children ++ [index] }
      | none => functions }
  let node ← visitFunction visit index node
  modify fun s => { s with
    functions := s.functions.modify index fun f => { f with node }
    finished := s.finished ++ [index] }

def extract (visit : Visit) (fn : Nat) (n : Node) (c : Circumstances) : Extract Node := do
  let id ← freshNode
  let isDeclaration := n.kind == .functionDeclaration
  let label :=
    match n.label with
    | .functionDeclaration m => .functionExpression m
    | l => l
  let inner := partsAt n .param ++ partsAt n .body
  let node := .mk id n.span label (if isDeclaration then inner else partsAt n .name ++ inner)
  let site := n.withParts (if isDeclaration then partsAt n .name else [])
  modify fun s => { s with sites := s.sites.insert n.id s.functions.size }
  enter visit (some fn) (some site) false node c
  return site

def defaultConstructor (cls : Node) : Extract Node := do
  let fn ← freshNode
  let body ← freshNode
  let short : Span := ⟨cls.start, cls.start⟩
  let build (params statements : List Part) : Node :=
    .mk fn cls.span (.functionExpression {})
      (params ++ [.node .body (.mk body cls.span .block statements)])
  if (cls.part? .heritage).isNone then return build [] []
  let param ← freshNode
  let rest ← freshNode
  let arg ← freshNode
  let spread ← freshNode
  let call ← freshNode
  let super ← freshNode
  let statement ← freshNode
  let args (id : Nat) : Node := .mk id short (.identifier "args") []
  let callNode : Node := .mk call cls.span (.call false)
    [.node .callee (.mk super short .super []),
      .node .item (.mk spread short .spread [.node .argument (args arg)])]
  return build [.node .param (.mk rest short .rest [.node .argument (args param)])]
    [.node .item (.mk statement cls.span .expressionStatement [.node .expression callNode])]

def takeConstructor (visit : Visit) (fn : Nat) (site ctor : Node) (c : Circumstances) :
    Extract Unit := do
  let id ← freshNode
  let node := .mk id ctor.span (.functionExpression ctor.functionMarks)
    (partsAt ctor .param ++ partsAt ctor .body)
  modify fun s => { s with sites := s.sites.insert site.id s.functions.size }
  enter visit (some fn) (some site) false node c

def splitMembers : List Node → Option Node → List Node → Extract (List Node × Option Node)
  | [], ctor, members => return (members.reverse, ctor)
  | m :: rest, ctor, members =>
    if m.kind == .propertyDefinition then throw (m.loweringFault .classField)
    else if m.memberMarks.kind == .constructor then
      if ctor.isSome then throw (m.scopeFault .twoConstructors)
      else splitMembers rest (some m) members
    else splitMembers rest ctor (m :: members)

def extractMembers (visit : Visit) (fn : Nat) (place : Option Place) (body : Node) :
    List Node → Extract (List Part)
  | [] => return []
  | m :: rest => do
    let memberPlace := some (body.placeIn place .item)
    let key ← visitOption visit fn (some (m.placeIn memberPlace .key)) (m.part? .key)
    let some value := (m.part? .value).filter (·.kind.isFunction)
      | throw (m.loweringFault .malformedMember)
    let value ← extract visit fn value { name := keyText m, isMethod := true, isStrict := true }
    let keyPart := (key.map (Part.node .key)).toList
    return .node .item (m.withParts (keyPart ++ [.node .value value])) ::
      (← extractMembers visit fn place body rest)

/--
Take a class apart. Its constructor becomes the function of the site; the other members are
functions of their own. The site keeps the name, the heritage and the list of members.
-/
def extractClass (visit : Visit) (fn : Nat) (place : Option Place) (cls : Node) :
    Extract Node := do
  let heritage ← visitOption visit fn (some (cls.placeIn place .heritage)) (cls.part? .heritage)
  let name := nameFor place cls
  let body := (cls.part? .body).getD default
  let (members, ctor) ← splitMembers body.items none []
  let function ←
    match ctor with
    | some m => pure ((m.part? .value).getD default)
    | none => defaultConstructor cls
  let heritagePart := (heritage.map (Part.node .heritage)).toList
  let siteWith (items : List Part) : Node :=
    cls.withParts (partsAt cls .name ++ heritagePart ++ [.node .body (body.withParts items)])
  takeConstructor visit fn (siteWith (members.map (Part.node .item))) function
    { name, isStrict := true, isConstructor := true, isDerived := heritage.isSome }
  let items ← extractMembers visit fn (some (cls.placeIn place .body)) body members
  return siteWith items

def step (visit : Node → Nat → Option Place → Extract Node) (n : Node) (fn : Nat)
    (place : Option Place) : Extract Node := do
  let visit : Visit := fun fn place n => visit n fn place
  if n.kind.isFunction then extract visit fn n { name := nameFor place n }
  else if n.kind.isClass then extractClass visit fn place n
  else
    match n.label with
    | .block | .switchCase => return n.withParts (← visitParts visit fn place n (hoisted n.parts))
    | .property m =>
      match n.part? .value with
      | some value =>
        if (m.method || m.kind == .get || m.kind == .set) && value.kind.isFunction then
          let key ← visitOption visit fn (some (n.placeIn place .key)) (n.part? .key)
          let value ← extract visit fn value { name := keyText n, isMethod := true }
          return n.withParts ((key.map (Part.node .key)).toList ++ [.node .value value])
        else return n.withParts (← visitParts visit fn place n n.parts)
      | none => return n.withParts (← visitParts visit fn place n n.parts)
    | _ => return n.withParts (← visitParts visit fn place n n.parts)

def constructorHeight : Nat := 6

def visit (n : Node) (fn : Nat) (place : Option Place) : Extract Node :=
  Node.unroll step (fun n _ _ => pure n) (n.height + constructorHeight) n fn place

def program (n : Node) : Extract Unit := do
  let body ← freshNode
  let top ← freshNode
  let node := .mk top n.span (.functionExpression {})
    [.node .body (.mk body n.span .block (partsAt n .item))]
  enter (fun fn place n => visit n fn place) none none true node {}

end Extract

def Extraction.of (program : Node) (counters : Counters) : Except Fault Extraction :=
  (·.2) <$> (Extract.program program).run { counters }

end ScriptC
