import ScriptC.Bindings.Basic
import ScriptC.Node.Pattern

/-!
The declarations of a function. All of them are made before any use in the function is looked at.
Variables belong to the scope of the function, wherever they are declared; other names to the scope
they are declared in.
-/

namespace ScriptC.Resolve

def bindTo (id : Node) (decl : Nat) (throughWith : Bool) : Resolve Unit :=
  setUse id (if throughWith then .viaWith decl else .direct decl)

/--
Declare a variable. It climbs to the scope of its function, past parameters of catch clauses, and
merges with what it finds there; it may not climb past a lexical name.
-/
def addVar (fn : Nat) (id : Node) (sc : Nat) (kind : BindingKind) (stop : Int) :
    Resolve Unit := do
  climb false ((← get).scopes.chain sc)
where
  climb (throughWith : Bool) : List (Nat × Scope) → Resolve Unit
    | [] => throw (id.loweringFault (.outsideFunction id.name))
    | (i, s) :: rest => do
      match s.lookup? id.name with
      | some existing =>
        let found := ((← get).decl existing).kind
        if s.isFunction && !found.isLexical then
          if kind == .function && found != .param then
            modifyDecl existing fun d => { d with kind := .function }
          bindTo id existing throughWith
        else if found == .caught then up throughWith i s rest
        else throw (id.scopeFault (.alreadyDeclared id.name))
      | none => up throughWith i s rest
  up (throughWith : Bool) (i : Nat) (s : Scope) (rest : List (Nat × Scope)) : Resolve Unit := do
    if s.isFunction then
      addDecl id { name := id.name, kind, owner := fn, span := id.span, stop, scope := i }
      modifyFunction fn fun f => { f with vars := f.vars ++ [id.id] }
      bindTo id id.id throughWith
    else
      modifyScope i (·.noteCrossing id.name)
      climb (throughWith || s.isWith) rest

def addLexical (fn : Nat) (id : Node) (sc : Nat) (kind : BindingKind) (stop : Int) :
    Resolve Unit := do
  let b ← get
  let s := b.scopes.getD sc default
  match (s.lookup? id.name).map fun d => (d, (b.decl d).kind) with
  | some (existing, found) =>
    if found == .arguments then add s
    else if kind == .function && found == .function && !(b.function fn).isStrict then
      bindTo id existing false
    else if found == .param then throw (id.scopeFault (.alreadyParameter id.name))
    else throw (id.scopeFault (.alreadyDeclared id.name))
  | none => add s
where
  add (s : Scope) : Resolve Unit := do
    if s.isCrossed id.name then throw (id.scopeFault (.alreadyDeclared id.name))
    addDecl id { name := id.name, kind, owner := fn, span := id.span, stop, scope := sc }
    modifyFunction fn fun f => { f with lexicals := f.lexicals ++ [id.id] }
    bindTo id id.id false

def meetsLexical (b : Bindings) (name : String) : List (Nat × Scope) → Bool
  | [] => false
  | (_, s) :: rest =>
    (s.lookup? name).any (fun d => (b.decl d).kind.isLexical) ||
      !s.isFunction && meetsLexical b name rest

/--
Declare a function. At the top of a function it is like a variable. In a block it belongs to the
block, and outside of strict mode a variable of the same name receives its value when the block
runs, unless that name is taken.
-/
def addFunction (fn : Nat) (site : Node) (sc : Nat) : Resolve Unit := do
  let id := (site.part? .name).getD default
  setScope id sc
  let s := (← get).scopes.getD sc default
  if s.isFunction then addVar fn id sc .function site.stop
  else
    addLexical fn id sc .function site.start
    let b ← get
    if (b.function fn).isStrict then return
    match s.parent with
    | none => throw (id.loweringFault (.outsideFunction id.name))
    | some outer =>
      if meetsLexical b id.name (b.scopes.chain outer) then return
      let outerName : Node := .mk (← freshNode) id.span (.identifier id.name) []
      addVar fn outerName outer .var site.start
      modify fun b => { b with aliases := b.aliases.insert site.id outerName }

def declareOption (declare : Node → Nat → Nat → Resolve Unit) (fn sc : Nat) :
    Option Node → Resolve Unit
  | none => return
  | some n => declare n fn sc

def addClass (declare : Node → Nat → Nat → Resolve Unit) (fn : Nat) (site : Node) (sc : Nat) :
    Resolve Unit := do
  let inner ←
    match site.kind == .classDeclaration, site.part? .name with
    | true, name =>
      let id := name.getD default
      setScope id sc
      addLexical fn id sc .className site.stop
      pure sc
    | false, some id =>
      let inner ← openScope { parent := some sc, opener := some site.id, owner := fn }
      setScope id inner
      addLexical fn id inner .className site.stop
      pure inner
    | false, none => pure sc
  setScope site inner
  declareOption declare fn inner (site.part? .heritage)
  if let some body := site.part? .body then
    setScope body inner
    for m in body.items do
      setScope m inner
      declareOption declare fn inner (m.part? .key)
      if let some value := m.part? .value then setScope value inner

def declareStep (declare : Node → Nat → Nat → Resolve Unit) (n : Node) (fn sc : Nat) :
    Resolve Unit := do
  let inner : Scope := { parent := some sc, opener := some n.id, owner := fn }
  setScope n sc
  match n.label with
  | .block =>
    let sc ← openScope inner
    setScope n sc
    for c in n.items do declare c fn sc
  | .forStatement | .forInStatement | .forOfStatement =>
    let head := n.part? (if n.kind == .forStatement then .init else .left)
    let isLexical := head.any fun h =>
      match h.label with
      | .variableDeclaration binds => binds != .var
      | _ => false
    let sc ← if isLexical then openScope inner else pure sc
    if isLexical then setScope n sc
    for (_, c) in n.children do declare c fn sc
  | .switchStatement =>
    declareOption declare fn sc (n.part? .discriminant)
    let sc ← openScope inner
    setScope n sc
    for c in n.items do declare c fn sc
  | .catchClause =>
    let sc ← openScope inner
    setScope n sc
    if let some param := n.part? .caught then
      declare param fn sc
      let kind := if param.kind == .identifier then .caught else .let
      for id in param.bound do addLexical fn id sc kind param.stop
    -- The body shares the scope of the parameter, so it cannot declare the parameter again.
    if let some body := n.part? .body then
      setScope body sc
      for c in body.items do declare c fn sc
  | .withStatement =>
    declareOption declare fn sc (n.part? .object)
    let sc ← openScope { inner with isWith := true }
    declareOption declare fn sc (n.part? .body)
  | .variableDeclaration binds =>
    for d in n.items do
      setScope d sc
      declareOption declare fn sc (d.part? .name)
      for id in ((d.part? .name).map (·.bound)).getD [] do
        if binds == .var then addVar fn id sc .var d.stop
        else addLexical fn id sc binds d.stop
      declareOption declare fn sc (d.part? .init)
  | .functionDeclaration _ => addFunction fn n sc
  | .classDeclaration | .classExpression => addClass declare fn n sc
  | _ => for (_, c) in n.children do declare c fn sc

def declare (n : Node) (fn sc : Nat) : Resolve Unit :=
  Node.fix declareStep (fun _ _ _ => pure ()) n fn sc

def addParam (fn : Nat) (sc : Nat) (strict : Bool) (stop : Int) :
    List Node → List String → Resolve (List String)
  | [], seen => return seen
  | id :: rest, seen => do
    if strict && seen.contains id.name then
      throw (id.scopeFault (.duplicateParameter id.name))
    addDecl id { name := id.name, kind := .param, owner := fn, span := id.span, stop, scope := sc }
    bindTo id id.id false
    addParam fn sc strict stop rest (id.name :: seen)

def declareParams (fn : Nat) (sc : Nat) (strict : Bool) : List Node → List String → Resolve Unit
  | [], _ => return
  | p :: rest, seen => do
    declare p fn sc
    let seen ← addParam fn sc strict p.stop p.bound seen
    declareParams fn sc strict rest seen

def declareSynthetic (fn : Nat) (sc : Nat) (at_ : Int) (name : String) (kind : BindingKind) :
    Resolve Nat := do
  let id ← freshNode
  modify fun b => { b with
    decls := b.decls.insert id
      { name, kind, owner := fn, span := ⟨at_, at_⟩, scope := sc } }
  return id

def declareAll (fn : Nat) : Resolve Unit := do
  let b ← get
  let f := b.function fn
  let outer := f.site.bind fun s => b.scopeOf.get? s.id
  if f.isStrict then
    if let some site := f.site then
      let around := (outer.map b.scopes.chain).getD []
      if (around.takeWhile fun p => some p.2.owner == f.parent).any fun p => p.2.isWith then
        throw (site.scopeFault .strictInWith)
  let outer ←
    match f.node.part? .name with
    | none => pure outer
    | some id =>
      -- A function expression sees its own name in a scope around its own.
      let self ← openScope { parent := outer, opener := some f.node.id, owner := fn }
      addDecl id { name := id.name, kind := .self, owner := fn, span := id.span, scope := self }
      bindTo id id.id false
      modifyFunction fn fun f => { f with self := some id.id }
      pure (some self)
  let sc ← openScope
    { parent := outer, opener := some f.node.id, owner := fn, isFunction := true }
  modifyFunction fn fun f => { f with scope := sc }
  if !f.isArrow then
    let this ← declareSynthetic fn sc f.node.start "this" .this
    let newTarget ← declareSynthetic fn sc f.node.start "new.target" .newTarget
    let functionValue ← declareSynthetic fn sc f.node.start "%func" .functionValue
    modifyFunction fn fun f => { f with
      this := some this, newTarget := some newTarget, functionValue := some functionValue }
    if !f.isProgram then
      let arguments ← declareSynthetic fn sc f.node.start "arguments" .arguments
      modifyFunction fn fun f => { f with arguments := some arguments }
      modifyScope sc fun s => s.declare "arguments" arguments
  let isSimple := f.params.all fun p => p.kind == .identifier
  declareParams fn sc (f.isStrict || f.isArrow || f.isMethod || !isSimple) f.params []
  setScope f.body sc
  for statement in f.body.items do declare statement fn sc

end ScriptC.Resolve
