import ScriptC.Analysis.Basic

/-!
Cache slots. Member accesses of a function that read the same property of the same object share a
slot. What an access reads is described by a key; the key of a variable counts the assignments to it
so far, in the order in which the function runs, so a new value starts a new key.
-/

namespace ScriptC.Analyze

structure CacheState where
  bindings : Bindings
  fn : Nat
  generations : Std.TreeMap Nat Nat := {}
  keys : List String := []
  slots : Std.TreeMap Nat Nat
  stats : Stats

abbrev Cache := StateT CacheState (Except Fault)

namespace Cache

def advance (decl : Nat) : Cache Unit :=
  modify fun s => { s with
    generations := s.generations.insert decl (s.generations.getD decl 0 + 1) }

def keyStep (s : CacheState) (key : Node → Option String) (n : Node) : Option String :=
  match n.label with
  | .identifier _ =>
    match s.bindings.use? n with
    | some (.direct d) =>
      some s!"{(s.bindings.decl d).name}#{d}#{s.generations.getD d 0}"
    | _ => none
  | .this => some s!"this#{((s.bindings.resolved? n).bind s.generations.get?).getD 0}"
  | .literal (.string value) _ => some ("lit:" ++ Text.quote value)
  | .call _ | .new => some s!"call@{n.id}"
  | .member .. => do
    let name ← n.memberName?
    let base ← (n.part? .object).bind key
    return base ++ "." ++ name
  | _ => none

def key? (s : CacheState) (n : Node) : Option String :=
  Node.fix (keyStep s) (fun _ => none) n

def withStep (b : Bindings) (affected : Node → Bool) (n : Node) : Bool :=
  match n.label with
  | .identifier _ =>
    match b.use? n with
    | some (.viaWith _) => true
    | some .global => b.isInWith n
    | _ => false
  | .member .. => (n.part? .object).any affected
  | _ => false

def isWithAffected (b : Bindings) (n : Node) : Bool :=
  Node.fix (withStep b) (fun _ => false) n

def slotOf (n : Node) (key : String) : Cache Nat := do
  let s ← get
  match s.keys.findIdx? (· == key) with
  | some slot => return slot
  | none =>
    let slot := s.keys.length
    if slot ≥ Engine.maxShapeCacheSlots then throw (n.limitFault .cacheSlots)
    set { s with
      keys := s.keys ++ [key]
      stats := { s.stats with cacheSlots := s.stats.cacheSlots + 1 } }
    return slot

def memberAccess (n : Node) : Cache Unit := do
  let object := (n.part? .object).getD default
  if object.kind == .super then return
  let s ← get
  let count (change : Stats → Stats) : Cache Unit :=
    modify fun s => { s with stats := change s.stats }
  count fun t => { t with memberSites := t.memberSites + 1 }
  if isWithAffected s.bindings object then
    count fun t => { t with withSites := t.withSites + 1 }
  else
    match key? s n with
    | none => count fun t => { t with uncacheableSites := t.uncacheableSites + 1 }
    | some key =>
      count fun t => { t with cacheableSites := t.cacheableSites + 1 }
      let slot ← slotOf n key
      modify fun s => { s with slots := s.slots.insert n.id slot }

def assigned (target : Node) : List Node :=
  match target.label with
  | .variableDeclaration _ =>
    target.items.flatMap fun d => ((d.part? .name).map (·.bound)).getD []
  | _ => target.bound

def noteAssigned (target : Option Node) : Cache Unit := do
  for id in (target.map assigned).getD [] do
    if let some d := (← get).bindings.resolved? id then advance d

inductive Mode where
  | value
  | target
  deriving DecidableEq

def targetStep (visit : Node → Mode → Cache Unit) (n : Node) (value : Cache Unit) :
    Cache Unit := do
  let go (mode : Mode) (n : Option Node) : Cache Unit := n.forM fun n => visit n mode
  match n.label with
  | .identifier _ => return
  | .assignmentPattern =>
    go .target (n.part? .left)
    go .value (n.part? .right)
  | .rest => go .target (n.part? .argument)
  | .arrayPattern => for c in n.items do visit c .target
  | .objectPattern =>
    for p in n.items do
      if p.kind == .rest then visit p .target
      else
        if p.computed then go .value (p.part? .key)
        go .target (p.part? .value)
  | .variableDeclaration _ => for d in n.items do go .target (d.part? .name)
  | _ => value

def valueStep (visit : Node → Mode → Cache Unit) (n : Node) : Cache Unit := do
  let go (mode : Mode) (n : Option Node) : Cache Unit := n.forM fun n => visit n mode
  match n.label with
  | .assignment _ =>
    go .target (n.part? .left)
    go .value (n.part? .right)
    noteAssigned (n.part? .left)
  | .update .. =>
    go .target (n.part? .argument)
    noteAssigned (n.part? .argument)
  | .declarator =>
    go .target (n.part? .name)
    go .value (n.part? .init)
    if (n.part? .init).isSome then noteAssigned (n.part? .name)
  | .forInStatement | .forOfStatement =>
    go .value (n.part? .right)
    go .target (n.part? .left)
    noteAssigned (n.part? .left)
    go .value (n.part? .body)
  | .member computed _ =>
    go .value (n.part? .object)
    if computed then go .value (n.part? .property)
    memberAccess n
  | .call _ =>
    go .value (n.part? .callee)
    for c in n.items do visit c .value
    -- A call of the parent constructor initializes `this`.
    if (n.part? .callee).any fun c => c.kind == .super then
      let s ← get
      (s.bindings.function (s.bindings.thisOwner s.fn)).this.forM advance
  | _ => for (_, c) in n.children do visit c .value

def step (visit : Node → Mode → Cache Unit) (n : Node) (mode : Mode) : Cache Unit :=
  match mode with
  | .value => valueStep visit n
  | .target => targetStep visit n (valueStep visit n)

def visit (n : Node) (mode : Mode) : Cache Unit :=
  Node.fix step (fun _ _ => pure ()) n mode

def all (f : Function) : Cache Unit := do
  for p in f.params do visit p .target
  visit f.body .value

end Cache

def assignSlots (fn : Nat) : Analyze Unit := do
  let a ← get
  let ((), s) ← (Cache.all (a.bindings.function fn)).run
    { bindings := a.bindings, fn, slots := a.slots, stats := a.stats }
  modify fun a => { a with slots := s.slots, stats := s.stats }
  modifyFunction fn fun f => { f with cacheKeys := s.keys }

end ScriptC.Analyze
