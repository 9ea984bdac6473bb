import ScriptC.Analysis.Basic

/-!
Names that nothing binds. Where no `with` can supply them they are properties of the global object,
and are written as such from here on.
-/

namespace ScriptC.Analyze

def globalMember (n : Node) : Analyze Node := do
  let id := (← get).bindings.counters.node
  modify fun a => { a with
    bindings := { a.bindings with counters := { a.bindings.counters with node := id + 2 } } }
  let _ ← string n.name true
  return .mk n.id n.span (.member false false)
    [.node .object (.mk id ⟨n.start, n.start⟩ .globalObject []),
      .node .property (.mk (id + 1) n.span (.identifier n.name) [])]

def globalize (n : Node) : Analyze (Option Node) := do
  let b := (← get).bindings
  if n.kind == .identifier && b.use? n == some .global then
    modifyStats fun s => { s with globalSites := s.globalSites + 1 }
    if b.isInWith n then return none
    some <$> globalMember n
  else return none

def globalizeNames (fn : Nat) : Analyze Unit := do
  let f ← function fn
  let parts (role : Role) : List Part := f.node.parts.filter fun p => p.role == role
  let params ← Node.replacePartsM globalize (parts .param)
  let body ← Node.replacePartsM globalize (parts .body)
  modifyFunction fn fun f => { f with node := f.node.withParts (parts .name ++ params ++ body) }

end ScriptC.Analyze
