import ScriptC.Bindings.Resolve
import ScriptC.Literals
import ScriptC.PropertyName

/-!
What is found out about the functions of a script before any code is written for them.
-/

namespace ScriptC

structure Stats where
  functions : Nat := 0
  memberSites : Nat := 0
  cacheableSites : Nat := 0
  cacheSlots : Nat := 0
  uncacheableSites : Nat := 0
  globalSites : Nat := 0
  withSites : Nat := 0
  shapes : Nat := 0
  wellKnownShapes : Nat := 0
  constructorShapes : Nat := 0
  literals : Nat := 0
  volatiles : Nat := 0
  temporaries : Nat := 0
  deriving DecidableEq, Repr, Inhabited

namespace Stats

def sharingSites (s : Stats) : Int := s.cacheableSites - s.cacheSlots

def report (s : Stats) : String :=
  let sites :=
    if s.memberSites == 0 then "Cache Stats: no member accesses\n"
    else
      let rate := Double.ofFloat
        (Float.ofNat s.cacheableSites / Float.ofNat s.memberSites * 100.0)
      s!"Cache Stats: Sites: {s.memberSites}, Cached: {s.cacheableSites} ({rate.tenths}%), " ++
        s!"Slots: {s.cacheSlots}, Shared: {s.sharingSites}\n" ++
        s!"  Uncacheable: {s.uncacheableSites}, Global: {s.globalSites}, With: {s.withSites}\n"
  sites ++
    s!"  Functions: {s.functions}, Shapes: {s.shapes} (well-known uses: {s.wellKnownShapes}, " ++
    s!"constructors: {s.constructorShapes}), Literals: {s.literals}\n" ++
    s!"  Volatile locals: {s.volatiles}, Temporaries: {s.temporaries}\n"

end Stats

structure Analysis where
  bindings : Bindings
  literals : Literals := {}
  stats : Stats := {}
  slots : Std.TreeMap Nat Nat := {}
  shapes : Std.TreeMap Nat Shape := {}
  deriving Inhabited

abbrev Analyze := StateT Analysis (Except Fault)

namespace Analyze

def modifyStats (change : Stats → Stats) : Analyze Unit :=
  modify fun a => { a with stats := change a.stats }

def modifyFunction (fn : Nat) (change : Function → Function) : Analyze Unit :=
  modify fun a => { a with
    bindings := { a.bindings with functions := a.bindings.functions.modify fn change } }

def function (fn : Nat) : Analyze Function := return (← get).bindings.function fn

def string (value : String) (isKey : Bool) : Analyze String := do
  let (name, literals) := (← get).literals.string value isKey
  modify fun a => { a with literals }
  return name

def bigint (digits : String) : Analyze String := do
  let (name, literals) := (← get).literals.bigint digits
  modify fun a => { a with literals }
  return name

def shape (props : List String) : Analyze Shape := do
  let (s, literals) := (← get).literals.shape props
  modify fun a => { a with literals }
  return s

end Analyze

namespace Function

def walkParams (f : Function) : List (Option Place × Node) :=
  f.params.flatMap (Node.walk (some (f.node.placeIn none .param)))

def walkBody (f : Function) : List (Option Place × Node) :=
  f.body.walk (some (f.node.placeIn none .body))

end Function
end ScriptC
