import ScriptC.Analysis.Cache
import ScriptC.Analysis.CallDepth
import ScriptC.Analysis.Globals
import ScriptC.Analysis.Shapes
import ScriptC.Analysis.Strings
import ScriptC.Analysis.Volatile

/-!
All analyses of a script, function by function. Cache slots are given before names become members of
the global object, which never have one.
-/

namespace ScriptC

namespace Analyze

def markCoroutine (fn : Nat) : Analyze Unit :=
  modifyFunction fn fun f =>
    let kind := Engine.coroutineKind f.isAsync f.isGenerator
    if kind == 0 then f
    else { f with coroutineKind := kind, injectYield := true, notConstructor := true }

def functions : List Nat → Analyze Unit
  | [] => return
  | fn :: rest => do
    assignSlots fn
    collectStrings fn
    findShapes fn
    globalizeNames fn
    findVolatiles fn
    measureCalls fn
    markCoroutine fn
    modifyStats fun s => { s with functions := s.functions + 1 }
    functions rest

end Analyze

def Analysis.of (b : Bindings) : Except Fault Analysis :=
  (·.2) <$> (Analyze.functions (List.range b.functions.size)).run { bindings := b }

end ScriptC
