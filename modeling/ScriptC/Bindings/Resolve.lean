import ScriptC.Bindings.Declare
import ScriptC.Bindings.Refer

/-!
Finding out what all names of a script mean. Functions come after the ones around them, so the
scopes of a site are complete when its function is looked at.
-/

namespace ScriptC

namespace Resolve

def functions : List Nat → Resolve Unit
  | [] => return
  | fn :: rest => do
    declareAll fn
    referAll fn
    functions rest

end Resolve

def Bindings.of (e : Extraction) : Except Fault Bindings :=
  (·.2) <$> (Resolve.functions (List.range e.functions.size)).run
    { counters := e.counters, functions := e.functions, sites := e.sites }

end ScriptC
