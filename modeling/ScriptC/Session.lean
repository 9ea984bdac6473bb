import ScriptC.Program
import ScriptC.Script

/-!
Compiling with a diagnostic stream, on which the tree and the passes can be shown.
-/

namespace ScriptC

structure Session where
  log : String
  result : Except Failure Compiled

namespace Session

def logText (settings : Settings) (tree : Node) (trace : List String) : String :=
  (if settings.dumpTree then tree.outline (fun _ => {}) 0 else "") ++
    if settings.debug then String.join (trace.map fun l => "[delphinium] " ++ l ++ "\n") else ""

def ofTree (source : Source) (settings : Settings) (tree : Node) (nodes : Nat) : Session :=
  let outcome := compileTree source settings tree nodes
  { log := logText settings tree outcome.trace
    result :=
      match outcome.result with
      | .ok c => .ok c
      | .error f => .error (.diagnostic (f.diagnostic source)) }

def ofSource (source : Source) (settings : Settings) : Session :=
  match source.tree with
  | .ok (tree, nodes) => ofTree source settings tree nodes
  | .error f => { log := "", result := .error f }

end Session
end ScriptC
