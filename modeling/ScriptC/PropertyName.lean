import ScriptC.Node.Basic

/-!
The names of properties: which of them are array indices, and which are known before the script
runs.
-/

namespace ScriptC

def indexLimit : Nat := 0xFFFFFFFF

def arrayIndex? (name : String) : Option Nat :=
  let cs := name.toList
  if cs.isEmpty || cs.length > 10 || (cs.length > 1 && cs.head? == some '0') ||
      !cs.all Char.isDigit then none
  else
    let v := cs.foldl (fun n c => 10 * n + (c.toNat - '0'.toNat)) 0
    if v < indexLimit then some v else none

namespace Node

def staticName? (n : Node) : Option String :=
  match n.part? .property with
  | none => none
  | some p => if n.computed then p.string? else some p.name

def memberName? (n : Node) : Option String :=
  n.staticName?.filter fun name => (arrayIndex? name).isNone

def containsSpread (n : Node) : Bool :=
  n.items.any fun c => c.kind == .spread

def isGlobalProperty (n : Node) : Bool :=
  n.kind == .member && (n.part? .object).any fun o => o.kind == .globalObject

end Node
end ScriptC
