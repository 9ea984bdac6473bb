import ScriptC.Node.Basic

/-!
Recursion over a tree by one step: what to do at a node, given what is done at the nodes below it.
The height of the tree bounds the number of steps.
-/

namespace ScriptC.Node

mutual

def height : Node → Nat
  | .mk _ _ _ parts => heightParts parts + 1

def heightParts : List Part → Nat
  | [] => 0
  | .node _ n :: rest => max n.height (heightParts rest)
  | .hole _ :: rest => heightParts rest

end

def unroll {β : Type} (step : (Node → β) → Node → β) (bottom : Node → β) : Nat → Node → β
  | 0 => bottom
  | depth + 1 => step (unroll step bottom depth)

def fix {β : Type} (step : (Node → β) → Node → β) (bottom : Node → β) (n : Node) : β :=
  unroll step bottom n.height n

end ScriptC.Node
