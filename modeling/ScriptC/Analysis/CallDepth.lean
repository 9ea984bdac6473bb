import ScriptC.Analysis.Basic

/-!
How far the calls of a function reach on the value stack. A call whose area starts at slot `b` uses
that slot for the frame of the callee and the next ones for its arguments; a call inside argument
`i` starts above the arguments stored before it, at `b + 1 + i`.
-/

namespace ScriptC.Analyze

def deepestFrom (reach : Node → Nat → Nat) (base : Nat) : List (Option Node) → Nat
  | [] => 0
  | none :: rest => deepestFrom reach (base + 1) rest
  | some n :: rest => max (reach n base) (deepestFrom reach (base + 1) rest)

def deepestAt (reach : Node → Nat → Nat) (base : Nat) : List Node → Nat
  | [] => 0
  | n :: rest => max (reach n base) (deepestAt reach base rest)

def reachStep (reach : Node → Nat → Nat) (n : Node) (base : Nat) : Nat :=
  match n.label with
  | .call _ | .new =>
    let callee := deepestAt reach base (n.part? .callee).toList
    -- Arguments with a spread are collected in an array.
    if n.containsSpread then max callee (deepestAt reach base n.items)
    else
      let args := n.slots .item
      max (max callee (base + 1 + args.length)) (deepestFrom reach (base + 1) args)
  | .taggedTemplate =>
    let callee := deepestAt reach base (n.part? .callee).toList
    let args := ((n.part? .argument).map (·.slots .item)).getD []
    max (max callee (base + 2 + args.length)) (deepestFrom reach (base + 2) args)
  | _ => deepestAt reach base (n.children.map (·.2))

def callReach (n : Node) (base : Nat) : Nat :=
  Node.fix reachStep (fun _ _ => 0) n base

def measureCalls (fn : Nat) : Analyze Unit :=
  modifyFunction fn fun f => { f with stackDepth := deepestAt callReach 0 (f.params ++ [f.body]) }

end ScriptC.Analyze
