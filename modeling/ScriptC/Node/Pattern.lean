import ScriptC.Node.Basic

/-!
The names that a pattern binds.
-/

namespace ScriptC.Node

mutual

def bound : Node → List Node
  | .mk id span (.identifier name) parts => [.mk id span (.identifier name) parts]
  | .mk _ _ .assignmentPattern parts => boundAt .left parts
  | .mk _ _ .rest parts => boundAt .argument parts
  | .mk _ _ .arrayPattern parts => boundElements parts
  | .mk _ _ .objectPattern parts => boundProperties parts
  | _ => []

def boundAt (role : Role) : List Part → List Node
  | [] => []
  | .node r n :: rest => if r == role then n.bound else boundAt role rest
  | .hole _ :: rest => boundAt role rest

def boundElements : List Part → List Node
  | [] => []
  | .node _ n :: rest => n.bound ++ boundElements rest
  | .hole _ :: rest => boundElements rest

def boundProperties : List Part → List Node
  | [] => []
  | .node _ (.mk _ _ label parts) :: rest =>
    boundAt (if label.kind == .rest then .argument else .value) parts ++ boundProperties rest
  | .hole _ :: rest => boundProperties rest

end

end ScriptC.Node
