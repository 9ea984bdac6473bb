import ScriptC.Node.Basic

/-!
Going through a tree: from a node to the nodes below it, each with its place.
-/

namespace ScriptC

structure Place where
  parent : Node
  role : Role
  above : Option Kind

namespace Node

def placeIn (n : Node) (place : Option Place) (role : Role) : Place :=
  ⟨n, role, place.map (·.parent.kind)⟩

mutual

/--
A node and those below it, each before the ones below it. Below a node that `enter` refuses nothing
is visited.
-/
def walkWhere (enter : Node → Bool) (place : Option Place) : Node → List (Option Place × Node)
  | .mk id span label parts =>
    let n := .mk id span label parts
    (place, n) :: if enter n then walkParts enter place n parts else []

def walkParts (enter : Node → Bool) (place : Option Place) (parent : Node) :
    List Part → List (Option Place × Node)
  | [] => []
  | .node role c :: rest =>
    walkWhere enter (some (parent.placeIn place role)) c ++ walkParts enter place parent rest
  | .hole _ :: rest => walkParts enter place parent rest

end

def walk (place : Option Place) (n : Node) : List (Option Place × Node) :=
  n.walkWhere (fun _ => true) place

def preorder (n : Node) : List Node :=
  (n.walk none).map (·.2)

def find? (n : Node) (id : Nat) : Option Node :=
  n.preorder.find? fun c => c.id == id

def copy (n : Node) (id : Nat) : Node :=
  .mk id n.span n.label n.parts

def isUse (place : Option Place) (n : Node) : Bool :=
  n.kind == .identifier &&
    match place with
    | none => true
    | some p =>
      match p.parent.label with
      | .member computed _ => p.role == .object || computed
      | .property m | .methodDefinition m | .propertyDefinition m => p.role != .key || m.computed
      | .metaProperty _ | .breakStatement _ | .continueStatement _ | .labeled _ => false
      | _ => true

def statementIndex? (place : Option Place) (n : Node) : Option Nat :=
  match place with
  | none => none
  | some p =>
    match p.parent.label with
    | .program | .block | .switchCase | .classBody =>
      (p.parent.slots .item).findIdx? fun s => s.any (·.id == n.id)
    | _ => none

mutual

def replaceM {m : Type → Type} [Monad m] (f : Node → m (Option Node)) : Node → m Node
  | .mk id span label parts => do
    match ← f (.mk id span label parts) with
    | some n => return n
    | none => return .mk id span label (← replacePartsM f parts)

def replacePartsM {m : Type → Type} [Monad m] (f : Node → m (Option Node)) :
    List Part → m (List Part)
  | [] => return []
  | .node role c :: rest => do
    let c ← c.replaceM f
    return .node role c :: (← replacePartsM f rest)
  | .hole role :: rest => return .hole role :: (← replacePartsM f rest)

end

end Node
end ScriptC
