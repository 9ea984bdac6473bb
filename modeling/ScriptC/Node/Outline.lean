import ScriptC.Double.Text
import ScriptC.Node.Basic
import ScriptC.Text.Quoted

/-!
A tree as an outline, one node on a line, with what is known about each.
-/

namespace ScriptC

structure Description where
  decl : BindingKind := .none
  /--
  The number of the declaration that a name refers to, or of the function taken out of a site.
  -/
  link : Option Nat := none
  withLink : Option Nat := none
  isGlobal : Bool := false
  isClosure : Bool := false
  function : Option (String × Bool) := none
  site : Option Nat := none
  slot : Option Nat := none

def Literal.outline : Literal → String
  | .string s => Text.quote s
  | .number x => x.general
  | .boolean b => if b then "true" else "false"
  | .null => "null"
  | .bigint digits => digits ++ "n"
  | .regexp pattern flags => "/" ++ pattern ++ "/" ++ flags
  | .undefined => "undefined"
  | .nan => "NaN"

private def linkText (mark : String) : Option Nat → String
  | some i => s!"{mark}#{i}"
  | none => ""

def Label.outline (d : Description) : Label → String
  | .identifier name =>
    " " ++ name ++ (if d.decl == .none then "" else " decl=" ++ d.decl.name) ++
      linkText " ->" d.link ++ linkText " with->" d.withLink ++
      (if d.isGlobal then " global" else "") ++ (if d.isClosure then " closure" else "")
  | .literal l _ => " " ++ l.outline
  | .unary op | .update op _ | .binary op | .logical op | .assignment op => " " ++ op
  | .variableDeclaration binds => " " ++ binds.name
  | .breakStatement name | .continueStatement name | .labeled name =>
    if name.isEmpty then "" else " " ++ name
  | _ => ""

namespace Node

def outlineLine (describe : Node → Description) (depth : Nat) (n : Node) : String :=
  let d := describe n
  String.ofList (List.replicate (2 * depth) ' ') ++ n.kind.name ++ n.label.outline d ++
    (match d.function with
      | some (name, strict) => " func=" ++ Text.quote name ++ if strict then " strict" else ""
      | none => linkText " site->" d.site) ++
    (match d.slot with
      | some k => s!" cache={k}"
      | none => "") ++ s!" #{n.id}\n"

mutual

def outline (describe : Node → Description) (depth : Nat) : Node → String
  | .mk id span label parts =>
    outlineLine describe depth (.mk id span label parts) ++ outlineParts describe (depth + 1) parts

def outlineParts (describe : Node → Description) (depth : Nat) : List Part → String
  | [] => ""
  | .node _ c :: rest => c.outline describe depth ++ outlineParts describe depth rest
  | .hole _ :: rest => outlineParts describe depth rest

end

end Node
end ScriptC
