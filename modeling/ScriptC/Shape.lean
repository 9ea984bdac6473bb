/-!
Shapes: the property names of an object in slot order.
-/

namespace ScriptC

structure Shape where
  props : List String
  cname : String := ""
  wellKnown : Option String := none
  deriving DecidableEq, Repr, Inhabited

namespace Shape

def keyOf (props : List String) : String :=
  String.intercalate "\x00" props

def key (s : Shape) : String := keyOf s.props

def indexOf? (s : Shape) (name : String) : Option Nat :=
  s.props.findIdx? (· == name)

end Shape
end ScriptC
