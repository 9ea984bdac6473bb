/-!
Why phrases have no tree.
-/

namespace ScriptC.Surface

inductive PhraseFault where
  | privateName
  | badExpression
  | unsupportedExpression
  | badStatement
  | unsupportedStatement
  | propertyKey
  | property
  | patternTarget
  | assignmentTarget
  deriving DecidableEq, Repr

def PhraseFault.message : PhraseFault → String
  | .privateName => "private names are not supported"
  | .badExpression => "invalid expression"
  | .unsupportedExpression => "unsupported expression"
  | .badStatement => "invalid statement"
  | .unsupportedStatement => "unsupported statement"
  | .propertyKey => "unexpected property key"
  | .property => "unexpected property in object literal"
  | .patternTarget => "invalid destructuring target"
  | .assignmentTarget => "invalid assignment target"

end ScriptC.Surface
