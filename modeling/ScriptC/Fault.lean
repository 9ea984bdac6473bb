import ScriptC.Diagnostic
import ScriptC.Engine.Entry
import ScriptC.Node.Basic

/-!
Why a tree cannot be compiled. Each cause has its wording here; only the first fault of a script is
ever reported.
-/

namespace ScriptC

inductive ScopeFault where
  | alreadyDeclared (name : String)
  | alreadyParameter (name : String)
  | duplicateParameter (name : String)
  | beforeInitialization (name : String)
  | newTargetOutside
  | superOutside
  | strictInWith
  | twoConstructors
  deriving DecidableEq, Repr

def ScopeFault.message : ScopeFault → String
  | .alreadyDeclared name => s!"identifier '{name}' has already been declared"
  | .alreadyParameter name => s!"identifier '{name}' has already been declared as a parameter"
  | .duplicateParameter name => s!"duplicate parameter name '{name}' not allowed in this context"
  | .beforeInitialization name => s!"cannot access '{name}' before initialization"
  | .newTargetOutside => "new.target expression is not allowed here"
  | .superOutside => "'super' keyword unexpected here"
  | .strictInWith => "strict mode function cannot be nested in a with statement"
  | .twoConstructors => "a class may only have one constructor"

inductive LoweringFault where
  | malformedBody
  | classField
  | malformedMember
  | statement (kind : Kind)
  | expression (kind : Kind)
  | pattern (kind : Kind)
  | unresolved (kind : Kind)
  | unresolvedName (name : String)
  | literal
  | operator (op : String)
  | logicalOperator (op : String)
  | unaryOperator (op : String)
  | strictDelete
  | superDelete
  | assignmentTarget
  | constant (name : String)
  | functionSite
  | classSite
  | notCaptured (name function : String)
  | outsideFunction (name : String)
  | breakOutside
  | continueOutside
  | notLoop (label : String)
  | noLabel (label : String)
  | frame (message : String)
  deriving DecidableEq, Repr

def LoweringFault.message : LoweringFault → String
  | .malformedBody => "malformed function body"
  | .classField => "class fields are not supported"
  | .malformedMember => "malformed class member"
  | .statement kind => s!"unexpected {kind.name} in statement position"
  | .expression kind => s!"unexpected {kind.name} in expression"
  | .pattern kind => s!"unexpected {kind.name} in binding pattern"
  | .unresolved kind => s!"unresolved {kind.name}"
  | .unresolvedName name => s!"unresolved identifier '{name}'"
  | .literal => "unexpected literal"
  | .operator op => s!"unsupported operator '{op}'"
  | .logicalOperator op => s!"unsupported logical operator '{op}'"
  | .unaryOperator op => s!"unsupported unary operator '{op}'"
  | .strictDelete => "delete of an unqualified identifier in strict mode"
  | .superDelete => "delete of a super property is not supported"
  | .assignmentTarget => "invalid assignment target"
  | .constant name => s!"assignment to constant variable '{name}'"
  | .functionSite => "function at this position was not extracted"
  | .classSite => "class at this position was not extracted"
  | .notCaptured name function => s!"'{name}' is not captured by {function}"
  | .outsideFunction name => s!"declaration of '{name}' outside of any function"
  | .breakOutside => "break statement not within a loop or switch"
  | .continueOutside => "continue statement not within a loop"
  | .notLoop label => s!"continue target '{label}' is not a loop"
  | .noLabel label => s!"label '{label}' not found"
  | .frame message => message

inductive LimitFault where
  | params (count : Nat)
  | captures
  | cacheSlots
  deriving DecidableEq, Repr

def LimitFault.limit : LimitFault → Nat
  | .params _ => Engine.maxParams
  | .captures => Engine.maxClosures
  | .cacheSlots => Engine.maxShapeCacheSlots

def LimitFault.message (f : LimitFault) : String :=
  match f with
  | .params count => s!"too many parameters ({count}, limit {f.limit})"
  | .captures => s!"too many closure variables in function (limit {f.limit})"
  | .cacheSlots => s!"too many property access sites in function (limit {f.limit})"

inductive RegExpFault where
  | flags (flags : String)
  | pattern (pattern reason : String)
  deriving DecidableEq, Repr

def RegExpFault.message : RegExpFault → String
  | .flags given => s!"invalid regular expression flags '{given}'"
  | .pattern body reason => s!"invalid regular expression: /{body}/: {reason}"

inductive Cause where
  | scope (f : ScopeFault)
  | lowering (f : LoweringFault)
  | limit (f : LimitFault)
  | regexp (f : RegExpFault)
  deriving DecidableEq, Repr

def Cause.kind : Cause → ProblemKind
  | .scope _ => .scope
  | .lowering _ => .compile
  | .limit _ => .limit
  | .regexp _ => .malformed

def Cause.message : Cause → String
  | .scope f => f.message
  | .lowering f => f.message
  | .limit f => f.message
  | .regexp f => f.message

def Cause.underlying : Cause → Option String
  | .regexp (.pattern _ reason) => some reason
  | _ => none

structure Fault where
  cause : Cause
  span : Span
  deriving DecidableEq, Repr

def Fault.diagnostic (f : Fault) (source : Source) : Diagnostic where
  kind := f.cause.kind
  position := source.position f.span.start f.span.stop
  message := f.cause.message
  cause := f.cause.underlying
  limit :=
    match f.cause with
    | .limit l => l.limit
    | _ => 0

namespace Node

def scopeFault (n : Node) (f : ScopeFault) : Fault := ⟨.scope f, n.span⟩

def loweringFault (n : Node) (f : LoweringFault) : Fault := ⟨.lowering f, n.span⟩

def limitFault (n : Node) (f : LimitFault) : Fault := ⟨.limit f, n.span⟩

def regexpFault (n : Node) (f : RegExpFault) : Fault := ⟨.regexp f, n.span⟩

end Node
end ScriptC
