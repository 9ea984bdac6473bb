/-!
The kinds of constructs, of literals and of declarations.
-/

namespace ScriptC

inductive Kind where
  | invalid
  | program
  | block
  | empty
  | expressionStatement
  | ifStatement
  | labeled
  | breakStatement
  | continueStatement
  | withStatement
  | switchStatement
  | switchCase
  | returnStatement
  | throwStatement
  | tryStatement
  | catchClause
  | whileStatement
  | doWhileStatement
  | forStatement
  | forInStatement
  | forOfStatement
  | debuggerStatement
  | variableDeclaration
  | declarator
  | functionDeclaration
  | classDeclaration
  | identifier
  | literal
  | this
  | super
  | array
  | object
  | property
  | functionExpression
  | arrowFunction
  | classExpression
  | classBody
  | methodDefinition
  | propertyDefinition
  | template
  | taggedTemplate
  | unary
  | update
  | binary
  | logical
  | assignment
  | conditional
  | call
  | new
  | member
  | chain
  | sequence
  | spread
  | yieldExpression
  | awaitExpression
  | metaProperty
  | arrayPattern
  | objectPattern
  | rest
  | assignmentPattern
  | globalObject
  deriving DecidableEq, Repr, Inhabited

namespace Kind

def all : List Kind :=
  [
    .invalid, .program, .block, .empty, .expressionStatement, .ifStatement,
    .labeled, .breakStatement, .continueStatement, .withStatement, .switchStatement, .switchCase,
    .returnStatement, .throwStatement, .tryStatement, .catchClause, .whileStatement,
    .doWhileStatement, .forStatement, .forInStatement, .forOfStatement, .debuggerStatement,
    .variableDeclaration, .declarator,
    .functionDeclaration, .classDeclaration, .identifier, .literal, .this, .super,
    .array, .object, .property, .functionExpression, .arrowFunction, .classExpression,
    .classBody, .methodDefinition, .propertyDefinition, .template, .taggedTemplate, .unary,
    .update, .binary, .logical, .assignment, .conditional, .call,
    .new, .member, .chain, .sequence, .spread, .yieldExpression,
    .awaitExpression, .metaProperty, .arrayPattern, .objectPattern, .rest, .assignmentPattern,
    .globalObject]

def name : Kind → String
  | .invalid => "Invalid"
  | .program => "Program"
  | .block => "BlockStatement"
  | .empty => "EmptyStatement"
  | .expressionStatement => "ExpressionStatement"
  | .ifStatement => "IfStatement"
  | .labeled => "LabeledStatement"
  | .breakStatement => "BreakStatement"
  | .continueStatement => "ContinueStatement"
  | .withStatement => "WithStatement"
  | .switchStatement => "SwitchStatement"
  | .switchCase => "SwitchCase"
  | .returnStatement => "ReturnStatement"
  | .throwStatement => "ThrowStatement"
  | .tryStatement => "TryStatement"
  | .catchClause => "CatchClause"
  | .whileStatement => "WhileStatement"
  | .doWhileStatement => "DoWhileStatement"
  | .forStatement => "ForStatement"
  | .forInStatement => "ForInStatement"
  | .forOfStatement => "ForOfStatement"
  | .debuggerStatement => "DebuggerStatement"
  | .variableDeclaration => "VariableDeclaration"
  | .declarator => "VariableDeclarator"
  | .functionDeclaration => "FunctionDeclaration"
  | .classDeclaration => "ClassDeclaration"
  | .identifier => "Identifier"
  | .literal => "Literal"
  | .this => "ThisExpression"
  | .super => "Super"
  | .array => "ArrayExpression"
  | .object => "ObjectExpression"
  | .property => "Property"
  | .functionExpression => "FunctionExpression"
  | .arrowFunction => "ArrowFunctionExpression"
  | .classExpression => "ClassExpression"
  | .classBody => "ClassBody"
  | .methodDefinition => "MethodDefinition"
  | .propertyDefinition => "PropertyDefinition"
  | .template => "TemplateLiteral"
  | .taggedTemplate => "TaggedTemplateExpression"
  | .unary => "UnaryExpression"
  | .update => "UpdateExpression"
  | .binary => "BinaryExpression"
  | .logical => "LogicalExpression"
  | .assignment => "AssignmentExpression"
  | .conditional => "ConditionalExpression"
  | .call => "CallExpression"
  | .new => "NewExpression"
  | .member => "MemberExpression"
  | .chain => "ChainExpression"
  | .sequence => "SequenceExpression"
  | .spread => "SpreadElement"
  | .yieldExpression => "YieldExpression"
  | .awaitExpression => "AwaitExpression"
  | .metaProperty => "MetaProperty"
  | .arrayPattern => "ArrayPattern"
  | .objectPattern => "ObjectPattern"
  | .rest => "RestElement"
  | .assignmentPattern => "AssignmentPattern"
  | .globalObject => "GlobalObject"

def ofName? (s : String) : Option Kind :=
  all.find? fun k => k.name == s

def nameAt (i : Nat) : String := (all[i]?.map name).getD "Kind(?)"

def isFunction : Kind → Bool
  | .functionDeclaration | .functionExpression | .arrowFunction => true
  | _ => false

def isClass : Kind → Bool
  | .classDeclaration | .classExpression => true
  | _ => false

def isLoop : Kind → Bool
  | .whileStatement | .doWhileStatement | .forStatement | .forInStatement | .forOfStatement => true
  | _ => false

end Kind

inductive BindingKind where
  | none
  | var
  | let
  | const
  | function
  | className
  | param
  | caught
  | self
  | arguments
  | this
  | newTarget
  | functionValue
  deriving DecidableEq, Repr, Inhabited

namespace BindingKind

def all : List BindingKind :=
  [.none, .var, .let, .const, .function, .className, .param, .caught, .self, .arguments, .this,
    .newTarget, .functionValue]

def name : BindingKind → String
  | .none => "none"
  | .var => "var"
  | .let => "let"
  | .const => "const"
  | .function => "function"
  | .className => "class"
  | .param => "param"
  | .caught => "catch"
  | .self => "self"
  | .arguments => "arguments"
  | .this => "this"
  | .newTarget => "new.target"
  | .functionValue => "function value"

def ofName? (s : String) : Option BindingKind :=
  all.find? fun k => k.name == s

def nameAt (i : Nat) : String := (all[i]?.map name).getD "?"

def isLexical : BindingKind → Bool
  | .let | .const | .className => true
  | _ => false

def isSynthetic : BindingKind → Bool
  | .arguments | .this | .newTarget | .functionValue => true
  | _ => false

end BindingKind
end ScriptC
