import ScriptC.Double.Basic
import ScriptC.Node.Kind

/-!
The tree of a script. A node has a number of its own, the span of text it covers, a label that says
what it is, and parts, each in the role it plays. Parts stand in the order in which the script runs
through them.
-/

namespace ScriptC

structure Span where
  start : Int
  stop : Int
  deriving DecidableEq, Repr, Inhabited

def Span.within (s outer : Span) : Bool :=
  outer.start ≤ s.start && s.stop ≤ outer.stop && s.start < s.stop

inductive Literal where
  | string (value : String)
  | number (value : Double)
  | boolean (value : Bool)
  | null
  | bigint (digits : String)
  | regexp (pattern flags : String)
  | undefined
  | nan
  deriving DecidableEq, Repr, Inhabited

structure FunctionMarks where
  isAsync : Bool := false
  isGenerator : Bool := false
  exprBody : Bool := false
  deriving DecidableEq, Repr, Inhabited

inductive MemberKind where
  | none
  | init
  | get
  | set
  | method
  | constructor
  deriving DecidableEq, Repr, Inhabited

def MemberKind.name : MemberKind → String
  | .none => ""
  | .init => "init"
  | .get => "get"
  | .set => "set"
  | .method => "method"
  | .constructor => "constructor"

def MemberKind.ofName (s : String) : MemberKind :=
  ([.init, .get, .set, .method, .constructor].find? fun k => k.name == s).getD .none

structure MemberMarks where
  kind : MemberKind := .none
  computed : Bool := false
  shorthand : Bool := false
  method : Bool := false
  isStatic : Bool := false
  deriving DecidableEq, Repr, Inhabited

structure TemplateText where
  cooked : List String := []
  raws : List String := []
  invalid : List Bool := []
  deriving DecidableEq, Repr, Inhabited

inductive Label where
  | invalid
  | program
  | block
  | empty
  | expressionStatement
  | ifStatement
  | labeled (name : String)
  | breakStatement (name : String)
  | continueStatement (name : String)
  | withStatement
  | switchStatement
  | switchCase
  | returnStatement
  | throwStatement
  | tryStatement
  | catchClause
  | whileStatement
  | doWhileStatement
  | forStatement
  | forInStatement
  | forOfStatement
  | debuggerStatement
  | variableDeclaration (binds : BindingKind)
  | declarator
  | functionDeclaration (marks : FunctionMarks)
  | classDeclaration
  | identifier (name : String)
  | literal (value : Literal) (raw : String)
  | this
  | super
  | array
  | object
  | property (marks : MemberMarks)
  | functionExpression (marks : FunctionMarks)
  | arrowFunction (marks : FunctionMarks)
  | classExpression
  | classBody
  | methodDefinition (marks : MemberMarks)
  | propertyDefinition (marks : MemberMarks)
  | template (text : TemplateText)
  | taggedTemplate
  | unary (op : String)
  | update (op : String) (before : Bool)
  | binary (op : String)
  | logical (op : String)
  | assignment (op : String)
  | conditional
  | call (optional : Bool)
  | new
  | member (computed optional : Bool)
  | chain
  | sequence
  | spread
  | yieldExpression (delegate : Bool)
  | awaitExpression
  | metaProperty (name : String)
  | arrayPattern
  | objectPattern
  | rest
  | assignmentPattern
  | globalObject
  deriving DecidableEq, Repr, Inhabited

inductive Role where
  | name
  | param
  | body
  | item
  | expression
  | left
  | right
  | test
  | consequent
  | alternate
  | init
  | update
  | object
  | property
  | callee
  | argument
  | key
  | value
  | heritage
  | block
  | handler
  | finalizer
  | caught
  | discriminant
  deriving DecidableEq, Repr, Inhabited

def Label.kind : Label → Kind
  | .invalid => .invalid
  | .program => .program
  | .block => .block
  | .empty => .empty
  | .expressionStatement => .expressionStatement
  | .ifStatement => .ifStatement
  | .labeled _ => .labeled
  | .breakStatement _ => .breakStatement
  | .continueStatement _ => .continueStatement
  | .withStatement => .withStatement
  | .switchStatement => .switchStatement
  | .switchCase => .switchCase
  | .returnStatement => .returnStatement
  | .throwStatement => .throwStatement
  | .tryStatement => .tryStatement
  | .catchClause => .catchClause
  | .whileStatement => .whileStatement
  | .doWhileStatement => .doWhileStatement
  | .forStatement => .forStatement
  | .forInStatement => .forInStatement
  | .forOfStatement => .forOfStatement
  | .debuggerStatement => .debuggerStatement
  | .variableDeclaration _ => .variableDeclaration
  | .declarator => .declarator
  | .functionDeclaration _ => .functionDeclaration
  | .classDeclaration => .classDeclaration
  | .identifier _ => .identifier
  | .literal .. => .literal
  | .this => .this
  | .super => .super
  | .array => .array
  | .object => .object
  | .property _ => .property
  | .functionExpression _ => .functionExpression
  | .arrowFunction _ => .arrowFunction
  | .classExpression => .classExpression
  | .classBody => .classBody
  | .methodDefinition _ => .methodDefinition
  | .propertyDefinition _ => .propertyDefinition
  | .template _ => .template
  | .taggedTemplate => .taggedTemplate
  | .unary _ => .unary
  | .update .. => .update
  | .binary _ => .binary
  | .logical _ => .logical
  | .assignment _ => .assignment
  | .conditional => .conditional
  | .call _ => .call
  | .new => .new
  | .member .. => .member
  | .chain => .chain
  | .sequence => .sequence
  | .spread => .spread
  | .yieldExpression _ => .yieldExpression
  | .awaitExpression => .awaitExpression
  | .metaProperty _ => .metaProperty
  | .arrayPattern => .arrayPattern
  | .objectPattern => .objectPattern
  | .rest => .rest
  | .assignmentPattern => .assignmentPattern
  | .globalObject => .globalObject

def Kind.roles : Kind → List Role
  | .program | .block | .classBody | .sequence | .template | .array | .arrayPattern | .object
  | .objectPattern | .variableDeclaration => [.item]
  | .expressionStatement | .chain => [.expression]
  | .ifStatement | .conditional => [.test, .consequent, .alternate]
  | .labeled => [.body]
  | .withStatement => [.object, .body]
  | .switchStatement => [.discriminant, .item]
  | .switchCase => [.test, .item]
  | .returnStatement | .throwStatement | .unary | .update | .spread | .rest | .yieldExpression
  | .awaitExpression => [.argument]
  | .tryStatement => [.block, .handler, .finalizer]
  | .catchClause => [.caught, .body]
  | .whileStatement => [.test, .body]
  | .doWhileStatement => [.body, .test]
  | .forStatement => [.init, .test, .update, .body]
  | .forInStatement | .forOfStatement => [.left, .right, .body]
  | .declarator => [.name, .init]
  | .functionDeclaration | .functionExpression | .arrowFunction => [.name, .param, .body]
  | .classDeclaration | .classExpression => [.name, .heritage, .body]
  | .methodDefinition | .propertyDefinition | .property => [.key, .value]
  | .taggedTemplate => [.callee, .argument]
  | .binary | .logical | .assignment | .assignmentPattern => [.left, .right]
  | .call | .new => [.callee, .item]
  | .member => [.object, .property]
  | .invalid | .empty | .breakStatement | .continueStatement | .debuggerStatement | .identifier
  | .literal | .this | .super | .metaProperty | .globalObject => []

mutual

inductive Node where
  | mk (id : Nat) (span : Span) (label : Label) (parts : List Part)

inductive Part where
  | node (role : Role) (n : Node)
  | hole (role : Role)

end

namespace Part

def role : Part → Role
  | .node r _ => r
  | .hole r => r

def node? : Part → Option Node
  | .node _ n => some n
  | .hole _ => none

end Part

namespace Node

def id : Node → Nat
  | .mk i _ _ _ => i

def span : Node → Span
  | .mk _ s _ _ => s

def label : Node → Label
  | .mk _ _ l _ => l

def parts : Node → List Part
  | .mk _ _ _ ps => ps

instance : Inhabited Node := ⟨.mk 0 default .invalid []⟩

def kind (n : Node) : Kind := n.label.kind

def start (n : Node) : Int := n.span.start

def stop (n : Node) : Int := n.span.stop

def build (id : Nat) (span : Span) (label : Label) (given : List Part) : Node :=
  .mk id span label (label.kind.roles.flatMap fun r => given.filter fun p => p.role == r)

def withParts (n : Node) (parts : List Part) : Node :=
  .mk n.id n.span n.label parts

def children (n : Node) : List (Role × Node) :=
  n.parts.filterMap fun
    | .node r c => some (r, c)
    | .hole _ => none

def part? (n : Node) (r : Role) : Option Node :=
  n.parts.findSome? fun p => if p.role == r then p.node? else none

def slots (n : Node) (r : Role) : List (Option Node) :=
  n.parts.filterMap fun p => if p.role == r then some p.node? else none

def nodesAt (n : Node) (r : Role) : List Node :=
  n.parts.filterMap fun p => if p.role == r then p.node? else none

def items (n : Node) : List Node := n.nodesAt .item

mutual

def size : Node → Nat
  | .mk _ _ _ parts => 1 + sizeParts parts

def sizeParts : List Part → Nat
  | [] => 0
  | .node _ n :: rest => n.size + sizeParts rest
  | .hole _ :: rest => sizeParts rest

end

def name (n : Node) : String :=
  match n.label with
  | .identifier s | .labeled s | .breakStatement s | .continueStatement s | .metaProperty s => s
  | _ => ""

def operator (n : Node) : String :=
  match n.label with
  | .unary s | .update s _ | .binary s | .logical s | .assignment s => s
  | _ => ""

def computed (n : Node) : Bool :=
  match n.label with
  | .member c _ => c
  | .property m | .methodDefinition m | .propertyDefinition m => m.computed
  | _ => false

def isOptional (n : Node) : Bool :=
  match n.label with
  | .member _ o | .call o => o
  | _ => false

def memberMarks (n : Node) : MemberMarks :=
  match n.label with
  | .property m | .methodDefinition m | .propertyDefinition m => m
  | _ => {}

def functionMarks (n : Node) : FunctionMarks :=
  match n.label with
  | .functionDeclaration m | .functionExpression m | .arrowFunction m => m
  | _ => {}

def literal? (n : Node) : Option Literal :=
  match n.label with
  | .literal l _ => some l
  | _ => none

def string? (n : Node) : Option String :=
  match n.label with
  | .literal (.string s) _ => some s
  | _ => none

def carriedText (n : Node) : String :=
  match n.label with
  | .literal (.string s) _ | .literal (.bigint s) _ | .literal (.regexp s _) _ => s
  | _ => ""

end Node
end ScriptC
