import ScriptC.Text.Directive
import ScriptC.Text.Quoted

/-!
Why a text is no script. Each cause has its wording here; only the first one is ever reported.
-/

namespace ScriptC

inductive EscapeFault where
  | short (letter : Char) (text : String) (size : Nat)
  | digits (letter : Char) (text : List UInt8)
  | empty (letter : Char)
  | codePoint (text : String)
  | unterminated (text : String)
  | octal
  | decimal
  deriving DecidableEq, Repr

def EscapeFault.template : EscapeFault → String
  | .short letter text size =>
    let shown := Text.quote text
    s!"invalid escape: \\{letter}: len({shown}) != {size}"
  | .digits letter text =>
    let shown := Text.quoteBytes text
    s!"invalid escape: \\{letter}: {shown}"
  | .empty letter => s!"invalid escape: \\{letter}"
  | .codePoint text => "undefined Unicode code-point: " ++ Text.quote text
  | .unterminated text => "unterminated \\u\x7b: " ++ Text.quote text
  | .octal => "Octal escape sequences are not allowed in this context"
  | .decimal => "\\8 and \\9 are not allowed in template strings."

def EscapeFault.message (fault : EscapeFault) : String := Text.withoutValues fault.template

structure Miscount where
  text : String
  deriving DecidableEq, Repr

def Miscount.message (m : Miscount) : String :=
  s!"unexpected unicode length while parsing '{m.text}'"

inductive LiteralFault where
  | escape (fault : EscapeFault)
  | miscount (miscount : Miscount)
  deriving DecidableEq, Repr

inductive TextFault where
  | badByte
  | unexpectedEnd
  | unexpectedIdentifier
  | unexpectedReserved
  | unexpectedNumber
  | unexpectedString
  | unexpectedToken (text : String)
  | escapedWord
  | numericSeparator
  | illegalNumber
  | escape (fault : EscapeFault)
  | missingSlash
  | superKeyword
  | twoDefaults
  | constructorGenerator
  | constructorAccessor
  | constructorAsync
  | constructorPrivate
  | constructorField
  | staticPrototype
  | getterParams
  | setterParams
  | illegalBreak
  | illegalContinue
  | illegalReturn
  | throwNewline
  | assignmentPattern
  | bindingPattern
  | assignmentTarget
  | loopTarget
  | loopInitializer
  | templateOnChain
  | labelExists (name : String)
  | labelUndefined (name : String)
  | lexicalDeclaration
  | mixedCoalesce
  | missingCatch
  | missingInitializer
  | restElement
  | bindingRest
  | commaAfterRest
  | unaryPower
  | yieldInParams
  | awaitInParams
  | arrowParams
  deriving DecidableEq, Repr

def TextFault.message : TextFault → String
  | .badByte => "Invalid UTF-8 character"
  | .unexpectedEnd => "Unexpected end of input"
  | .unexpectedIdentifier => "Unexpected identifier"
  | .unexpectedReserved => "Unexpected reserved word"
  | .unexpectedNumber => "Unexpected number"
  | .unexpectedString => "Unexpected string"
  | .unexpectedToken text => s!"Unexpected token {text}"
  | .escapedWord => "Keyword must not contain escaped characters"
  | .numericSeparator => "Only one underscore is allowed as numeric separator"
  | .illegalNumber => "Illegal numeric literal"
  | .escape fault => fault.message
  | .missingSlash => "Invalid regular expression: missing /"
  | .superKeyword => "'super' keyword unexpected here"
  | .twoDefaults => "Already saw a default in switch"
  | .constructorGenerator => "Class constructor may not be a generator"
  | .constructorAccessor => "Class constructor may not be an accessor"
  | .constructorAsync => "Class constructor may not be an async method"
  | .constructorPrivate => "Class constructor may not be a private method"
  | .constructorField => "Classes may not have a field named 'constructor'"
  | .staticPrototype => "Classes may not have a static property named 'prototype'"
  | .getterParams => "Getter must not have any formal parameters."
  | .setterParams => "Setter must have exactly one formal parameter."
  | .illegalBreak => "Illegal break statement"
  | .illegalContinue => "Illegal continue statement"
  | .illegalReturn => "Illegal return statement"
  | .throwNewline => "Illegal newline after throw"
  | .assignmentPattern => "Invalid destructuring assignment target"
  | .bindingPattern => "Invalid destructuring binding target"
  | .assignmentTarget => "Invalid left-hand side in assignment"
  | .loopTarget => "Invalid left-hand side in for-in or for-of"
  | .loopInitializer => "for-in loop variable declaration may not have an initializer"
  | .templateOnChain => "Invalid template literal on optional chain"
  | .labelExists name => s!"Label '{name}' already exists"
  | .labelUndefined name => s!"Undefined label '{name}'"
  | .lexicalDeclaration => "Lexical declaration cannot appear in a single-statement context"
  | .mixedCoalesce =>
    "Logical expressions and coalesce expressions cannot be mixed. Wrap either by parentheses"
  | .missingCatch => "Missing catch or finally after try"
  | .missingInitializer => "Missing initializer in destructuring declaration"
  | .restElement => "Rest element must be last element"
  | .bindingRest => "Invalid binding rest"
  | .commaAfterRest => "Comma is not allowed here"
  | .unaryPower =>
    "Unary operator used immediately before exponentiation expression. " ++
      "Parenthesis must be used to disambiguate operator precedence"
  | .yieldInParams => "Yield expression not allowed in formal parameter"
  | .awaitInParams => "Illegal await-expression in formal parameters of async function"
  | .arrowParams => "Malformed arrow function parameter list"

structure TextError where
  fault : TextFault
  offset : Nat
  deriving DecidableEq, Repr

inductive Refusal where
  | error (error : TextError)
  | miscount (miscount : Miscount)
  deriving DecidableEq, Repr

end ScriptC
