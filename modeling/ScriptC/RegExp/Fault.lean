/-!
What can be wrong with the pattern of a regular expression.
-/

namespace ScriptC.RegExp

inductive PatternFault where
  | unexpectedParen
  | missingParen
  | unterminatedSet
  | unterminatedComment
  | reversedRange (low high : Char)
  | classInRange (name : Char)
  | nestedRepeat
  | missingArgument
  | repeatCount
  | groupNumber
  | groupZero
  | groupName
  | grouping (text : String)
  | endEscape
  | malformedReference
  | undefinedName (name : String)
  | undefinedNumber (number : Nat)
  | incompleteCategory
  | unknownCategory (name : String)
  deriving DecidableEq, Repr

def PatternFault.message : PatternFault → String
  | .unexpectedParen => "unexpected )"
  | .missingParen => "missing closing )"
  | .unterminatedSet => "unterminated [] set"
  | .unterminatedComment => "unterminated comment"
  | .reversedRange low high => s!"[{low}-{high}] range in reverse order"
  | .classInRange name => s!"cannot include class \\{name} in character range"
  | .nestedRepeat => "invalid nested repetition operator"
  | .missingArgument => "missing argument to repetition operator"
  | .repeatCount => "invalid repeat count"
  | .groupNumber => "capture group number out of range"
  | .groupZero => "capture number cannot be zero"
  | .groupName =>
    "invalid group name: group names must begin with a word character and have a matching " ++
      "terminator"
  | .grouping text => s!"unrecognized grouping construct: ({text}"
  | .endEscape => "illegal \\ at end of pattern"
  | .malformedReference => "malformed \\k<...> named back reference"
  | .undefinedName name => s!"reference to undefined group name {name}"
  | .undefinedNumber number => s!"reference to undefined group number {number}"
  | .incompleteCategory => "incomplete \\p\x7bX\x7d character escape"
  | .unknownCategory name => s!"unknown unicode category, script, or property '{name}'"

def PatternFault.reason (pattern : String) (f : PatternFault) : String :=
  "error parsing regexp: " ++ f.message ++ " in `" ++ pattern ++ "`"

end ScriptC.RegExp
