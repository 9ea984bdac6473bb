/-!
The tokens of a script. A name is told apart from the words that the grammar reserves and from those
that have a meaning in some places only.
-/

namespace ScriptC

inductive Token where
  | illegal
  | eof
  | string
  | number
  | punct (text : String)
  | privateName
  | identifier
  | reserved (word : String)
  | future
  | escaped
  | contextual (word : String)
  deriving DecidableEq, Repr, Inhabited

namespace Token

def reservedWords : List String :=
  ["if", "in", "do", "var", "for", "new", "try", "this", "else", "case", "void", "with", "while",
    "break", "catch", "throw", "return", "typeof", "delete", "switch", "default", "finally",
    "function", "continue", "debugger", "instanceof", "const", "class", "extends", "super", "false",
    "true", "null"]

def futureWords : List String := ["enum", "export", "import"]

def contextualWords : List String := ["let", "static", "async", "await", "yield"]

def strictWords : List String :=
  ["implements", "interface", "package", "private", "protected", "public"]

def ofWord (word : String) : Token :=
  if reservedWords.contains word then .reserved word
  else if futureWords.contains word then .future
  else if contextualWords.contains word then .contextual word
  else .identifier

def ofEscapedWord (word : String) : Token :=
  match ofWord word with
  | .reserved _ | .future => .escaped
  | _ => if strictWords.contains word then .escaped else .identifier

def isName : Token → Bool
  | .identifier | .reserved _ | .future | .escaped | .contextual _ => true
  | _ => false

def endsStatement : Token → Bool
  | .reserved word => ["true", "false", "null", "this", "break", "throw", "return", "continue",
      "debugger"].contains word
  | .contextual word => word == "yield"
  | .identifier | .escaped => true
  | _ => false

def punctuators : List String :=
  [">>>=", "...", "===", "!==", "**=", "<<=", ">>=", ">>>", "&&=", "||=", "??=", "=>", "==", "!=",
    "<=", ">=", "&&", "||", "??", "?.", "++", "--", "+=", "-=", "*=", "/=", "%=", "&=", "|=", "^=",
    "<<", ">>", "**", "\x7b", "\x7d", "(", ")", "[", "]", ";", ",", "<", ">", "+", "-", "*", "/",
    "%", "&", "|", "^", "!", "~", "?", ":", "=", ".", "`"]

/-- The punctuators after which a line end may end a statement. A slash is one of them, for it may
end a regular expression. -/
def closers : List String := [")", "]", "\x7d", "++", "--", "/", "/="]

end Token
end ScriptC
