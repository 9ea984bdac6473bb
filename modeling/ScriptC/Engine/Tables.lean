import ScriptC.Text.Hex

/-!
What the engine keeps ready: the codes of its operators, the strings and shapes of its environment
and the flags of function objects.
-/

namespace ScriptC.Engine

def binaryCode? : String → Option String
  | "-" => some "JS_OP_SUB"
  | "*" => some "JS_OP_MUL"
  | "/" => some "JS_OP_DIV"
  | "%" => some "JS_OP_REM"
  | "**" => some "JS_OP_POW"
  | "<<" => some "JS_OP_SHL"
  | ">>" => some "JS_OP_SAR"
  | ">>>" => some "JS_OP_SHR"
  | "&" => some "JS_OP_AND"
  | "|" => some "JS_OP_OR"
  | "^" => some "JS_OP_XOR"
  | _ => none

def unaryCode? : String → Option String
  | "-" => some "JS_OP_NEG"
  | "~" => some "JS_OP_NOT"
  | "++" => some "JS_OP_INC"
  | "--" => some "JS_OP_DEC"
  | _ => none

def compareCode? : String → Option String
  | "<" => some "JS_CMP_LT"
  | "<=" => some "JS_CMP_LE"
  | ">" => some "JS_CMP_GT"
  | ">=" => some "JS_CMP_GE"
  | _ => none

def stringField? : String → Option String
  | "" => some "env->str_empty"
  | "length" => some "env->str_length"
  | "prototype" => some "env->str_prototype"
  | "constructor" => some "env->str_constructor"
  | "name" => some "env->str_name"
  | "value" => some "env->str_value"
  | "done" => some "env->str_done"
  | "next" => some "env->str_next"
  | "get" => some "env->str_get"
  | "set" => some "env->str_set"
  | "toString" => some "env->str_toString"
  | "valueOf" => some "env->str_valueOf"
  | "undefined" => some "env->str_undefined"
  | "object" => some "env->str_object"
  | "function" => some "env->str_function"
  | "string" => some "env->str_string"
  | "number" => some "env->str_number"
  | "boolean" => some "env->str_boolean"
  | "symbol" => some "env->str_symbol"
  | "bigint" => some "env->str_bigint"
  | "arguments" => some "env->str_arguments"
  | "caller" => some "env->str_caller"
  | "callee" => some "env->str_callee"
  | "__proto__" => some "env->str___proto__"
  | _ => none

def shapeField? : List String → Option String
  | ["value", "done"] => some "env->shape_value_done"
  | ["done", "value"] => some "env->shape_done_value"
  | _ => none

def isTypeName (s : String) : Bool :=
  ["undefined", "object", "boolean", "number", "string", "symbol", "function", "bigint"].contains s

def coroutineKind (async generator : Bool) : Nat :=
  (if async then 1 else 0) + if generator then 2 else 0

def functionFlagNames : List String :=
  ["JS_FUNC_STRICT", "JS_FUNC_ARROW", "JS_FUNC_NOT_CTOR", "JS_FUNC_CLASS_CTOR", "JS_FUNC_DERIVED",
    "JS_FUNC_METHOD"]

def namesOfBits : List String → Nat → List String
  | [], _ => []
  | name :: names, n =>
    if n % 2 == 1 then name :: namesOfBits names (n / 2) else namesOfBits names (n / 2)

def signedHex (n : Int) : String :=
  (if n < 0 then "-" else "") ++ Text.upperHex 0 n.natAbs

def functionFlags (flags : Int) : String :=
  if flags == 0 then "0"
  else
    let low := flags.emod 64
    let rest := flags - low
    String.intercalate "|" (namesOfBits functionFlagNames low.toNat) ++
      if rest == 0 then "" else "|0x" ++ signedHex rest

end ScriptC.Engine
