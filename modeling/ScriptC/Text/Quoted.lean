import ScriptC.Text.Hex
import ScriptC.Text.Printable
import ScriptC.Text.Utf8

/-!
Text between double quotes, as outlines and listings show it.
-/

namespace ScriptC.Text

def namedEscape? : Char → Option String
  | '"' => some "\\\""
  | '\\' => some "\\\\"
  | '\x07' => some "\\a"
  | '\x08' => some "\\b"
  | '\x0c' => some "\\f"
  | '\n' => some "\\n"
  | '\r' => some "\\r"
  | '\t' => some "\\t"
  | '\x0b' => some "\\v"
  | _ => none

def quoteChar (c : Char) : String :=
  match namedEscape? c with
  | some escape => escape
  | none =>
    if isPrintable c then c.toString
    else if c.toNat < 0x80 then "\\x" ++ lowerHex 2 c.toNat
    else if c.toNat < 0x10000 then "\\u" ++ lowerHex 4 c.toNat
    else "\\U" ++ lowerHex 8 c.toNat

def quote (s : String) : String :=
  "\"" ++ String.join (s.toList.map quoteChar) ++ "\""

def quoteBytes (bytes : List UInt8) : String :=
  "\"" ++ go (decode bytes) bytes ++ "\""
where
  go : List (Option Char) → List UInt8 → String
    | some c :: chars, bytes => quoteChar c ++ go chars (bytes.drop c.utf8Size)
    | none :: chars, b :: bytes => "\\x" ++ lowerHex 2 b.toNat ++ go chars bytes
    | _, _ => ""

end ScriptC.Text
