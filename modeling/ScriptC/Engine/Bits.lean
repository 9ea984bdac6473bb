import ScriptC.Engine.Tables
import ScriptC.Value.Basic

/-!
The C text of the tests on a value's bits. Each takes the text of a variable or of an expression in
parentheses.
-/

namespace ScriptC.Engine

def hasTagText (v : String) (tag : Int) : String :=
  "((" ++ v ++ ").raw >> 48) == 0x" ++ signedHex tag

def isNumberText (v : String) : String :=
  "((" ++ v ++ ").raw >> 48) <= 0x" ++ Text.upperHex 0 Value.maxNumberTag.toNat

def isObjectText (v : String) : String :=
  hasTagText v Value.tagObject.toNat

def isFlaggedText (v : String) : String :=
  hasTagText v Value.tagFlagged.toNat

def bitsText (bits : UInt64) : String :=
  "0x" ++ Text.upperHex 16 bits.toNat ++ "ULL"

def isDeletedText (v : String) : String :=
  "(" ++ v ++ ").raw == " ++ bitsText Value.deleted.bits

inductive BitTest where
  | number
  | object
  | flagged
  | deleted
  deriving DecidableEq, Repr, Inhabited

def BitTest.text : BitTest → String → String
  | .number => isNumberText
  | .object => isObjectText
  | .flagged => isFlaggedText
  | .deleted => isDeletedText

def BitTest.holds : BitTest → Value → Bool
  | .number, v => v.isNumber
  | .object, v => v.isObject
  | .flagged, v => v.isFlagged
  | .deleted, v => v == Value.deleted

def pointerText (v type : String) : String :=
  "((" ++ type ++ " *)(uintptr_t)((" ++ v ++ ").raw & 0x" ++
    Text.upperHex 0 Value.payloadMask.toNat ++ "ULL))"

end ScriptC.Engine
